import Mtfss.Server.Session
import Mtfss.Effects.Safety

/-! A session as a sequence of exchanges: the rounds of `handle_client` cut at the `switch`, with a
record of the requests and of what became of them. -/

namespace Mtfss.Server

open Effects Relation

/-- A round up to the `switch`. -/
def receive (host : Endian) : Code (Exit ⊕ (Request × Bytes)) := do
  if ← Sys.running then
    match ← recvMessageMeta host with
    | none => pure (.inl .requestLost)
    | some req =>
      Sys.log
      match ← recvPayload req.header with
      | none => pure (.inl .payloadLost)
      | some payload => pure (.inr (req, payload))
  else pure (.inl .notRunning)

/-- The way out of the loop. -/
def leave (exit : Exit) : Code (Exit ⊕ Bytes) := do
  endSession
  pure (.inl exit)

/-- A round after the `switch`. -/
def deliver (host : Endian) (x : Reply × Bytes) : Code (Exit ⊕ Bytes) := do
  match ← sendReply host x.1 x.2 with
  | .inr user => pure (.inr user)
  | .inl exit => leave exit

/-- A round from the `switch` on. -/
def serve (host : Endian) (user : Bytes) : Exit ⊕ (Request × Bytes) → Code (Exit ⊕ Bytes)
  | .inl exit => leave exit
  | .inr (req, payload) => (dispatch host user req payload).bind (deliver host)

lemma bind_congr {α β : Type} {p : Code α} {f g : α → Code β} (h : ∀ a, f a = g a) :
    p.bind f = p.bind g := congrArg p.bind (funext h)

lemma round_eq (host : Endian) (user : Bytes) :
    round host user = (receive host).bind (serve host user) := by
  simp only [round, handleRequest, receive, Prog.bind_eq, Prog.bind_assoc]
  apply bind_congr
  intro running
  cases running with
  | false => rfl
  | true =>
    simp only [if_true, Prog.bind_assoc]
    apply bind_congr
    intro req
    cases req with
    | none => rfl
    | some req =>
      simp only [Prog.bind_assoc]
      apply bind_congr
      intro _
      apply bind_congr
      intro payload
      cases payload with
      | none => rfl
      | some payload =>
        simp only [Prog.bind_assoc, Prog.pure_eq, Prog.bind_pure_left, serve]
        apply bind_congr
        rintro ⟨reply, user'⟩
        simp only [deliver, Prog.bind_eq]
        apply bind_congr
        rintro (exit | user'') <;> rfl

/-- A request that has been through the `switch`: the code run for it, what each of its steps found
and left, and the reply. -/
structure Exchange where
  request : Request
  payload : Bytes
  code : Code (Reply × Bytes)
  own : List (Store × Store)
  reply : Reply

inductive Phase
  | starting
  | receiving (user : Bytes) (p : Code (Exit ⊕ (Request × Bytes)))
  | serving (req : Request) (payload : Bytes) (code : Code (Reply × Bytes))
      (own : List (Store × Store)) (p : Code (Reply × Bytes))
  | delivering (p : Code (Exit ⊕ Bytes))

structure Talk where
  phase : Phase
  past : List Exchange
  self : Local
  shared : Store

namespace Talk

/-- Steps of a session with its record, among steps of others. -/
inductive Step (nx : Next Call Answer Machine) (host : Endian) : Talk → Talk → Prop
  | accept {past l s l' s'} : nx (.activeConnections 1) (l, s) () = some (l', s') →
      Step nx host ⟨.starting, past, l, s⟩ ⟨.receiving [] (receive host), past, l', s'⟩
  | receive {user p q past l s l' s'} : Effects.Step nx (p, (l, s)) (q, (l', s')) →
      Step nx host ⟨.receiving user p, past, l, s⟩ ⟨.receiving user q, past, l', s'⟩
  | leave {user exit past l s} : Step nx host ⟨.receiving user (.pure (.inl exit)), past, l, s⟩
      ⟨.delivering (leave exit), past, l, s⟩
  | begin {user req payload past l s} :
      Step nx host ⟨.receiving user (.pure (.inr (req, payload))), past, l, s⟩
        ⟨.serving req payload (dispatch host user req payload) [] (dispatch host user req payload),
          past, l, s⟩
  | serve {req payload code own p q past l s l' s'} : Effects.Step nx (p, (l, s)) (q, (l', s')) →
      Step nx host ⟨.serving req payload code own p, past, l, s⟩
        ⟨.serving req payload code (own ++ [(s, s')]) q, past, l', s'⟩
  | reply {req payload code own reply user past l s} :
      Step nx host ⟨.serving req payload code own (.pure (reply, user)), past, l, s⟩
        ⟨.delivering (deliver host (reply, user)),
          past ++ [⟨req, payload, code, own, reply⟩], l, s⟩
  | deliver {p q past l s l' s'} : Effects.Step nx (p, (l, s)) (q, (l', s')) →
      Step nx host ⟨.delivering p, past, l, s⟩ ⟨.delivering q, past, l', s'⟩
  | again {user past l s} : Step nx host ⟨.delivering (.pure (.inr user)), past, l, s⟩
      ⟨.receiving user (receive host), past, l, s⟩
  | others {phase past l s s'} : (s.running = false → s'.running = false) →
      Step nx host ⟨phase, past, l, s⟩ ⟨phase, past, l, s'⟩

abbrev Run (nx : Next Call Answer Machine) (host : Endian) : Talk → Talk → Prop :=
  ReflTransGen (Step nx host)

def start (l : Local) (s : Store) : Talk := ⟨.starting, [], l, s⟩

/-- What is left of `handle_client` and its loop. -/
def rest (host : Endian) : Phase → Code (Exit ⊕ Bytes)
  | .starting => handleClient host
  | .receiving user p => p.bind (serve host user)
  | .serving _ _ _ _ p => p.bind (deliver host)
  | .delivering p => p

def running (host : Endian) (t : Talk) : Prog.Running Call Answer Exn (Exit ⊕ Bytes) Machine :=
  (rest host t.phase, (t.self, t.shared))

variable {nx : Next Call Answer Machine} {host : Endian} {t t' : Talk}

lemma step_bind {α β : Type} {p q : Code α} {m m' : Machine} (f : α → Code β)
    (h : Effects.Step nx (p, m) (q, m')) : Effects.Step nx (p.bind f, m) (q.bind f, m') := by
  cases h with
  | call r hr => exact .call r hr

lemma Step.session (h : Step nx host t t') :
    t.running host = t'.running host ∨ SessionStep nx host (t.running host) (t'.running host) := by
  cases h with
  | accept h =>
    refine .inr (.own (.inside ?_))
    rw [running, running, rest, rest, ← round_eq]
    exact .call () h
  | receive h => exact .inr (.own (.inside (step_bind _ h)))
  | serve h => exact .inr (.own (.inside (step_bind _ h)))
  | deliver h => exact .inr (.own (.inside h))
  | leave => exact .inl rfl
  | begin => exact .inl rfl
  | reply => exact .inl rfl
  | again =>
    refine .inr (.own ?_)
    rw [running, running, rest, rest, ← round_eq]
    exact .again
  | others h => exact .inr (.others h)

/-- The record has been kept up to where the session stands. -/
def Settled : Phase → Prop
  | .receiving _ p => ∀ x, p ≠ .pure x
  | .serving _ _ _ _ p => ∀ x, p ≠ .pure x
  | _ => True

lemma settle_serving (req : Request) (payload : Bytes) (code : Code (Reply × Bytes))
    (own : List (Store × Store)) (p : Code (Reply × Bytes)) (past : List Exchange)
    (l : Local) (s : Store) : ∃ t', Run nx host ⟨.serving req payload code own p, past, l, s⟩ t' ∧
      t'.running host = (p.bind (deliver host), (l, s)) ∧ Settled t'.phase := by
  cases p with
  | pure x => exact ⟨_, .single .reply, rfl, trivial⟩
  | throw e => exact ⟨_, .refl, rfl, nofun⟩
  | op o k => exact ⟨_, .refl, rfl, nofun⟩

lemma settle (t : Talk) : ∃ t', Run nx host t t' ∧ t'.running host = t.running host ∧
    Settled t'.phase := by
  obtain ⟨phase, past, l, s⟩ := t
  cases phase with
  | starting => exact ⟨_, .refl, rfl, trivial⟩
  | delivering p => exact ⟨_, .refl, rfl, trivial⟩
  | serving req payload code own p => exact settle_serving req payload code own p past l s
  | receiving user p =>
    cases p with
    | throw e => exact ⟨_, .refl, rfl, nofun⟩
    | op o k => exact ⟨_, .refl, rfl, nofun⟩
    | pure x =>
      rcases x with exit | ⟨req, payload⟩
      · exact ⟨_, .single .leave, rfl, trivial⟩
      · obtain ⟨t', hrun, hsame, hsettled⟩ := @settle_serving nx host req payload
          (dispatch host user req payload) [] (dispatch host user req payload) past l s
        exact ⟨t', .head .begin hrun, hsame, hsettled⟩

lemma exists_run {d : Prog.Running Call Answer Exn (Exit ⊕ Bytes) Machine}
    (h : SessionStep nx host (t.running host) d) :
    ∃ t', Run nx host t t' ∧ t'.running host = d := by
  obtain ⟨t₁, hrun, hsame, hsettled⟩ := @settle nx host t
  rw [← hsame] at h
  suffices hstep : ∃ t', Step nx host t₁ t' ∧ t'.running host = d by
    obtain ⟨t', hstep, hd⟩ := hstep
    exact ⟨t', hrun.tail hstep, hd⟩
  obtain ⟨phase, past, l, s⟩ := t₁
  obtain ⟨q, l', s'⟩ := d
  generalize hc : running host ⟨phase, past, l, s⟩ = c at h
  cases h with
  | others hkeep =>
    cases hc
    exact ⟨_, .others hkeep, rfl⟩
  | own h =>
    cases h with
    | again =>
      cases phase with
      | starting => cases hc
      | receiving user p =>
        cases p with
        | pure x => exact (hsettled x rfl).elim
        | throw e => cases hc
        | op o k => cases hc
      | serving req payload code own p =>
        cases p with
        | pure x => exact (hsettled x rfl).elim
        | throw e => cases hc
        | op o k => cases hc
      | delivering p =>
        cases hc
        refine ⟨_, .again, ?_⟩
        rw [running, rest, ← round_eq]
    | inside h =>
      subst hc
      cases phase with
      | starting =>
        obtain ⟨_, hr, rfl⟩ := step_iff.mp h
        refine ⟨_, .accept hr, ?_⟩
        rw [running, rest, ← round_eq]
        rfl
      | delivering p => exact ⟨_, .deliver h, rfl⟩
      | receiving user p =>
        cases p with
        | pure x => exact (hsettled x rfl).elim
        | throw e => exact (no_step_ofExcept (.error e) _ h).elim
        | op o k =>
          obtain ⟨r, hr, rfl⟩ := step_iff.mp h
          exact ⟨_, .receive (.call r hr), rfl⟩
      | serving req payload code own p =>
        cases p with
        | pure x => exact (hsettled x rfl).elim
        | throw e => exact (no_step_ofExcept (.error e) _ h).elim
        | op o k =>
          obtain ⟨r, hr, rfl⟩ := step_iff.mp h
          exact ⟨_, .serve (.call r hr), rfl⟩

/-- The runs of `handle_client` are those that are recorded, the record put aside. -/
theorem run_iff (l : Local) (s : Store) (d : Prog.Running Call Answer Exn (Exit ⊕ Bytes) Machine) :
    ReflTransGen (SessionStep nx host) (handleClient host, (l, s)) d ↔
      ∃ t, Run nx host (start l s) t ∧ t.running host = d := by
  constructor
  · intro h
    induction h with
    | refl => exact ⟨start l s, .refl, rfl⟩
    | tail _ hs ih =>
      obtain ⟨t, hrun, rfl⟩ := ih
      obtain ⟨t', hrun', hd⟩ := exists_run hs
      exact ⟨t', hrun.trans hrun', hd⟩
  · rintro ⟨t, hrun, rfl⟩
    induction hrun with
    | refl => exact .refl
    | tail _ hs ih =>
      rcases hs.session with heq | hs
      · rwa [← heq]
      · exact ih.tail hs

/-- The session's own next step, with answers chosen by `pick`. -/
def advance (nx : Next Call Answer Machine) (host : Endian)
    (pick : (o : Call) → Machine → Answer o) : Talk → Option Talk
  | ⟨.starting, past, l, s⟩ =>
    (nx (.activeConnections 1) (l, s) ()).map
      (fun m => ⟨.receiving [] (receive host), past, m.1, m.2⟩)
  | ⟨.receiving user (.op o k), past, l, s⟩ =>
    (nx o (l, s) (pick o (l, s))).map
      (fun m => ⟨.receiving user (k (pick o (l, s))), past, m.1, m.2⟩)
  | ⟨.receiving _ (.pure (.inl exit)), past, l, s⟩ => some ⟨.delivering (leave exit), past, l, s⟩
  | ⟨.receiving user (.pure (.inr (req, payload))), past, l, s⟩ =>
    some ⟨.serving req payload (dispatch host user req payload) []
      (dispatch host user req payload), past, l, s⟩
  | ⟨.serving req payload code own (.op o k), past, l, s⟩ =>
    (nx o (l, s) (pick o (l, s))).map (fun m =>
      ⟨.serving req payload code (own ++ [(s, m.2)]) (k (pick o (l, s))), past, m.1, m.2⟩)
  | ⟨.serving req payload code own (.pure (reply, user)), past, l, s⟩ =>
    some ⟨.delivering (deliver host (reply, user)),
      past ++ [⟨req, payload, code, own, reply⟩], l, s⟩
  | ⟨.delivering (.op o k), past, l, s⟩ =>
    (nx o (l, s) (pick o (l, s))).map (fun m => ⟨.delivering (k (pick o (l, s))), past, m.1, m.2⟩)
  | ⟨.delivering (.pure (.inr user)), past, l, s⟩ =>
      some ⟨.receiving user (receive host), past, l, s⟩
  | ⟨.receiving _ (.throw _), _, _, _⟩ | ⟨.serving _ _ _ _ (.throw _), _, _, _⟩
  | ⟨.delivering (.throw _), _, _, _⟩ | ⟨.delivering (.pure (.inl _)), _, _, _⟩ => none

lemma step_of_advance {pick : (o : Call) → Machine → Answer o}
    (h : advance nx host pick t = some t') : Step nx host t t' := by
  obtain ⟨phase, past, l, s⟩ := t
  cases phase with
  | starting =>
    obtain ⟨m, hm, rfl⟩ := Option.map_eq_some_iff.mp h
    exact .accept hm
  | receiving user p =>
    cases p with
    | pure x =>
      rcases x with exit | ⟨req, payload⟩
      · cases h
        exact .leave
      · cases h
        exact .begin
    | throw e => cases h
    | op o k =>
      obtain ⟨m, hm, rfl⟩ := Option.map_eq_some_iff.mp h
      exact .receive (.call _ hm)
  | serving req payload code own p =>
    cases p with
    | pure x =>
      cases h
      exact .reply
    | throw e => cases h
    | op o k =>
      obtain ⟨m, hm, rfl⟩ := Option.map_eq_some_iff.mp h
      exact .serve (.call _ hm)
  | delivering p =>
    cases p with
    | pure x =>
      rcases x with exit | user
      · cases h
      · cases h
        exact .again
    | throw e => cases h
    | op o k =>
      obtain ⟨m, hm, rfl⟩ := Option.map_eq_some_iff.mp h
      exact .deliver (.call _ hm)

/-- At most `n` steps of its own. -/
def play (nx : Next Call Answer Machine) (host : Endian) (pick : (o : Call) → Machine → Answer o) :
    ℕ → Talk → Talk
  | 0, t => t
  | n + 1, t => ((advance nx host pick t).map (play nx host pick n)).getD t

lemma run_play (pick : (o : Call) → Machine → Answer o) (n : ℕ) (t : Talk) :
    Run nx host t (play nx host pick n t) := by
  induction n generalizing t with
  | zero => exact .refl
  | succ n ih =>
    rw [play]
    cases h : advance nx host pick t with
    | none => exact .refl
    | some t' => exact .head (step_of_advance h) (ih t')

end Talk

end Mtfss.Server
