import Mtfss.Effects.Threads
import Mtfss.Server.SessionRules
import Mtfss.System.Oblige

/-! A session answers its requests one after the other, each after reading all of it. -/

namespace Mtfss.SessionSync

open Effects Relation Server

abbrev Exchange := Packet × Response

def conversation (talk : List Exchange) : List Traffic :=
  talk.flatMap (fun x => x.1.wire.map .rx ++ x.2.wire.map .tx)

/-- What the loop can be left for after the exchanges `answered`. -/
def StopReason (running : Bool) (answered : List Exchange) (exit : Exit) : Prop :=
  (exit = .notRunning ∧ running = false) ∨
  (∃ x, answered.getLast? = some x ∧ exit = .quit ∧
    x.1.header.command = CommandType.quit.code) ∨
  (∃ x, answered.getLast? = some x ∧ exit = .streamFailed ∧
    x.1.header.command = CommandType.download.code ∧ x.2.header.status = StatusCode.ok.code)

/-- Steps of a session among steps of others, with the number of the rounds it has ended. -/
inductive RoundStep (nx : Next Call Answer Machine) (host : Endian) :
    ℕ × Prog.Running Call Answer Exn (Exit ⊕ Bytes) Machine →
      ℕ × Prog.Running Call Answer Exn (Exit ⊕ Bytes) Machine → Prop
  | inside {n c d} : Step nx c d → RoundStep nx host (n, c) (n, d)
  | again {n user m} :
      RoundStep nx host (n, (.pure (.inr user), m)) (n + 1, (round host user, m))
  | others {n p l s s'} : (s.running = false → s'.running = false) →
      RoundStep nx host (n, (p, (l, s))) (n, (p, (l, s')))

/-- A step of the session's own, after whatever others have done. -/
inductive OwnStep (nx : Next Call Answer Machine) (host : Endian) :
    Prog.Running Call Answer Exn (Exit ⊕ Bytes) Machine →
      Prog.Running Call Answer Exn (Exit ⊕ Bytes) Machine → Prop
  | after {p l s s' d} : (s.running = false → s'.running = false) →
      LoopStep nx (round host) (p, (l, s')) d → OwnStep nx host (p, (l, s)) d

/-- `n` rounds have ended, each with the whole exchange of one request, and the record goes on with
a beginning of the next one. The session leaves its loop for no other reason than those, never by an
exception, and it stands still only for a lock or when all requests are answered. -/
structure Synchronised (env : Env) (reqs : List Packet) (n : ℕ)
    (c : Prog.Running Call Answer Exn (Exit ⊕ Bytes) Machine) (talk : List Exchange) : Prop where
  requests : talk.map Prod.fst = reqs
  answers : ∀ x ∈ talk, Answers x.1 x.2
  rounds : n ≤ reqs.length
  ended : conversation (talk.take n) <+: c.2.1.conn.trace
  begun : c.2.1.conn.trace <+: conversation (talk.take (n + 1))
  round_end : ∀ user, c.1 = .pure (.inr user) →
    n < reqs.length ∧ c.2.1.conn.trace = conversation (talk.take (n + 1))
  no_throw : ∀ e, c.1 ≠ .throw e
  stop : ∀ exit, c.1 = .pure (.inl exit) → ∃ k, (k = n ∨ k = n + 1) ∧
    c.2.1.conn.trace = conversation (talk.take k) ∧ StopReason c.2.2.running (talk.take k) exit
  progress : ∀ o k, c.1 = .op o k → (∃ r m, next env o c.2 r = some m) ∨ o.isWaiting = true ∨
    ((∃ n, o = .recv n) ∧ c.2.1.conn.trace = conversation talk)

section Wire

open Wire

variable {w w' : Wire} {done : List Exchange} {req : Packet} {rest : List Packet}

lemma conversation_append (xs ys : List Exchange) :
    conversation (xs ++ ys) = conversation xs ++ conversation ys := List.flatMap_append

/-- A round that starts with the requests `req :: rest` before it. -/
def RoundEnd (done : List Exchange) (req : Packet) (rest : List Packet)
    (r : Except Exn (Exit ⊕ Bytes)) (w : Wire) : Prop :=
  (∃ resp, Answers req resp ∧ w.conn.trace = conversation (done ++ [(req, resp)]) ∧
    ((∃ user, r = .ok (.inr user) ∧ w.conn.input = rest.flatMap Packet.wire ∧
        w.conn.eof = false) ∨
      ∃ exit, r = .ok (.inl exit) ∧ exit ≠ .notRunning ∧
        StopReason true (done ++ [(req, resp)]) exit)) ∨
  (r = .ok (.inl .notRunning) ∧ w.stopped = true ∧ w.conn.trace = conversation done)

lemma wire_round (host : Endian) (user : Bytes) (hreq : Admissible req)
    (hinput : w.conn.input = req.wire ++ rest.flatMap Packet.wire) (heof : w.conn.eof = false)
    (htrace : w.conn.trace = conversation done) :
    wp wireNext (round host user) (RoundEnd done req rest) w := by
  have hpre : req.wire <+: w.conn.input := ⟨_, hinput.symm⟩
  simp only [Server.round, endSession, Prog.bind_eq, wp_bind, wp_running, afterBind_ok, if_true]
  constructor
  · refine wp_mono (wire_handleRequest host user hreq heof hpre) ?_
    rintro r w' ⟨resp, hanswers, rfl, hr⟩
    have htrace' : ((w.ahead req.wire.length).sent resp.wire).conn.trace =
        conversation (done ++ [(req, resp)]) := by
      rw [ahead_eq_consume hpre]
      simp [sent, Conn.consume, Conn.emit, htrace, conversation]
    rcases hr with rfl | ⟨rfl, hcmd⟩ | ⟨rfl, hcmd, hstatus, -⟩
    · refine Or.inl ⟨resp, hanswers, htrace', Or.inl ⟨_, rfl, ?_, heof⟩⟩
      rw [ahead_eq_consume hpre]
      simp [sent, hinput]
    · simp only [afterBind_ok, wp_bind, wp_closesocket, wp_activeConnections, wp_log,
        Prog.pure_eq, wp_pure]
      exact Or.inl ⟨resp, hanswers, htrace', Or.inr ⟨_, rfl, (by rintro ⟨⟩),
        Or.inr (Or.inl ⟨(req, resp), by simp, rfl, hcmd⟩)⟩⟩
    · simp only [afterBind_ok, wp_bind, wp_closesocket, wp_activeConnections, wp_log,
        Prog.pure_eq, wp_pure]
      exact Or.inl ⟨resp, hanswers, htrace', Or.inr ⟨_, rfl, (by rintro ⟨⟩),
        Or.inr (Or.inr ⟨(req, resp), by simp, rfl, hcmd, hstatus⟩)⟩⟩
  · simp only [Bool.false_eq_true, if_false, wp_bind, wp_closesocket, afterBind_ok,
      wp_activeConnections, wp_log, Prog.pure_eq, wp_pure]
    exact Or.inr ⟨rfl, rfl, htrace⟩

/-- A session that has nothing left to read: it has not come to `recv` yet, or it waits there, or it
has seen the server stop. -/
inductive Idle (host : Endian) (done : List Exchange) : Code (Exit ⊕ Bytes) → Wire → Prop
  | starting {w : Wire} : w.conn.trace = conversation done → w.conn.input = [] →
      w.conn.eof = false →
      Idle host done (handleClient host) w
  | looping {w : Wire} {user} : w.conn.trace = conversation done → w.conn.input = [] →
      w.conn.eof = false →
      Idle host done (round host user) w
  | waiting {w : Wire} {k} : w.conn.trace = conversation done → w.conn.input = [] →
      w.conn.eof = false →
      Idle host done (.op (.recv (toInt32 32)) k) w
  | closing {w : Wire} {p} : conversation done <+: w.conn.trace →
      wp wireNext p (fun r w => r = .ok (.inl .notRunning) ∧ w.stopped = true ∧
        w.conn.trace = conversation done) w → Idle host done p w

/-- What holds of the program and the connection when the rounds of `done` have ended. -/
inductive Progress (host : Endian) (reqs : List Packet) (done : List Exchange)
    (p : Code (Exit ⊕ Bytes)) (w : Wire) : Prop
  | busy {req : Packet} {rest : List Packet} : reqs = done.map Prod.fst ++ req :: rest →
      (∀ x ∈ done, Answers x.1 x.2) → conversation done <+: w.conn.trace →
      wp wireNext p (RoundEnd done req rest) w → Progress host reqs done p w
  | idle : reqs = done.map Prod.fst → (∀ x ∈ done, Answers x.1 x.2) →
      Idle host done p w → Progress host reqs done p w

lemma Progress.rounds {host : Endian} {reqs : List Packet} {p : Code (Exit ⊕ Bytes)}
    (h : Progress host reqs done p w) : done.length ≤ reqs.length := by
  cases h with
  | busy hreqs =>
    rw [hreqs, List.length_append, List.length_map]
    omega
  | idle hreqs => rw [hreqs, List.length_map]

lemma wp_closed (h : w.conn.trace = conversation done) (hs : w.stopped = true) :
    wp wireNext (endSession.bind (fun _ => .pure (.inl .notRunning)))
      (fun (r : Except Exn (Exit ⊕ Bytes)) w => r = .ok (.inl .notRunning) ∧ w.stopped = true ∧
        w.conn.trace = conversation done) w := by
  simp [endSession, wp_bind, Conn.close, h, hs]

lemma trace_step {p q : Code (Exit ⊕ Bytes)} (hs : Step wireNext (p, w) (q, w')) :
    w.conn.trace <+: w'.conn.trace := by
  cases hs with
  | call r hr => exact trace_mono hr

lemma Idle.step {host : Endian} {p q : Code (Exit ⊕ Bytes)} (h : Idle host done p w)
    (hs : Step wireNext (p, w) (q, w')) : Idle host done q w' := by
  cases h with
  | starting htrace hin heof =>
    obtain ⟨r, hr, hq⟩ := step_iff.mp hs
    simp only [wireNext, smallAnswer, if_true, Option.some.injEq] at hr
    obtain rfl : q = _ := hq
    exact hr ▸ .looping htrace hin heof
  | @looping _ user htrace hin heof =>
    obtain ⟨r, hr, hq⟩ := step_iff.mp hs
    cases r with
    | true =>
      cases hr
      obtain rfl : q = _ := hq
      exact .waiting htrace hin heof
    | false =>
      cases hr
      obtain rfl : q = _ := hq
      exact .closing (htrace ▸ List.prefix_rfl) (wp_closed htrace rfl)
  | waiting htrace hin heof =>
    obtain ⟨r, hr, -⟩ := step_iff.mp hs
    obtain ⟨c, hc, -⟩ := Option.map_eq_some_iff.mp hr
    rw [toInt32_small (by decide)] at hc
    rcases (Conn.recv_positive (by decide)).mp hc with ⟨bs, -, hbs, -, hpre, -⟩ | ⟨-, heof', -⟩
    · rw [hin] at hpre
      exact (hbs (List.prefix_nil.mp hpre)).elim
    · rw [heof] at heof'
      cases heof'
  | closing htrace hw => exact .closing (htrace.trans (trace_step hs)) (wp_step hw hs)

lemma Progress.step {host : Endian} {reqs : List Packet} {p q : Code (Exit ⊕ Bytes)}
    (h : Progress host reqs done p w) (hs : Step wireNext (p, w) (q, w')) :
    Progress host reqs done q w' := by
  cases h with
  | busy hreqs hans htrace hw =>
    exact .busy hreqs hans (htrace.trans (trace_step hs)) (wp_step hw hs)
  | idle hreqs hans hidle => exact .idle hreqs hans (hidle.step hs)

lemma Progress.head {host : Endian} {reqs : List Packet} (user : Bytes)
    (hreqs : reqs = done.map Prod.fst ++ rest) (hadm : ∀ p ∈ reqs, Admissible p)
    (hans : ∀ x ∈ done, Answers x.1 x.2) (htrace : w.conn.trace = conversation done)
    (hin : w.conn.input = rest.flatMap Packet.wire) (heof : w.conn.eof = false) :
    Progress host reqs done (round host user) w := by
  cases rest with
  | nil => exact .idle (by simpa using hreqs) hans (.looping htrace hin heof)
  | cons req rest =>
    have hreq : Admissible req := hadm req (by simp [hreqs])
    exact .busy hreqs hans (htrace ▸ List.prefix_rfl)
      (wire_round host user hreq hin heof htrace)

lemma Progress.again {host : Endian} {reqs : List Packet} {user : Bytes}
    (hadm : ∀ p ∈ reqs, Admissible p) (h : Progress host reqs done (.pure (.inr user)) w) :
    ∃ x, Progress host reqs (done ++ [x]) (round host user) w := by
  generalize hp : (Prog.pure (Sum.inr user) : Code (Exit ⊕ Bytes)) = p at h
  cases h with
  | @busy req rest hreqs hans _ hw =>
    subst hp
    rcases hw with ⟨resp, hresp, htrace, ⟨_, -, hin, heof⟩ | ⟨_, hr, -⟩⟩ | ⟨hr, -⟩
    · refine ⟨_, .head user (by simpa using hreqs) hadm ?_ htrace hin heof⟩
      intro x hx
      rcases List.mem_append.mp hx with hx | hx
      · exact hans x hx
      · rw [List.mem_singleton.mp hx]
        exact hresp
    · cases hr
    · cases hr
  | idle hreqs hans hidle =>
    cases hidle with
    | starting => nomatch hp
    | looping => nomatch hp
    | waiting => cases hp
    | closing _ hw =>
      subst hp
      cases hw.1

lemma trace_steps {p q : Code (Exit ⊕ Bytes)} (h : Steps wireNext (p, w) (q, w')) :
    w.conn.trace <+: w'.conn.trace :=
  steps_invariant (I := fun v => w.conn.trace <+: v.conn.trace)
    (fun _ _ _ _ hr hi => hi.trans (trace_mono hr)) h List.prefix_rfl

/-- Some response to a request, to stand for one that has not been made. -/
def anyResponse (p : Packet) : Response := ⟨makeResponse p.header.command .ok 0, []⟩

lemma answers_anyResponse (p : Packet) : Answers p (anyResponse p) :=
  ⟨rfl, rfl, rfl, Or.inl rfl⟩

def filled (rest : List Packet) : List Exchange := rest.map (fun p => (p, anyResponse p))

lemma filled_requests (rest : List Packet) : (filled rest).map Prod.fst = rest := by
  simp [filled, Function.comp_def]

lemma filled_answers (rest : List Packet) : ∀ x ∈ filled rest, Answers x.1 x.2 := by
  intro x hx
  obtain ⟨p, -, rfl⟩ := List.mem_map.mp hx
  exact answers_anyResponse p

end Wire

section Machine

variable {env : Env} {host : Endian} {reqs : List Packet} {m : Machine} {w : Wire}
variable {p : Code (Exit ⊕ Bytes)}

lemma enabled_of_wire {o : Call} (hview : w.Views m) (h : ∃ r w', wireNext o w r = some w') :
    (∃ r m', next env o m r = some m') ∨ o.isWaiting = true := by
  by_cases hw : o.isWaiting = true
  · exact Or.inr hw
  refine Or.inl ?_
  by_cases hr : ∃ n, o = .recv n
  · obtain ⟨n, rfl⟩ := hr
    obtain ⟨r, w', hr⟩ := h
    obtain ⟨c, hc, -⟩ := Option.map_eq_some_iff.mp hr
    rw [hview.1] at hc
    exact ⟨r, _, Option.map_eq_some_iff.mpr ⟨c, hc, rfl⟩⟩
  · exact next_enabled env o m (by simpa using hw) (fun n hn => hr ⟨n, hn⟩)

lemma final_of_steps {x : Exit ⊕ Bytes} {r : Except Exn (Exit ⊕ Bytes)} {t : Wire}
    (h : Steps wireNext (.pure x, w) (Prog.ofExcept r, t)) : r = .ok x ∧ t = w := by
  rcases ReflTransGen.cases_head h with heq | ⟨c, hc, -⟩
  · cases r <;> cases heq
    exact ⟨rfl, rfl⟩
  · exact (no_step_ofExcept (.ok _) _ hc).elim

lemma stopReason_running {running : Bool} {answered : List Exchange} {exit : Exit}
    (h : StopReason true answered exit) : StopReason running answered exit := by
  rcases h with ⟨-, hr⟩ | h
  · cases hr
  · exact Or.inr h

lemma take_done (done rest : List Exchange) (x : Exchange) :
    (done ++ x :: rest).take (done.length + 1) = done ++ [x] := by
  rw [List.take_append, List.take_of_length_le (by omega), Nat.add_sub_cancel_left]
  rfl

lemma synchronised_of_busy {done : List Exchange} {req : Packet} {rest : List Packet}
    (hview : w.Views m) (hreqs : reqs = done.map Prod.fst ++ req :: rest)
    (hans : ∀ x ∈ done, Answers x.1 x.2) (hdone : conversation done <+: w.conn.trace)
    (hw : wp wireNext p (RoundEnd done req rest) w) :
    ∃ talk, Synchronised env reqs done.length (p, m) talk := by
  have htrace : m.1.conn.trace = w.conn.trace := by rw [hview.1]
  have hlt : done.length < reqs.length := by
    rw [hreqs, List.length_append, List.length_map, List.length_cons]
    omega
  have hrequests : ∀ resp, (done ++ (req, resp) :: filled rest).map Prod.fst = reqs := by
    intro resp
    simp [hreqs, filled_requests]
  have hanswers : ∀ resp, Answers req resp →
      ∀ x ∈ done ++ (req, resp) :: filled rest, Answers x.1 x.2 := by
    intro resp hresp x hx
    rcases List.mem_append.mp hx with hx | hx
    · exact hans x hx
    rcases List.mem_cons.mp hx with rfl | hx
    · exact hresp
    · exact filled_answers rest x hx
  have hended : ∀ resp, conversation ((done ++ (req, resp) :: filled rest).take done.length) <+:
      m.1.conn.trace := by
    intro resp
    rwa [List.take_left, htrace]
  have hprogress : ∀ talk o k, p = .op o k → (∃ r m', next env o m r = some m') ∨
      o.isWaiting = true ∨ ((∃ n, o = .recv n) ∧ m.1.conn.trace = conversation talk) := by
    rintro talk o k rfl
    exact (enabled_of_wire hview hw.1).imp_right Or.inl
  have hthrow : ∀ e, p ≠ .throw e := by
    rintro e rfl
    rcases hw with ⟨_, _, _, ⟨_, hr, -⟩ | ⟨_, hr, -⟩⟩ | ⟨hr, -⟩ <;> cases hr
  obtain ⟨r, t, hsteps, hend⟩ := wp_completes hw
  have hmono := trace_steps hsteps
  rcases hend with ⟨resp, hresp, htr, hr⟩ | ⟨rfl, hstopped, htr⟩
  · refine ⟨_, hrequests resp, hanswers resp hresp, hlt.le, hended resp, ?_, ?_, hthrow, ?_,
      hprogress _⟩
    · rw [htrace, take_done, ← htr]
      exact hmono
    · rintro user rfl
      obtain ⟨-, rfl⟩ := final_of_steps hsteps
      exact ⟨hlt, by rw [htrace, take_done, htr]⟩
    · rintro exit rfl
      obtain ⟨hok, rfl⟩ := final_of_steps hsteps
      rcases hr with ⟨user, hr, -⟩ | ⟨exit', hr, -, hreason⟩
      · rw [hok] at hr
        cases hr
      · rw [hok] at hr
        cases hr
        exact ⟨_, Or.inr rfl, by rw [take_done, htrace, htr],
          (take_done done _ _).symm ▸ stopReason_running hreason⟩
  · refine ⟨_, hrequests _, hanswers _ (answers_anyResponse req), hlt.le, hended _, ?_, ?_, hthrow,
      ?_, hprogress _⟩
    · rw [htrace, take_done, conversation_append]
      exact (hmono.trans (htr ▸ List.prefix_rfl)).trans (List.prefix_append _ _)
    · rintro user rfl
      obtain ⟨hok, -⟩ := final_of_steps hsteps
      cases hok
    · rintro exit rfl
      obtain ⟨hok, rfl⟩ := final_of_steps hsteps
      cases hok
      exact ⟨_, Or.inl rfl, by rw [List.take_left, htrace, htr],
        Or.inl ⟨rfl, hview.2 hstopped⟩⟩

lemma synchronised_of_idle {done : List Exchange} (hview : w.Views m)
    (hreqs : reqs = done.map Prod.fst) (hans : ∀ x ∈ done, Answers x.1 x.2)
    (hidle : Idle host done p w) : Synchronised env reqs done.length (p, m) done := by
  have htrace : m.1.conn.trace = w.conn.trace := by rw [hview.1]
  have hlen : done.length ≤ reqs.length := by rw [hreqs, List.length_map]
  have hnow : done.take done.length = done := List.take_length
  have hnext : done.take (done.length + 1) = done := List.take_of_length_le (Nat.le_succ _)
  have hstill : w.conn.trace = conversation done →
      conversation (done.take done.length) <+: m.1.conn.trace ∧
        m.1.conn.trace <+: conversation (done.take (done.length + 1)) := by
    intro htr
    rw [hnow, hnext, htrace, htr]
    exact ⟨List.prefix_rfl, List.prefix_rfl⟩
  cases hidle with
  | starting htr hin heof =>
    refine ⟨hreqs.symm, hans, hlen, (hstill htr).1, (hstill htr).2, nofun, nofun, nofun, ?_⟩
    rintro o k ⟨⟩
    exact Or.inl (next_enabled env _ m rfl nofun)
  | looping htr hin heof =>
    refine ⟨hreqs.symm, hans, hlen, (hstill htr).1, (hstill htr).2, nofun, nofun, nofun, ?_⟩
    rintro o k ⟨⟩
    exact Or.inl (next_enabled env _ m rfl nofun)
  | waiting htr hin heof =>
    refine ⟨hreqs.symm, hans, hlen, (hstill htr).1, (hstill htr).2, nofun, nofun, nofun, ?_⟩
    rintro o k ⟨⟩
    exact Or.inr (Or.inr ⟨⟨_, rfl⟩, htrace.trans htr⟩)
  | closing hbegun hw =>
    obtain ⟨r, t, hsteps, hr, -, htr⟩ := wp_completes hw
    refine ⟨hreqs.symm, hans, hlen, ?_, ?_, ?_, ?_, ?_, ?_⟩
    · rwa [hnow, htrace]
    · rw [hnext, htrace, ← htr]
      exact trace_steps hsteps
    · rintro user rfl
      cases hw.1
    · rintro e rfl
      cases hw.1
    · rintro exit rfl
      obtain ⟨⟨⟩, hstopped, htr⟩ := hw
      exact ⟨_, Or.inl rfl, by rw [hnow, htrace, htr], Or.inl ⟨rfl, hview.2 hstopped⟩⟩
    · rintro o k rfl
      exact (enabled_of_wire hview hw.1).imp_right Or.inl

lemma synchronised_of_progress {done : List Exchange} (hview : w.Views m)
    (h : Progress host reqs done p w) : ∃ talk, Synchronised env reqs done.length (p, m) talk := by
  cases h with
  | busy hreqs hans hdone hw => exact synchronised_of_busy hview hreqs hans hdone hw
  | idle hreqs hans hidle => exact ⟨_, synchronised_of_idle hview hreqs hans hidle⟩

lemma views_others {l : Local} {s s' : Store} (hview : w.Views (l, s))
    (hkeep : s.running = false → s'.running = false) : w.Views (l, s') :=
  ⟨hview.1, fun hs => hkeep (hview.2 hs)⟩

lemma progress_inside {done : List Exchange} {q : Code (Exit ⊕ Bytes)} {m' : Machine}
    (halloc : env.faults.alloc = false) (hview : w.Views m) (h : Progress host reqs done p w)
    (hs : Step (fitting (next env)) (p, m) (q, m')) :
    ∃ w', w'.Views m' ∧ Progress host reqs done q w' := by
  obtain ⟨w', hw', hview'⟩ := (wireNext_simulates halloc).step hview hs
  exact ⟨w', hview', h.step hw'⟩

lemma progress_step {n n' : ℕ} {c d : Prog.Running Call Answer Exn (Exit ⊕ Bytes) Machine}
    (halloc : env.faults.alloc = false) (hadm : ∀ p ∈ reqs, Admissible p)
    (hc : ∃ done w, done.length = n ∧ w.Views c.2 ∧ Progress host reqs done c.1 w)
    (h : RoundStep (fitting (next env)) host (n, c) (n', d)) :
    ∃ done w, done.length = n' ∧ w.Views d.2 ∧ Progress host reqs done d.1 w := by
  obtain ⟨done, w, rfl, hview, hprogress⟩ := hc
  cases h with
  | inside hs =>
    obtain ⟨w', hview', hprogress'⟩ := progress_inside halloc hview hprogress hs
    exact ⟨done, w', rfl, hview', hprogress'⟩
  | again =>
    obtain ⟨x, hround⟩ := hprogress.again hadm
    exact ⟨done ++ [x], w, List.length_append, hview, hround⟩
  | others hkeep => exact ⟨done, w, rfl, views_others hview hkeep, hprogress⟩

/-- By induction on the requests that are left, and in a round on the code. -/
lemma acc_of_progress (halloc : env.faults.alloc = false) (hadm : ∀ p ∈ reqs, Admissible p) (k : ℕ)
    {done : List Exchange} (hk : done.length + k = reqs.length) (hview : w.Views m)
    (h : Progress host reqs done p w) :
    Acc (fun d c => OwnStep (fitting (next env)) host c d) (p, m) := by
  induction k using Nat.strong_induction_on generalizing done p m w with
  | _ k ihk =>
    induction p generalizing m w with
    | pure x =>
      constructor
      rintro _ ⟨hkeep, hown⟩
      cases hown with
      | inside hs => cases hs
      | again =>
        obtain ⟨x, hround⟩ := h.again hadm
        have hlen := hround.rounds
        rw [List.length_append, List.length_singleton] at hlen
        refine ihk (k - 1) (by omega) ?_ (views_others hview hkeep) hround
        rw [List.length_append, List.length_singleton]
        omega
    | throw e =>
      constructor
      rintro _ ⟨-, hown⟩
      cases hown with
      | inside hs => cases hs
    | op o k ih =>
      constructor
      rintro _ ⟨hkeep, hown⟩
      cases hown with
      | inside hs =>
        cases hs with
        | call r hr =>
          obtain ⟨w', hview', hprogress⟩ :=
            progress_inside halloc (views_others hview hkeep) h (.call r hr)
          exact ih r hview' hprogress

end Machine

/-- While allocations and the connection do not fail, a session that gets admissible requests and
makes LIST replies that fit an `int` answers its requests one by one, whatever the file system does,
and whatever other sessions do in between; and it comes to a standstill. -/
theorem session_synchronised (env : Env) (halloc : env.faults.alloc = false) (host : Endian)
    (reqs : List Packet) (hadm : ∀ p ∈ reqs, Admissible p) (l : Local) (s : Store)
    (hconn : l.conn = ⟨reqs.flatMap Packet.wire, false, [], 0⟩) (n : ℕ)
    (c : Prog.Running Call Answer Exn (Exit ⊕ Bytes) Machine)
    (h : ReflTransGen (RoundStep (fitting (next env)) host)
      (0, (handleClient host, (l, s))) (n, c)) :
    (∃ talk, Synchronised env reqs n c talk) ∧
      Acc (fun d c => OwnStep (fitting (next env)) host c d) c := by
  have hinv : ∀ x, ReflTransGen (RoundStep (fitting (next env)) host)
      (0, (handleClient host, (l, s))) x →
      ∃ done w, done.length = x.1 ∧ w.Views x.2.2 ∧ Progress host reqs done x.2.1 w := by
    intro x h
    induction h with
    | refl =>
      refine ⟨[], ⟨l.conn, false⟩, rfl, ⟨rfl, nofun⟩, ?_⟩
      cases reqs with
      | nil =>
        have hidle : Idle host [] (handleClient host) ⟨l.conn, false⟩ :=
          .starting (by simp [hconn, conversation]) (by simp [hconn]) (by simp [hconn])
        exact .idle rfl (by simp) hidle
      | cons req rest =>
        have hnone : req :: rest = ([] : List Exchange).map Prod.fst ++ req :: rest := rfl
        refine .busy hnone (by simp) (by simp [conversation]) ?_
        rw [handleClient, Prog.bind_eq, wp_bind, Wire.wp_activeConnections]
        exact wire_round host [] (hadm req (by simp)) (by simp [hconn]) (by simp [hconn])
          (by simp [hconn, conversation])
    | tail _ hs ih => exact progress_step halloc hadm ih hs
  obtain ⟨done, w, rfl, hview, hprogress⟩ := hinv _ h
  have hleft := hprogress.rounds
  exact ⟨synchronised_of_progress hview hprogress,
    acc_of_progress halloc hadm (reqs.length - done.length) (by omega) hview hprogress⟩

/-- A session that gets a LOGIN of bob, up to the end of its first round. -/
def greeted : Option (Prog.Running Call Answer Exn (Exit ⊕ Bytes) Machine) :=
  follow (oblige .atRoot) (fitting (next .atRoot)) 200 (handleClient .little)
    (.fresh 0 (login (bytes "bob") (by decide)).wire false, .fresh (.ofDir []))

def goesOn : Code (Exit ⊕ Bytes) → Bool
  | .pure (.inr _) => true
  | _ => false

lemma exists_of_goesOn {p : Code (Exit ⊕ Bytes)} (h : goesOn p = true) :
    ∃ user, p = .pure (.inr user) := by
  cases p with
  | pure x =>
    cases x with
    | inl exit => cases h
    | inr user => exact ⟨user, rfl⟩
  | throw e => cases h
  | op o k => cases h

def greeting : Response :=
  ⟨makeResponse CommandType.login.code .ok 13, bytes "Welcome, bob!"⟩

theorem session_synchronised_login : ∃ user m, greeted = some (.pure (.inr user), m) ∧
    m.1.conn.trace = conversation [(login (bytes "bob") (by decide), greeting)] ∧
    (∃ talk, Synchronised .atRoot [login (bytes "bob") (by decide)] 1
      (round .little user, m) talk) ∧
    Acc (fun d c => OwnStep (fitting (next .atRoot)) .little c d) (round .little user, m) := by
  have hend : greeted.any (fun c => goesOn c.1 && (c.2.1.conn.trace ==
      conversation [(login (bytes "bob") (by decide), greeting)])) = true := by decide +kernel
  obtain ⟨⟨p, m⟩, hrun, hcheck⟩ := (Option.any_eq_true _ _).mp hend
  obtain ⟨hgoes, htrace⟩ := Bool.and_eq_true_iff.mp hcheck
  obtain ⟨user, rfl⟩ := exists_of_goesOn hgoes
  have hadm : ∀ p ∈ [login (bytes "bob") (by decide)], Admissible p := by
    intro p hp
    rw [List.mem_singleton.mp hp]
    exact ⟨by decide, by decide, fun _ => by decide, fun _ => by decide⟩
  have hround : ReflTransGen (RoundStep (fitting (next .atRoot)) .little) (0, _) (0, _) :=
    (steps_of_follow hrun).lift (fun c => (0, c)) fun _ _ h => .inside h
  refine ⟨user, m, hrun, eq_of_beq htrace, ?_⟩
  exact session_synchronised .atRoot rfl .little _ hadm _ _ (by simp [Local.fresh]) 1 _
    (hround.tail .again)

lemma login_responseLost {u : Bytes} (h : u.length < 2 ^ 31) (hlong : 2 ^ 31 ≤ u.length + 10)
    (l : Local) (s : Store) (hconn : l.conn.input = (login u h).wire) (heof : l.conn.eof = false)
    (hrun : s.running = true) :
    wp (next .atRoot) (handleClient .little) (fun r _ => r = .ok (.inl .responseLost)) (l, s) := by
  have hlarge : 2 ^ 31 ≤ (welcome u).length := by rwa [welcome_length]
  refine wp_login rfl rfl .little h hconn hrun (wp_mono (wp_sendMessage_large
    (W := machine .atRoot) .little _ rfl rfl (welcome_counted h) hlarge heof) ?_)
  rintro r ⟨l', s'⟩ rfl
  refine ⟨false, rfl, ?_⟩
  simp [endSession, wp_bind, Env.atRoot, Faults.none]

/-- Requests of lengths that an `int` can count, but for the payload of an UPLOAD. -/
structure Countable (p : Packet) : Prop where
  username_small : p.username.length < 2 ^ 31
  filename_small : p.filename.length < 2 ^ 31
  payload_small : p.header.command ≠ CommandType.upload.code → p.payload.length < 2 ^ 31

/-- A LOGIN with a name of `2 ^ 31 - 10` bytes ends the session. -/
theorem session_not_synchronised : ¬ ∀ (env : Env), env.faults.alloc = false → ∀ (host : Endian)
    (reqs : List Packet), (∀ p ∈ reqs, Countable p) → ∀ (l : Local) (s : Store),
    l.conn = ⟨reqs.flatMap Packet.wire, false, [], 0⟩ →
    ∀ c : Prog.Running Call Answer Exn (Exit ⊕ Bytes) Machine,
    ∀ n, ReflTransGen (RoundStep (next env) host) (0, (handleClient host, (l, s))) (n, c) →
    (∃ talk, Synchronised env reqs n c talk) ∧
      Acc (fun d c => OwnStep (next env) host c d) c := by
  intro hall
  have hu : (List.replicate (2 ^ 31 - 10) (0x61 : Byte)).length < 2 ^ 31 := by
    rw [List.length_replicate]
    omega
  have hlong : 2 ^ 31 ≤ (List.replicate (2 ^ 31 - 10) (0x61 : Byte)).length + 10 := by
    rw [List.length_replicate]
    omega
  generalize List.replicate (2 ^ 31 - 10) (0x61 : Byte) = u at hu hlong
  obtain ⟨r, ⟨l, s⟩, hsteps, rfl⟩ := wp_completes (login_responseLost hu hlong
    (.fresh 0 (login u hu).wire false) (.fresh (.ofDir [])) rfl rfl rfl)
  have hrun : ReflTransGen (RoundStep (next .atRoot) .little) (0, _) (0, _) :=
    hsteps.lift (fun c => (0, c)) fun _ _ h => .inside h
  obtain ⟨⟨talk, hsync⟩, -⟩ := hall .atRoot rfl .little [login u hu]
    (by
      intro p hp
      rw [List.mem_singleton.mp hp]
      exact ⟨hu, by simp [login], fun _ => by simp [login]⟩) _ _ (by simp [Local.fresh]) _ _ hrun
  obtain ⟨k, -, -, hstop⟩ := hsync.stop .responseLost rfl
  rcases hstop with ⟨h, -⟩ | ⟨_, _, h, -⟩ | ⟨_, _, h, -⟩ <;> cases h

end Mtfss.SessionSync
