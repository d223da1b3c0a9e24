import Mtfss.Effects.Threads
import Mtfss.System.Frames
import Mtfss.System.Oblige
import Mtfss.Server.Exchanges
import Mtfss.Server.SessionRules

/-! Which requests of a session are refused for want of a LOGIN. -/

namespace Mtfss.LoginGate

open Effects Server FileManager Paths

variable {env : Env} {host : Endian} {α β : Type}

/-- The commands that are for a user's files. -/
def NeedsLogin (cmd : UInt32) : Prop :=
  CommandType.ofCode cmd ∈ [some .upload, some .download, some .list, some .deleteF, some .rename]

/-- What a request asks for, done for `user`. -/
def carryOut (host : Endian) (user : Bytes) (req : Request) (payload : Bytes) : Code Reply :=
  let cmd := req.header.command
  match CommandType.ofCode cmd with
  | some .upload => do
    if ← saveFile user req.filename req.header.payloadLength then
      pure (respond cmd .created (bytes "File uploaded successfully."))
    else pure (respond cmd .internalError (bytes "Failed to save file."))
  | some .download => do
    let fileSize ← getFileSize user req.filename
    if fileSize = -1 then pure (respond cmd .notFound (bytes "File not found."))
    else if !(← sendMessageMeta host (makeResponse cmd .ok fileSize) [] []) then
      pure (.ended .headerLost)
    else if !(← streamFileToSocket user req.filename) then pure (.ended .streamFailed)
    else pure .streamed
  | some .list => do
    let listing ← listFiles user
    pure (respond cmd .ok listing)
  | some .deleteF => do
    if ← deleteFile user req.filename then
      pure (respond cmd .ok (bytes "File deleted successfully."))
    else pure (respond cmd .notFound (bytes "File not found or cannot be deleted."))
  | some .rename => do
    if ← renameFile user req.filename payload then
      pure (respond cmd .ok (bytes "Renamed successfully."))
    else pure (respond cmd .notFound (bytes "File not found or new name conflicts."))
  | _ => pure .streamed

lemma dispatch_eq_carryOut {user : Bytes} {req : Request} (hcmd : NeedsLogin req.header.command)
    (huser : user ≠ []) (payload : Bytes) :
    dispatch host user req payload =
      (carryOut host user req payload).bind (fun reply => .pure (reply, user)) := by
  simp only [NeedsLogin, List.mem_cons, List.not_mem_nil, or_false] at hcmd
  rcases hcmd with h | h | h | h | h <;>
    simp only [dispatch, carryOut, h, upload, download, list, delete, rename, if_neg huser] <;> rfl

/-- The exchange is a LOGIN answered 200. -/
def accepted (x : Exchange) : Bool :=
  x.request.header.command == CommandType.login.code &&
    match x.reply with
    | .message header _ => header.status == StatusCode.ok.code
    | _ => false

def latestLogin (past : List Exchange) : Option Bytes :=
  (past.filter accepted).getLast?.map (fun x => x.request.username)

lemma latestLogin_append (past : List Exchange) (x : Exchange) :
    latestLogin (past ++ [x]) = if accepted x then some x.request.username
      else latestLogin past := by
  cases h : accepted x <;> simp [latestLogin, List.filter_append, h]

def latestAsked (past : List Exchange) : Option Bytes :=
  (past.filter (fun x => x.request.header.command == CommandType.login.code)).getLast?.map
    (fun x => x.request.username)

/-- Answered 400 "Must LOGIN first", and no step of its own changed the disk or the index. -/
structure Refused (x : Exchange) : Prop where
  reply : x.reply = mustLogin x.request.header.command
  unchanged : ∀ y ∈ x.own, y.2.disk = y.1.disk ∧ y.2.index = y.1.index

/-- The gate, for a request after the exchanges `past`: refused if no LOGIN has been answered 200,
and otherwise carried out for the user of the latest one. -/
def Gated (host : Endian) (past : List Exchange) (x : Exchange) : Prop :=
  match latestLogin past with
  | none => Refused x
  | some u => ¬ Refused x ∧
      x.code = (carryOut host u x.request x.payload).bind (fun reply => .pure (reply, u))

/-- All calls of `p` satisfy `C` and all its results `Q`, whatever the calls are answered. -/
abbrev Always (C : Call → Prop) (p : Code α) (Q : Except Exn α → Prop) : Prop :=
  Safe (Monitor.next (fun _ (_ : Unit) _ => ())) (fun o _ => C o) p (fun r _ => Q r) ()

section Always

variable {C : Call → Prop} {p : Code α} {f : α → Code β} {Q : Except Exn β → Prop}

lemma always_bind {R : Except Exn α → Prop} (hp : Always C p R)
    (hok : ∀ a, R (.ok a) → Always C (f a) Q)
    (herr : ∀ e, R (.error e) → Q (.error e)) : Always C (p.bind f) Q := by
  refine safe_bind_of hp ?_
  rintro (e | a) _ h
  · exact herr e h
  · exact hok a h

lemma always_call {o : Call} {k : Answer o → Code β} (ho : C o) (hk : ∀ r, Always C (k r) Q) :
    Always C (.op o k) Q := Monitor.safe_op.mpr ⟨ho, hk⟩

lemma always_ofExcept {r : Except Exn β} (h : Q r) : Always C (Prog.ofExcept r) Q :=
  (safe_ofExcept r).mpr h

lemma always_of_forall {p : Code β} (hC : ∀ o, C o) (hQ : ∀ r, Q r) : Always C p Q :=
  safe_of_forall (fun o _ => hC o) (fun r _ => hQ r)

end Always

lemma respond_ne_mustLogin {cmd : UInt32} {status : StatusCode} {body : Bytes}
    (h : status ≠ .badRequest) : respond cmd status body ≠ mustLogin cmd := by
  intro heq
  have hcode : status.code = StatusCode.badRequest.code :=
    congrArg (fun r => match r with | .message header _ => header.status | _ => 0) heq
  exact h (StatusCode.code_injective hcode)

section Dispatch

variable {C : Call → Prop} {user : Bytes} {req : Request} {payload : Bytes}

lemma always_either {p : Code Bool} {x y : Reply} {Q : Reply → Prop} (hC : ∀ o, C o)
    (hx : Q x) (hy : Q y) : Always C (p.bind (fun b => if b = true then .pure x else .pure y))
      (fun r => ∀ reply, r = .ok reply → Q reply) := by
  refine always_bind (always_of_forall hC fun _ => trivial) ?_ nofun
  rintro (b | b) -
  · rintro _ ⟨⟩
    exact hy
  · rintro _ ⟨⟩
    exact hx

lemma carryOut_replies (hC : ∀ o, C o) : Always C (carryOut host user req payload)
    (fun r => ∀ reply, r = .ok reply → reply ≠ mustLogin req.header.command) := by
  rw [carryOut]
  split
  · exact always_either hC (respond_ne_mustLogin nofun) (respond_ne_mustLogin nofun)
  · refine always_bind (always_of_forall hC fun _ => trivial) (fun fileSize _ => ?_) nofun
    split
    · rintro _ ⟨⟩
      exact respond_ne_mustLogin nofun
    refine always_bind (always_of_forall hC fun _ => trivial) (fun sent _ => ?_) nofun
    split
    · rintro _ ⟨⟩
      nofun
    refine always_bind (always_of_forall hC fun _ => trivial) (fun streamed _ => ?_) nofun
    split
    · rintro _ ⟨⟩
      nofun
    · rintro _ ⟨⟩
      nofun
  · refine always_bind (always_of_forall hC fun _ => trivial) (fun listing _ => ?_) nofun
    rintro _ ⟨⟩
    exact respond_ne_mustLogin nofun
  · exact always_either hC (respond_ne_mustLogin nofun) (respond_ne_mustLogin nofun)
  · exact always_either hC (respond_ne_mustLogin nofun) (respond_ne_mustLogin nofun)
  · rintro _ ⟨⟩
    nofun

def Reads (o : Call) : Prop := o.writesDisk = false ∧ o.writesIndex = false

lemma recvLoop_reads (fuel n : ℕ) (got : Bytes) :
    Always Reads (recvLoop fuel n got) (fun _ => True) := by
  fun_induction recvLoop fuel n got with
  | case1 => trivial
  | case2 => trivial
  | case3 fuel n got hn ih =>
    refine always_call ⟨rfl, rfl⟩ fun r => ?_
    rcases r with _ | bs
    · trivial
    cases bs with
    | nil => trivial
    | cons b bs => exact ih _

lemma discardLoop_reads (fuel n : ℕ) : Always Reads (discardLoop fuel n) (fun _ => True) := by
  fun_induction discardLoop fuel n with
  | case1 => trivial
  | case2 fuel n hn chunk ih =>
    refine always_bind (recvLoop_reads _ _ _) (fun buf _ => ?_) fun _ _ => trivial
    cases buf with
    | none => trivial
    | some buf => exact ih
  | case3 => trivial

lemma discardData_reads (size : UInt64) : Always Reads (discardData size) (fun _ => True) := by
  refine always_bind (always_call ⟨rfl, rfl⟩ fun r => always_ofExcept trivial) (fun _ _ => ?_)
    fun _ _ => trivial
  exact always_bind (discardLoop_reads _ _) (fun _ _ => trivial) fun _ _ => trivial

/-- What is true of the reply to a request of `user`, and of the user afterwards. -/
structure Outcome (user : Bytes) (req : Request) (reply : Reply) (user' : Bytes) : Prop where
  next : user' = nextUser user req
  login : req.header.command = CommandType.login.code →
    ∃ header body, reply = .message header body ∧ header.status = StatusCode.ok.code
  refused : NeedsLogin req.header.command → user = [] → reply = mustLogin req.header.command
  served : NeedsLogin req.header.command → user ≠ [] → reply ≠ mustLogin req.header.command

/-- Requests that are refused only read. -/
def Modest (user : Bytes) (req : Request) (o : Call) : Prop :=
  NeedsLogin req.header.command → user = [] → Reads o

lemma needsLogin_ne_login {cmd : UInt32} (h : NeedsLogin cmd) : cmd ≠ CommandType.login.code := by
  intro hl
  rw [NeedsLogin, (CommandType.ofCode_eq_some _ _).mpr hl] at h
  simp at h

lemma outcome_of_needsLogin {reply : Reply} (h : NeedsLogin req.header.command)
    (hr : user = [] → reply = mustLogin req.header.command)
    (hs : user ≠ [] → reply ≠ mustLogin req.header.command) : Outcome user req reply user :=
  ⟨by rw [nextUser, if_neg (needsLogin_ne_login h)], fun hl => absurd hl (needsLogin_ne_login h),
    fun _ => hr, fun _ => hs⟩

lemma dispatch_refused (hcmd : NeedsLogin req.header.command) :
    Always Reads (dispatch host [] req payload)
      (fun r => ∀ reply user', r = .ok (reply, user') →
        reply = mustLogin req.header.command ∧ user' = []) := by
  have hend : ∀ r : Except Exn (Reply × Bytes), r = .ok (mustLogin req.header.command, []) →
      ∀ reply user', r = .ok (reply, user') →
        reply = mustLogin req.header.command ∧ user' = [] := by
    rintro _ rfl _ _ ⟨⟩
    exact ⟨rfl, rfl⟩
  simp only [NeedsLogin, List.mem_cons, List.not_mem_nil, or_false] at hcmd
  rcases hcmd with h | h | h | h | h <;>
    simp only [dispatch, h, upload, download, list, delete, rename, if_true]
  · refine always_bind (R := fun r => ∀ reply, r = .ok reply → reply = mustLogin req.header.command)
      (always_bind (discardData_reads _) (fun _ _ => ?_) (by rintro _ _ _ ⟨⟩)) (fun reply h => ?_)
        (by rintro _ _ _ _ ⟨⟩)
    · rintro _ ⟨⟩
      rfl
    · exact hend _ (by rw [h reply rfl])
  all_goals exact hend _ rfl

lemma dispatch_outcome : Always (Modest user req) (dispatch host user req payload)
    (fun r => ∀ reply user', r = .ok (reply, user') → Outcome user req reply user') := by
  by_cases hcmd : NeedsLogin req.header.command
  · by_cases huser : user = []
    · subst huser
      refine safe_mono (safe_allow (dispatch_refused hcmd) fun o _ ho _ _ => ho) ?_
      intro r _ h reply user' hr
      obtain ⟨rfl, rfl⟩ := h reply user' hr
      exact outcome_of_needsLogin hcmd (fun _ => rfl) (fun h => (h rfl).elim)
    · rw [dispatch_eq_carryOut hcmd huser]
      refine always_bind (carryOut_replies fun o _ h => absurd h huser) (fun reply h => ?_)
        (by rintro _ _ _ _ ⟨⟩)
      rintro _ _ ⟨⟩
      exact outcome_of_needsLogin hcmd (fun h => absurd h huser) (fun _ => h reply rfl)
  · have hC : ∀ o, Modest user req o := fun o h => absurd h hcmd
    have hother : req.header.command ≠ CommandType.login.code →
        ∀ reply, Outcome user req reply user :=
      fun hl reply => ⟨by rw [nextUser, if_neg hl], fun h => absurd h hl, fun h => absurd h hcmd,
        fun h => absurd h hcmd⟩
    have hlogin : ∀ cmd', CommandType.ofCode req.header.command = cmd' → cmd' ≠ some .login →
        req.header.command ≠ CommandType.login.code := by
      rintro _ rfl hne hl
      exact hne ((CommandType.ofCode_eq_some _ _).mpr hl)
    rw [dispatch]
    cases hc : CommandType.ofCode req.header.command with
    | none =>
      rintro _ _ ⟨⟩
      exact hother (hlogin _ hc (by rintro ⟨⟩)) _
    | some cmd =>
      cases cmd with
      | login =>
        have hl := (CommandType.ofCode_eq_some _ _).mp hc
        refine always_bind (always_of_forall hC fun _ => trivial) (fun _ _ => ?_)
          (by rintro _ _ _ _ ⟨⟩)
        rintro _ _ ⟨⟩
        exact ⟨by rw [nextUser, if_pos hl], fun _ => ⟨_, _, rfl, rfl⟩, fun h => absurd h hcmd,
          fun h => absurd h hcmd⟩
      | quit =>
        refine always_bind (always_of_forall hC fun _ => trivial) (fun reply _ => ?_)
          (by rintro _ _ _ _ ⟨⟩)
        rintro _ _ ⟨⟩
        exact hother (hlogin _ hc (by rintro ⟨⟩)) _
      | upload => exact absurd (by simp [NeedsLogin, hc]) hcmd
      | download => exact absurd (by simp [NeedsLogin, hc]) hcmd
      | list => exact absurd (by simp [NeedsLogin, hc]) hcmd
      | deleteF => exact absurd (by simp [NeedsLogin, hc]) hcmd
      | rename => exact absurd (by simp [NeedsLogin, hc]) hcmd

end Dispatch

/-- The session's user after the exchanges `past`. -/
def sessionUser (past : List Exchange) : Bytes := past.foldl (fun u x => nextUser u x.request) []

lemma sessionUser_append (past : List Exchange) (x : Exchange) :
    sessionUser (past ++ [x]) = nextUser (sessionUser past) x.request := by
  simp [sessionUser]

def SameFiles (y : Store × Store) : Prop := y.2.disk = y.1.disk ∧ y.2.index = y.1.index

/-- An exchange made as `user`. -/
structure Valid (host : Endian) (user : Bytes) (x : Exchange) : Prop where
  code : x.code = dispatch host user x.request x.payload
  outcome : Outcome user x.request x.reply (nextUser user x.request)
  unchanged : NeedsLogin x.request.header.command → user = [] → ∀ y ∈ x.own, SameFiles y

/-- What holds of a session where it stands, after the exchanges `past`. -/
def Standing (host : Endian) (past : List Exchange) : Phase → Prop
  | .starting => past = []
  | .receiving user _ => user = sessionUser past
  | .serving req payload code own p => code = dispatch host (sessionUser past) req payload ∧
      Always (Modest (sessionUser past) req) p (fun r => ∀ reply user', r = .ok (reply, user') →
        Outcome (sessionUser past) req reply user') ∧
      (NeedsLogin req.header.command → sessionUser past = [] → ∀ y ∈ own, SameFiles y)
  | .delivering p => Always (fun _ => True) p
      (fun r => ∀ user, r = .ok (.inr user) → user = sessionUser past)

structure Inv (host : Endian) (t : Talk) : Prop where
  valid : ∀ k x, t.past[k]? = some x → Valid host (sessionUser (t.past.take k)) x
  standing : Standing host t.past t.phase

lemma leave_always (exit : Exit) {Q : Except Exn (Exit ⊕ Bytes) → Prop} (herr : ∀ e, Q (.error e))
    (h : Q (.ok (.inl exit))) : Always (fun _ => True) (leave exit) Q :=
  always_bind (always_of_forall (fun _ => trivial) fun _ => trivial) (fun _ _ => h)
    fun e _ => herr e

lemma deliver_always (reply : Reply) (user : Bytes) :
    Always (fun _ => True) (deliver host (reply, user))
      (fun r => ∀ user', r = .ok (.inr user') → user' = user) := by
  refine always_bind (R := fun r => ∀ user', r = .ok (.inr user') → user' = user) ?_ ?_ nofun
  · cases reply with
    | message header payload =>
      refine always_bind (always_of_forall (fun _ => trivial) fun _ => trivial)
        (fun sent _ => ?_) nofun
      cases sent with
      | true =>
        rintro _ ⟨⟩
        rfl
      | false => nofun
    | streamed =>
      rintro _ ⟨⟩
      rfl
    | ended exit => nofun
  · rintro (exit | user') h
    · exact leave_always exit nofun nofun
    · exact h

lemma always_step {C : Call → Prop} {Q : Except Exn α → Prop} {p q : Code α} {l l' : Local}
    {s s' : Store} (h : Always C p Q) (hs : Effects.Step (next env) (p, (l, s)) (q, (l', s'))) :
    Always C q Q ∧ ∃ o, C o ∧ ∃ r, next env o (l, s) r = some (l', s') := by
  cases hs with
  | @call o k _ _ r hr =>
    obtain ⟨ho, hk⟩ := Monitor.safe_op.mp h
    exact ⟨hk r, o, ho, r, hr⟩

lemma Inv.step {t t' : Talk} (h : Inv host t) (hs : Talk.Step (next env) host t t') :
    Inv host t' := by
  obtain ⟨hvalid, hstanding⟩ := h
  cases hs with
  | @accept past l s l' s' hr =>
    have hpast : past = [] := hstanding
    subst hpast
    exact ⟨hvalid, rfl⟩
  | receive hr => exact ⟨hvalid, hstanding⟩
  | leave => exact ⟨hvalid, leave_always _ nofun nofun⟩
  | @begin user req payload past l s =>
    have huser : user = sessionUser past := hstanding
    subst huser
    exact ⟨hvalid, rfl, dispatch_outcome, by simp⟩
  | serve hr =>
    obtain ⟨hcode, halways, hown⟩ := hstanding
    obtain ⟨halways', o, ho, r, hnext⟩ := always_step halways hr
    refine ⟨hvalid, hcode, halways', fun hcmd huser y hy => ?_⟩
    rcases List.mem_append.mp hy with hy | hy
    · exact hown hcmd huser y hy
    · rw [List.mem_singleton.mp hy]
      obtain ⟨hd, hi⟩ := ho hcmd huser
      exact ⟨next_disk hnext hd, next_index hnext hi⟩
  | @reply req payload code own reply user past l s =>
    obtain ⟨hcode, halways, hown⟩ := hstanding
    have houtcome : Outcome (sessionUser past) req reply user := halways reply user rfl
    obtain rfl : user = nextUser (sessionUser past) req := houtcome.next
    refine ⟨fun k x hx => ?_, ?_⟩
    · rcases lt_or_ge k past.length with hk | hk
      · rw [List.take_append_of_le_length hk.le]
        exact hvalid k x ((List.getElem?_append_left hk).symm.trans hx)
      · rw [List.getElem?_append_right hk, List.getElem?_singleton] at hx
        obtain ⟨hk', hx⟩ := Option.ite_none_right_eq_some.mp hx
        obtain rfl := Option.some.inj hx
        obtain rfl : k = past.length := by omega
        rw [List.take_left]
        exact ⟨hcode, houtcome, hown⟩
    · refine safe_mono (@deliver_always host reply _) fun r _ h user' hr => ?_
      rw [sessionUser_append]
      exact h user' hr
  | deliver hr => exact ⟨hvalid, (always_step hstanding hr).1⟩
  | again => exact ⟨hvalid, hstanding _ rfl⟩
  | others => exact ⟨hvalid, hstanding⟩

lemma Inv.run {l : Local} {s : Store} {t : Talk} (h : Talk.Run (next env) host (Talk.start l s) t) :
    Inv host t := by
  induction h with
  | refl => exact ⟨by simp [Talk.start], rfl⟩
  | tail _ hs ih => exact ih.step hs

lemma accepted_iff {host : Endian} {user : Bytes} {x : Exchange} (h : Valid host user x) :
    accepted x = true ↔ x.request.header.command = CommandType.login.code := by
  rw [accepted, Bool.and_eq_true, beq_iff_eq]
  constructor
  · exact fun h => h.1
  · intro hlogin
    obtain ⟨header, body, hreply, hstatus⟩ := h.outcome.login hlogin
    simp [hlogin, hreply, hstatus]

lemma sessionUser_eq {past : List Exchange}
    (h : ∀ k x, past[k]? = some x → Valid host (sessionUser (past.take k)) x) :
    sessionUser past = (latestLogin past).getD [] := by
  induction past using List.reverseRecOn with
  | nil => rfl
  | append_singleton past x ih =>
    have hx := h past.length x (by simp)
    have hpast : sessionUser past = (latestLogin past).getD [] := by
      apply ih
      intro k y hy
      have hk : k < past.length := (List.getElem?_eq_some_iff.mp hy).1
      have := h k y ((List.getElem?_append_left hk).trans hy)
      rwa [List.take_append_of_le_length hk.le] at this
    rw [sessionUser_append, latestLogin_append, nextUser]
    by_cases hlogin : x.request.header.command = CommandType.login.code
    · rw [if_pos hlogin, if_pos ((accepted_iff hx).mpr hlogin)]
      rfl
    · rw [if_neg hlogin, if_neg fun ha => hlogin ((accepted_iff hx).mp ha), hpast]

lemma Inv.refused {t : Talk} (h : Inv host t) {k : ℕ} {x : Exchange} (hx : t.past[k]? = some x)
    (hcmd : NeedsLogin x.request.header.command) (hu : sessionUser (t.past.take k) = []) :
    Refused x :=
  ⟨(h.valid k x hx).outcome.refused hcmd hu, (h.valid k x hx).unchanged hcmd hu⟩

lemma latestLogin_eq {past : List Exchange}
    (h : ∀ k x, past[k]? = some x → Valid host (sessionUser (past.take k)) x) :
    latestLogin past = latestAsked past := by
  rw [latestLogin, latestAsked]
  congr 2
  apply List.filter_congr
  intro x hx
  obtain ⟨k, hk⟩ := List.getElem?_of_mem hx
  rw [Bool.eq_iff_iff, accepted_iff (h k x hk), beq_iff_eq]

lemma Inv.before {t : Talk} (h : Inv host t) {k j : ℕ} {y : Exchange}
    (hy : (t.past.take k)[j]? = some y) : Valid host (sessionUser ((t.past.take k).take j)) y := by
  have hj : j < k := by
    have := (List.getElem?_eq_some_iff.mp hy).1
    rw [List.length_take] at this
    omega
  rw [List.take_take, min_eq_left hj.le]
  exact h.valid j y (by rwa [List.getElem?_take_of_lt hj] at hy)

/-- The gate works as described until there is a LOGIN with an empty username. -/
theorem gated_iff (env : Env) (host : Endian) (l : Local) (s : Store) (t : Talk)
    (h : Talk.Run (next env) host (Talk.start l s) t) (k : ℕ) (x : Exchange)
    (hx : t.past[k]? = some x) (hcmd : NeedsLogin x.request.header.command) :
    Gated host (t.past.take k) x ↔ latestAsked (t.past.take k) ≠ some [] := by
  have hinv := Inv.run h
  have hxv := hinv.valid k x hx
  have huser := sessionUser_eq fun _ _ => hinv.before (k := k)
  rw [← latestLogin_eq fun _ _ => hinv.before (k := k)]
  have hrefused := hinv.refused hx hcmd
  cases hl : latestLogin (t.past.take k) with
  | none =>
    rw [hl] at huser
    simp only [Gated, hl]
    exact iff_of_true (hrefused huser) nofun
  | some u =>
    rw [hl, Option.getD_some] at huser
    simp only [Gated, hl]
    by_cases hu : u = []
    · exact iff_of_false (fun hg => hg.1 (hrefused (huser.trans hu))) fun hne => hne (by rw [hu])
    · have hcode := @dispatch_eq_carryOut host _ _ hcmd hu x.payload
      refine iff_of_true ⟨fun hr => ?_, ?_⟩ fun he => hu (Option.some.inj he)
      · exact hxv.outcome.served hcmd (huser ▸ hu) hr.reply
      · rw [hxv.code, huser, hcode]

/-- A LOGIN as `user` and then a LIST. -/
def listed (user : Bytes) : Talk :=
  Talk.play (next .atRoot) .little (oblige .atRoot) 100 (Talk.start
    (.fresh 0 (Request.wire ⟨⟨CommandType.login.code, 0, 0, 0, .ofNat user.length⟩, user, []⟩ ++
      wireHeader ⟨CommandType.list.code, 0, 0, 0, 0⟩) false)
    (.fresh (.ofDir [driveRoot 0x43])))

lemma run_listed (user : Bytes) :
    ∃ l s, Talk.Run (next .atRoot) .little (Talk.start l s) (listed user) :=
  ⟨_, _, Talk.run_play _ _ _⟩

lemma exists_listed {user : Bytes} (h : (listed user).past[1]?.any
    (fun x => x.request.header.command == CommandType.list.code) = true) :
    ∃ x, (listed user).past[1]? = some x ∧ NeedsLogin x.request.header.command := by
  obtain ⟨x, hx, hlist⟩ := (Option.any_eq_true _ _).mp h
  refine ⟨x, hx, ?_⟩
  rw [eq_of_beq hlist]
  simp [NeedsLogin, CommandType.ofCode_eq_some]

theorem gated_list : ∃ x, (listed (bytes "bob")).past[1]? = some x ∧
    Gated .little ((listed (bytes "bob")).past.take 1) x := by
  obtain ⟨x, hx, hcmd⟩ := @exists_listed (bytes "bob") (by decide +kernel)
  have hlatest : latestAsked ((listed (bytes "bob")).past.take 1) = some (bytes "bob") := by
    decide +kernel
  obtain ⟨l, s, hrun⟩ := run_listed (bytes "bob")
  refine ⟨x, hx, (gated_iff .atRoot .little l s _ hrun 1 x hx hcmd).mpr ?_⟩
  rw [hlatest]
  decide

/-- A LOGIN with an empty username is answered 200 and lets nothing through. -/
theorem not_gated : ¬ ∀ (env : Env) (host : Endian) (l : Local) (s : Store) (t : Talk),
    Talk.Run (next env) host (Talk.start l s) t → ∀ (k : ℕ) (x : Exchange), t.past[k]? = some x →
      NeedsLogin x.request.header.command → Gated host (t.past.take k) x := by
  intro hall
  obtain ⟨x, hx, hcmd⟩ := @exists_listed [] (by decide +kernel)
  have hlatest : latestLogin ((listed []).past.take 1) = some [] := by decide +kernel
  have huser : sessionUser ((listed []).past.take 1) = [] := by decide +kernel
  obtain ⟨l, s, hrun⟩ := run_listed []
  have hgated := hall .atRoot .little l s _ hrun 1 x hx hcmd
  rw [Gated, hlatest] at hgated
  exact hgated.1 ((Inv.run hrun).refused hx hcmd huser)

end Mtfss.LoginGate
