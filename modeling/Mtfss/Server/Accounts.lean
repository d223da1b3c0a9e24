import Mtfss.Server.Footprint
import Mtfss.Effects.Safety

/-! What a call of `handle_client` does to `active_connections_` and to its socket. -/

namespace Mtfss

open Effects

namespace Call

def isAccount : Call → Bool
  | .closesocket | .activeConnections _ => true
  | _ => false

end Call

/-- No call of the program counts or closes a connection. -/
abbrev Quiet {α : Type} (p : Code α) : Prop :=
  p.Calls (fun _ _ => True) (fun o => o.isAccount = false)

section Quiet

variable {α : Type}

lemma quiet_op {o : Call} {k : Answer o → Code α} (ho : o.isAccount = false)
    (h : ∀ r, Quiet (k r)) : Quiet (.op o k) := ⟨ho, fun r _ => h r⟩

lemma quiet_call {o : Call} (ho : o.isAccount = false) : Quiet (.op o .pure) :=
  quiet_op ho fun _ => trivial

lemma quiet_throwing {o : Call} {k : Answer o → Except Exn α} (ho : o.isAccount = false) :
    Quiet (.op o fun r => .ofExcept (k r)) := quiet_op ho fun _ => Prog.calls_ofExcept _

lemma quiet_sendAll (bs : Bytes) : Quiet (sendAll bs) := calls_sendAll (fun _ _ => rfl) bs

lemma quiet_recvAll (n : ℕ) : Quiet (recvAll n) := calls_recvAll (fun _ => rfl) n

lemma quiet_recvMessageMeta (host : Endian) : Quiet (recvMessageMeta host) :=
  calls_recvMessageMeta (fun _ => rfl) (fun _ => rfl) host

lemma quiet_sendMessageMeta (host : Endian) (h : MessageHeader) (username filename : Bytes) :
    Quiet (sendMessageMeta host h username filename) :=
  calls_sendMessageMeta (fun _ _ => rfl) host h username filename

lemma quiet_sendMessage (host : Endian) (h : MessageHeader) (username filename : Bytes)
    (payload : Option Bytes) : Quiet (sendMessage host h username filename payload) :=
  calls_sendMessage (fun _ _ => rfl) host h username filename payload

end Quiet

namespace FileManager

lemma quiet_discardLoop (fuel n : ℕ) : Quiet (discardLoop fuel n) := by
  fun_induction discardLoop fuel n with
  | case1 => trivial
  | case2 fuel n hn chunk ih =>
    refine .bind (quiet_recvAll _) ?_
    rintro (_ | _)
    · trivial
    · exact ih
  | case3 => trivial

lemma quiet_discardData (size : UInt64) : Quiet (discardData size) :=
  .bind (quiet_throwing rfl) fun _ => .bind (quiet_discardLoop _ _) fun _ => trivial

lemma quiet_receiveLoop (p : Bytes) (fuel n : ℕ) (good : Bool) :
    Quiet (receiveLoop p fuel n good) := by
  induction fuel generalizing n good with
  | zero => trivial
  | succ fuel ih =>
    rw [receiveLoop]
    split
    · refine .bind (quiet_recvAll _) ?_
      rintro (_ | buffer)
      · trivial
      cases good with
      | true => exact .bind (quiet_call rfl) fun _ => ih _ _
      | false => exact ih _ _
    · trivial

lemma quiet_streamLoop (p : Bytes) (fuel offset : ℕ) : Quiet (streamLoop p fuel offset) := by
  induction fuel generalizing offset with
  | zero => trivial
  | succ fuel ih =>
    refine .bind (quiet_call rfl) ?_
    rintro ⟨buffer, good⟩
    dsimp only
    split
    · refine .bind (quiet_sendAll _) ?_
      rintro (_ | _)
      · trivial
      cases good with
      | true => exact ih _
      | false => trivial
    · cases good with
      | true => exact ih _
      | false => trivial

lemma quiet_leave (key : Bytes) (b : Bool) :
    Quiet (do Sys.unlock key; Sys.releaseLockRef key; pure b : Code Bool) :=
  .bind (quiet_call rfl) fun _ => .bind (quiet_call rfl) fun _ => trivial

lemma quiet_addFile (dir f : Bytes) (size : UInt64) : Quiet (Sys.addFile dir f size) :=
  quiet_op rfl fun _ => quiet_throwing rfl

lemma quiet_saveLocked (u f p : Bytes) (size : UInt64) : Quiet (saveLocked u f p size) := by
  refine .bind (quiet_call rfl) ?_
  rintro (_ | _)
  · exact .bind (quiet_throwing rfl) fun _ => .bind (quiet_discardData _) fun _ => quiet_leave _ _
  refine .bind (quiet_throwing rfl) fun _ => .bind (quiet_receiveLoop _ _ _ _) ?_
  rintro (_ | _)
  · exact .bind (quiet_throwing rfl) fun _ => .bind (quiet_call rfl) fun _ =>
      .bind (quiet_throwing rfl) fun _ => .bind (quiet_call rfl) fun _ => trivial
  · exact .bind (quiet_call rfl) fun _ => .bind (quiet_addFile _ _ _) fun _ =>
      .bind (quiet_throwing rfl) fun _ => quiet_leave _ _

lemma quiet_ensureDir (p : Bytes) : Quiet (ensureDir p) := by
  refine .bind (quiet_throwing rfl) ?_
  rintro (_ | _)
  · exact quiet_throwing rfl
  · trivial

lemma quiet_saveFile (u f : Bytes) (size : UInt64) : Quiet (saveFile u f size) := by
  refine .tryCatch ?_ fun _ => .bind (quiet_throwing rfl) fun _ =>
    .bind (quiet_discardData _) fun _ => trivial
  refine .bind (quiet_throwing rfl) fun dir => .bind (quiet_ensureDir _) fun _ => ?_
  rw [saveInto]
  split
  · exact .bind (quiet_throwing rfl) fun _ => .bind (quiet_discardData _) fun _ => trivial
  · exact .bind (quiet_throwing rfl) fun _ => .bind (quiet_throwing rfl) fun _ =>
      .bind (quiet_call rfl) fun _ => (quiet_saveLocked _ _ _ _).onThrow (quiet_call rfl)

lemma quiet_getFileSize (u f : Bytes) : Quiet (getFileSize u f) := by
  refine .bind (quiet_call rfl) ?_
  rintro (_ | _)
  · trivial
  · exact quiet_call rfl

lemma quiet_streamLocked (p : Bytes) : Quiet (streamLocked p) := by
  refine .bind (quiet_call rfl) ?_
  rintro (_ | _)
  · exact .bind (quiet_throwing rfl) fun _ => .bind (quiet_call rfl) fun _ =>
      .bind (quiet_call rfl) fun _ => trivial
  refine .bind (quiet_throwing rfl) fun _ => .bind (quiet_streamLoop _ _ _) ?_
  rintro (_ | _)
  · exact .bind (quiet_throwing rfl) fun _ => .bind (quiet_call rfl) fun _ =>
      .bind (quiet_call rfl) fun _ => trivial
  · exact .bind (quiet_throwing rfl) fun _ => .bind (quiet_call rfl) fun _ => trivial

lemma quiet_streamFileToSocket (u f : Bytes) : Quiet (streamFileToSocket u f) := by
  refine .tryCatch ?_ fun _ => .bind (quiet_throwing rfl) fun _ => trivial
  rw [tryStreamFile]
  split
  · trivial
  · exact .bind (quiet_throwing rfl) fun _ => .bind (quiet_throwing rfl) fun _ =>
      .bind (quiet_throwing rfl) fun _ => .bind (quiet_call rfl) fun _ =>
        (quiet_streamLocked _).onThrow (quiet_call rfl)

lemma quiet_deleteFile (u f : Bytes) : Quiet (deleteFile u f) := by
  refine .tryCatch ?_ fun _ => trivial
  rw [tryDeleteFile]
  split
  · trivial
  refine .bind (quiet_throwing rfl) fun _ => .bind (quiet_throwing rfl) fun _ =>
    .bind (quiet_throwing rfl) fun _ => .bind (quiet_call rfl) fun _ => .onThrow ?_ (quiet_call rfl)
  refine .bind (quiet_throwing rfl) ?_
  rintro (_ | _)
  · exact quiet_leave _ _
  · exact .bind (quiet_throwing rfl) fun _ => quiet_leave _ _

lemma quiet_unlockBoth (p q : Bytes) : Quiet (unlockBoth p q) :=
  .bind (quiet_call rfl) fun _ => quiet_call rfl

lemma quiet_leaveBoth (p q : Bytes) (b : Bool) :
    Quiet (do unlockBoth p q; releaseBoth p q; pure b : Code Bool) :=
  .bind (quiet_unlockBoth _ _) fun _ => .bind (.bind (quiet_call rfl) fun _ => quiet_call rfl)
    fun _ => trivial

lemma quiet_renameLocked (u f g p q : Bytes) : Quiet (renameLocked u f g p q) := by
  refine .bind (.bind (quiet_throwing rfl) ?_) ?_
  · rintro (_ | _)
    · trivial
    · exact quiet_throwing rfl
  rintro (_ | _)
  · exact .bind (quiet_throwing rfl) fun _ => .bind (quiet_call rfl) fun _ =>
      .bind (quiet_throwing rfl) fun _ => .bind (quiet_addFile _ _ _) fun _ => quiet_leaveBoth _ _ _
  · exact quiet_leaveBoth _ _ _

lemma quiet_renameFile (u f g : Bytes) : Quiet (renameFile u f g) := by
  refine .tryCatch ?_ fun _ => trivial
  rw [tryRenameFile]
  split
  · trivial
  refine .bind (quiet_throwing rfl) fun _ => .bind (quiet_throwing rfl) fun _ =>
    .bind (quiet_throwing rfl) fun _ => .bind (quiet_throwing rfl) fun _ => ?_
  split
  · trivial
  · exact .bind (quiet_throwing rfl) fun _ => .bind (quiet_throwing rfl) fun _ =>
      .bind (quiet_call rfl) fun _ => (quiet_renameLocked _ _ _ _ _).onThrow (quiet_unlockBoth _ _)

end FileManager

namespace Server

open FileManager

variable {host : Endian}

lemma quiet_dispatch (user : Bytes) (req : Request) (payload : Bytes) :
    Quiet (dispatch host user req payload) := by
  rw [dispatch]
  split
  · exact .bind (quiet_throwing rfl) fun _ => trivial
  · refine .bind ?_ fun _ => trivial
    rw [upload]
    split
    · exact .bind (quiet_discardData _) fun _ => trivial
    · refine .bind (quiet_saveFile _ _ _) ?_
      rintro (_ | _) <;> trivial
  · refine .bind ?_ fun _ => trivial
    rw [download]
    split
    · trivial
    refine .bind (quiet_getFileSize _ _) fun fileSize => ?_
    split
    · trivial
    refine .bind (quiet_sendMessageMeta _ _ _ _) ?_
    rintro (_ | _)
    · trivial
    refine .bind (quiet_streamFileToSocket _ _) ?_
    rintro (_ | _) <;> trivial
  · refine .bind ?_ fun _ => trivial
    rw [list]
    split
    · trivial
    · exact .bind (.bind (quiet_call rfl) fun _ => trivial) fun _ => trivial
  · refine .bind ?_ fun _ => trivial
    rw [delete]
    split
    · trivial
    · refine .bind (quiet_deleteFile _ _) ?_
      rintro (_ | _) <;> trivial
  · refine .bind ?_ fun _ => trivial
    rw [rename]
    split
    · trivial
    · refine .bind (quiet_renameFile _ _ _) ?_
      rintro (_ | _) <;> trivial
  · exact .bind (.bind (quiet_sendMessage _ _ _ _ _) fun _ => trivial) fun _ => trivial
  · trivial

lemma quiet_sendReply (reply : Reply) (user : Bytes) : Quiet (sendReply host reply user) := by
  cases reply with
  | message header payload =>
    refine .bind (quiet_sendMessage _ _ _ _ _) ?_
    rintro (_ | _) <;> trivial
  | streamed => trivial
  | ended exit => trivial

lemma quiet_recvPayload (h : MessageHeader) : Quiet (recvPayload h) := by
  rw [recvPayload]
  split
  · exact .bind (quiet_throwing rfl) fun _ => quiet_recvAll _
  · trivial

lemma quiet_handleRequest (user : Bytes) : Quiet (handleRequest host user) := by
  refine .bind (quiet_recvMessageMeta host) ?_
  rintro (_ | req)
  · trivial
  refine .bind (quiet_throwing rfl) fun _ => .bind (quiet_recvPayload _) ?_
  rintro (_ | payload)
  · trivial
  exact .bind (quiet_dispatch _ _ _) fun _ => quiet_sendReply _ _

/-- What a call of `handle_client` has added to `active_connections_`, and how often it has closed
its socket. -/
structure Tally where
  active : ℤ
  closed : ℕ
  deriving DecidableEq

namespace Tally

def after : Monitor Call Answer Tally
  | .activeConnections delta, t, _ => { t with active := t.active + delta }
  | .closesocket, t, _ => { t with closed := t.closed + 1 }
  | _, t, _ => t

/-- Counted before it is closed, closed before it is counted off. -/
inductive Fair : Tally → Prop
  | new : Fair ⟨0, 0⟩
  | counted : Fair ⟨1, 0⟩
  | shut : Fair ⟨1, 1⟩
  | released : Fair ⟨0, 1⟩

lemma Fair.active {t : Tally} (h : t.Fair) : t.active = 0 ∨ t.active = 1 := by
  cases h <;> simp

lemma Fair.closed {t : Tally} (h : t.Fair) : t.closed ≤ 1 := by
  cases h <;> simp

/-- How a round can leave things: released when it ends the session, still counted when it does not,
and an exception can come before or after the release. -/
def Ends : Except Exn (Exit ⊕ Bytes) → Tally → Prop
  | .ok (.inl _), t => t = ⟨0, 1⟩
  | .ok (.inr _), t => t = ⟨1, 0⟩
  | .error _, t => t = ⟨1, 0⟩ ∨ t = ⟨0, 1⟩

/-- The rest of a call of `handle_client` keeps its tally fair. -/
abbrev Accounted (p : Code (Exit ⊕ Bytes)) (t : Tally) : Prop :=
  Safe after.next (fun _ t => t.Fair) p Ends t

lemma after_quiet {o : Call} (ho : o.isAccount = false) (t : Tally) (r : Answer o) :
    after o t r = t := by
  cases o <;> first | rfl | cases ho

lemma safe_quiet {α : Type} {p : Code α} {Q : Except Exn α → Tally → Prop} {t : Tally}
    (hp : Quiet p) (ht : t.Fair) (h : ∀ r, Q r t) : Safe after.next (fun _ t => t.Fair) p Q t := by
  induction p with
  | pure a => exact h _
  | throw e => exact h _
  | op o k ih =>
    refine Monitor.safe_op.mpr ⟨ht, fun r => ?_⟩
    rw [after_quiet hp.1]
    exact ih r (hp.2 r trivial)

lemma safe_endSession :
    Safe after.next (fun _ t => t.Fair) endSession (fun _ t => t = ⟨0, 1⟩) ⟨1, 0⟩ := by
  refine Monitor.safe_op.mpr ⟨.counted, fun _ => Monitor.safe_op.mpr ⟨.shut, fun _ => ?_⟩⟩
  exact safe_quiet (quiet_throwing rfl) .released fun _ => rfl

lemma accounted_leave (exit : Exit) :
    Accounted (endSession.bind fun _ => .pure (.inl exit)) ⟨1, 0⟩ := by
  refine safe_bind_of safe_endSession ?_
  rintro (e | _) _ rfl
  · exact Or.inr rfl
  · rfl

lemma accounted_round (user : Bytes) : Accounted (round host user) ⟨1, 0⟩ := by
  refine Monitor.safe_op.mpr ⟨.counted, ?_⟩
  rintro (_ | _)
  · exact accounted_leave _
  show Accounted ((handleRequest host user).bind _) _
  refine safe_bind_of (safe_quiet (Q := fun _ t => t = ⟨1, 0⟩) (quiet_handleRequest user) .counted
    fun _ => rfl) ?_
  rintro (e | exit | user') _ rfl
  · exact Or.inl rfl
  · exact accounted_leave _
  · rfl

lemma accounted_handleClient : Accounted (handleClient host) ⟨0, 0⟩ :=
  Monitor.safe_op.mpr ⟨.new, fun _ => accounted_round _⟩

lemma Accounted.fair {p : Code (Exit ⊕ Bytes)} {t : Tally} (h : Accounted p t) : t.Fair := by
  cases p with
  | op o k => exact h.1
  | throw e =>
    rcases h with h | h
    · exact h ▸ .counted
    · exact h ▸ .released
  | pure x =>
    rcases x with exit | user
    · exact (show t = ⟨0, 1⟩ from h) ▸ .released
    · exact (show t = ⟨1, 0⟩ from h) ▸ .counted

lemma Accounted.step {nx : Next Call Answer Machine} {p q : Code (Exit ⊕ Bytes)} {t t' : Tally}
    {l l' : Local} {s s' : Store} (h : Accounted p t)
    (hs : LoopStep (after.watch nx) (round host) (p, ((l, t), s)) (q, ((l', t'), s'))) :
    Accounted q t' := by
  cases hs with
  | inside hs =>
    cases hs with
    | @call o k _ _ r hr =>
      obtain ⟨-, rfl⟩ := Monitor.watch_eq_some.mp hr
      exact (Monitor.safe_op.mp h).2 r
  | again =>
    have ht : t = ⟨1, 0⟩ := h
    subst ht
    exact accounted_round _

end Tally

end Server

end Mtfss
