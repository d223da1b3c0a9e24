import Mtfss.Common.MessageCalls
import Mtfss.Effects.Once
import Mtfss.Server.Session
import Mtfss.System.Frames

/-! A request waits for locks at most once, and has none before. -/

namespace Mtfss

open Effects

/-- No call of the program waits for a lock. -/
abbrev Waitless {α : Type} (p : Code α) : Prop := p.Never (fun o => o.isWaiting = true)

abbrev WaitsOnce {α : Type} (p : Code α) : Prop := p.Once (fun o => o.isWaiting = true)

section Waitless

variable {α : Type}

lemma waitless_op {o : Call} {k : Answer o → Code α} (ho : o.isWaiting = false)
    (h : ∀ r, Waitless (k r)) : Waitless (.op o k) := ⟨by simp [ho], fun r _ => h r⟩

lemma waitless_call {o : Call} (ho : o.isWaiting = false) : Waitless (.op o .pure) :=
  waitless_op ho fun _ => trivial

lemma waitless_throwing {o : Call} {k : Answer o → Except Exn α} (ho : o.isWaiting = false) :
    Waitless (.op o fun r => .ofExcept (k r)) := waitless_op ho fun _ => Prog.calls_ofExcept _

lemma waitless_sendAll (bs : Bytes) : Waitless (sendAll bs) := calls_sendAll (fun _ _ => nofun) bs

lemma waitless_recvAll (n : ℕ) : Waitless (recvAll n) := calls_recvAll (fun _ => nofun) n

lemma waitless_recvMessageMeta (host : Endian) : Waitless (recvMessageMeta host) :=
  calls_recvMessageMeta (fun _ => nofun) (fun _ => nofun) host

lemma waitless_sendMessageMeta (host : Endian) (h : MessageHeader) (username filename : Bytes) :
    Waitless (sendMessageMeta host h username filename) :=
  calls_sendMessageMeta (fun _ _ => nofun) host h username filename

lemma waitless_sendMessage (host : Endian) (h : MessageHeader) (username filename : Bytes)
    (payload : Option Bytes) : Waitless (sendMessage host h username filename payload) :=
  calls_sendMessage (fun _ _ => nofun) host h username filename payload

end Waitless

namespace FileManager

lemma waitless_discardLoop (fuel n : ℕ) : Waitless (discardLoop fuel n) := by
  induction fuel generalizing n with
  | zero => trivial
  | succ fuel ih =>
    rw [discardLoop]
    split
    · refine .bind (waitless_recvAll _) ?_
      rintro (_ | buffer)
      · trivial
      · exact ih _
    · trivial

lemma waitless_discardData (size : UInt64) : Waitless (discardData size) :=
  .bind (waitless_throwing rfl) fun _ => .bind (waitless_discardLoop _ _) fun _ => trivial

lemma waitless_receiveLoop (p : Bytes) (fuel n : ℕ) (good : Bool) :
    Waitless (receiveLoop p fuel n good) := by
  induction fuel generalizing n good with
  | zero => trivial
  | succ fuel ih =>
    rw [receiveLoop]
    split
    · refine .bind (waitless_recvAll _) ?_
      rintro (_ | buffer)
      · trivial
      cases good with
      | true => exact .bind (waitless_call rfl) fun _ => ih _ _
      | false => exact ih _ _
    · trivial

lemma waitless_streamLoop (p : Bytes) (fuel offset : ℕ) : Waitless (streamLoop p fuel offset) := by
  induction fuel generalizing offset with
  | zero => trivial
  | succ fuel ih =>
    refine .bind (waitless_call rfl) ?_
    rintro ⟨buffer, good⟩
    have hrest : Waitless (if good = true then streamLoop p fuel (offset + TRANSFER_BUFFER_SIZE)
        else pure true) := by
      cases good with
      | true => exact ih _
      | false => trivial
    dsimp only
    split
    · refine .bind (waitless_sendAll _) ?_
      rintro (_ | _)
      · trivial
      · exact hrest
    · exact hrest

lemma waitless_leave (key : Bytes) (b : Bool) :
    Waitless (do Sys.unlock key; Sys.releaseLockRef key; pure b : Code Bool) :=
  .bind (waitless_call rfl) fun _ => .bind (waitless_call rfl) fun _ => trivial

lemma waitless_addFile (dir f : Bytes) (size : UInt64) : Waitless (Sys.addFile dir f size) :=
  waitless_op rfl fun _ => waitless_throwing rfl

lemma waitless_saveLocked (u f p : Bytes) (size : UInt64) : Waitless (saveLocked u f p size) := by
  refine .bind (waitless_call rfl) ?_
  rintro (_ | _)
  · exact .bind (waitless_throwing rfl) fun _ => .bind (waitless_discardData _) fun _ =>
      waitless_leave _ _
  refine .bind (waitless_throwing rfl) fun _ => .bind (waitless_receiveLoop _ _ _ _) ?_
  rintro (_ | _)
  · exact .bind (waitless_throwing rfl) fun _ => .bind (waitless_call rfl) fun _ =>
      .bind (waitless_throwing rfl) fun _ => .bind (waitless_call rfl) fun _ => trivial
  · exact .bind (waitless_call rfl) fun _ => .bind (waitless_addFile _ _ _) fun _ =>
      .bind (waitless_throwing rfl) fun _ => waitless_leave _ _

lemma waitless_streamLocked (p : Bytes) : Waitless (streamLocked p) := by
  have hleave : ∀ b : Bool, Waitless
      (do Sys.unlockShared p; Sys.releaseLockRef p; pure b : Code Bool) := fun _ =>
    .bind (waitless_call rfl) fun _ => .bind (waitless_call rfl) fun _ => trivial
  refine .bind (waitless_call rfl) ?_
  rintro (_ | _)
  · exact .bind (waitless_throwing rfl) fun _ => hleave false
  refine .bind (waitless_throwing rfl) fun _ => .bind (waitless_streamLoop _ _ _) ?_
  rintro (_ | _)
  · exact .bind (waitless_throwing rfl) fun _ => hleave false
  · exact .bind (waitless_throwing rfl) fun _ => .bind (waitless_call rfl) fun _ => trivial

lemma waitless_deleteLocked (u f p : Bytes) : Waitless (deleteLocked u f p) := by
  refine .bind (waitless_throwing rfl) ?_
  rintro (_ | _)
  · exact waitless_leave _ _
  · exact .bind (waitless_throwing rfl) fun _ => waitless_leave _ _

lemma waitless_unlockBoth (p q : Bytes) : Waitless (unlockBoth p q) :=
  .bind (waitless_call rfl) fun _ => waitless_call rfl

lemma waitless_leaveBoth (p q : Bytes) (b : Bool) :
    Waitless (do unlockBoth p q; releaseBoth p q; pure b : Code Bool) :=
  .bind (waitless_unlockBoth _ _) fun _ =>
    .bind (.bind (waitless_call rfl) fun _ => waitless_call rfl) fun _ => trivial

lemma waitless_renameLocked (u f g p q : Bytes) : Waitless (renameLocked u f g p q) := by
  refine .bind (.bind (waitless_throwing rfl) ?_) ?_
  · rintro (_ | _)
    · trivial
    · exact waitless_throwing rfl
  rintro (_ | _)
  · exact .bind (waitless_throwing rfl) fun _ => .bind (waitless_call rfl) fun _ =>
      .bind (waitless_throwing rfl) fun _ => .bind (waitless_addFile _ _ _) fun _ =>
        waitless_leaveBoth _ _ _
  · exact waitless_leaveBoth _ _ _

lemma waitless_ensureDir (p : Bytes) : Waitless (ensureDir p) := by
  refine .bind (waitless_throwing rfl) ?_
  rintro (_ | _)
  · exact waitless_throwing rfl
  · trivial

lemma waitless_getFileSize (u f : Bytes) : Waitless (getFileSize u f) := by
  refine .bind (waitless_call rfl) ?_
  rintro (_ | _)
  · trivial
  · exact waitless_call rfl

/-- A locked section behind the only call that waits. -/
lemma waitsOnce_section {o : Call} {k : Answer o → Code Unit} {p : Code Bool} {cleanup : Code Unit}
    (hk : ∀ r, Waitless (k r)) (hp : Waitless p) (hc : Waitless cleanup) :
    WaitsOnce ((Prog.op o k).bind fun _ => p.onThrow cleanup) :=
  Prog.once_call fun r => (hk r).bind fun _ => hp.onThrow hc

lemma waitsOnce_saveFile (u f : Bytes) (size : UInt64) : WaitsOnce (saveFile u f size) := by
  have hdiscard : Waitless (do Sys.log; discardData size; pure false : Code Bool) :=
    .bind (waitless_throwing rfl) fun _ => .bind (waitless_discardData _) fun _ => trivial
  refine Prog.Once.tryCatch ?_ fun _ => hdiscard
  refine Prog.Never.bind_once (waitless_throwing rfl) fun dir =>
    Prog.Never.bind_once (waitless_ensureDir _) fun _ => ?_
  rw [saveInto]
  split
  · exact hdiscard.once
  · exact Prog.Never.bind_once (waitless_throwing rfl) fun _ =>
      Prog.Never.bind_once (waitless_throwing rfl) fun _ =>
        waitsOnce_section (fun _ => trivial) (waitless_saveLocked _ _ _ _) (waitless_call rfl)

lemma waitsOnce_streamFileToSocket (u f : Bytes) : WaitsOnce (streamFileToSocket u f) := by
  refine Prog.Once.tryCatch ?_ fun _ => .bind (waitless_throwing rfl) fun _ => trivial
  rw [tryStreamFile]
  split
  · trivial
  · exact Prog.Never.bind_once (waitless_throwing rfl) fun _ =>
      Prog.Never.bind_once (waitless_throwing rfl) fun _ =>
        Prog.Never.bind_once (waitless_throwing rfl) fun _ =>
          waitsOnce_section (fun _ => trivial) (waitless_streamLocked _) (waitless_call rfl)

lemma waitsOnce_deleteFile (u f : Bytes) : WaitsOnce (deleteFile u f) := by
  refine Prog.Once.tryCatch ?_ fun _ => trivial
  rw [tryDeleteFile]
  split
  · trivial
  · exact Prog.Never.bind_once (waitless_throwing rfl) fun _ =>
      Prog.Never.bind_once (waitless_throwing rfl) fun _ =>
        Prog.Never.bind_once (waitless_throwing rfl) fun _ =>
          waitsOnce_section (fun _ => trivial) (waitless_deleteLocked _ _ _) (waitless_call rfl)

lemma waitsOnce_renameFile (u f g : Bytes) : WaitsOnce (renameFile u f g) := by
  refine Prog.Once.tryCatch ?_ fun _ => trivial
  rw [tryRenameFile]
  split
  · trivial
  refine Prog.Never.bind_once (waitless_throwing rfl) fun _ =>
    Prog.Never.bind_once (waitless_throwing rfl) fun _ =>
      Prog.Never.bind_once (waitless_throwing rfl) fun _ =>
        Prog.Never.bind_once (waitless_throwing rfl) fun _ => ?_
  split
  · trivial
  · exact Prog.Never.bind_once (waitless_throwing rfl) fun _ =>
      Prog.Never.bind_once (waitless_throwing rfl) fun _ =>
        waitsOnce_section (fun _ => trivial) (waitless_renameLocked _ _ _ _ _)
          (waitless_unlockBoth _ _)

end FileManager

namespace Server

open FileManager

variable {host : Endian}

lemma waitsOnce_dispatch (user : Bytes) (req : Request) (payload : Bytes) :
    WaitsOnce (dispatch host user req payload) := by
  have hpair : ∀ {code : Code Reply}, WaitsOnce code →
      WaitsOnce (do pure (← code, user) : Code (Reply × Bytes)) := fun h => h.bind fun _ => trivial
  have hbool : ∀ {code : Code Bool} {a b : Reply}, WaitsOnce code →
      WaitsOnce (do if ← code then pure a else pure b : Code Reply) := by
    intro code a b h
    refine h.bind ?_
    rintro (_ | _) <;> trivial
  rw [dispatch]
  split
  · exact Prog.Never.once (.bind (waitless_throwing rfl) fun _ => trivial)
  · refine hpair ?_
    rw [upload]
    split
    · exact Prog.Never.once (.bind (waitless_discardData _) fun _ => trivial)
    · exact hbool (waitsOnce_saveFile _ _ _)
  · refine hpair ?_
    rw [download]
    split
    · trivial
    refine Prog.Never.bind_once (waitless_getFileSize _ _) fun fileSize => ?_
    split
    · trivial
    refine Prog.Never.bind_once (waitless_sendMessageMeta _ _ _ _) ?_
    rintro (_ | _)
    · trivial
    refine (waitsOnce_streamFileToSocket _ _).bind ?_
    rintro (_ | _) <;> trivial
  · refine hpair ?_
    rw [list]
    split
    · trivial
    · exact Prog.Never.once (.bind (.bind (waitless_call rfl) fun _ => trivial) fun _ => trivial)
  · refine hpair ?_
    rw [delete]
    split
    · trivial
    · exact hbool (waitsOnce_deleteFile _ _)
  · refine hpair ?_
    rw [rename]
    split
    · trivial
    · exact hbool (waitsOnce_renameFile _ _ _)
  · exact hpair (Prog.Never.once (.bind (waitless_sendMessage _ _ _ _ _) fun _ => trivial))
  · trivial

lemma waitless_sendReply (reply : Reply) (user : Bytes) : Waitless (sendReply host reply user) := by
  cases reply with
  | message header payload =>
    refine .bind (waitless_sendMessage _ _ _ _ _) ?_
    rintro (_ | _) <;> trivial
  | streamed => trivial
  | ended exit => trivial

lemma waitless_recvPayload (h : MessageHeader) : Waitless (recvPayload h) := by
  rw [recvPayload]
  split
  · exact .bind (waitless_throwing rfl) fun _ => waitless_recvAll _
  · trivial

lemma waitless_endSession : Waitless endSession :=
  .bind (waitless_call rfl) fun _ => .bind (waitless_call rfl) fun _ => waitless_throwing rfl

lemma waitsOnce_handleRequest (user : Bytes) : WaitsOnce (handleRequest host user) := by
  refine Prog.Never.bind_once (waitless_recvMessageMeta host) ?_
  rintro (_ | req)
  · trivial
  refine Prog.Never.bind_once (waitless_throwing rfl) fun _ =>
    Prog.Never.bind_once (waitless_recvPayload _) ?_
  rintro (_ | payload)
  · trivial
  · exact (waitsOnce_dispatch _ _ _).bind fun _ => waitless_sendReply _ _

lemma waitsOnce_round (user : Bytes) : WaitsOnce (round host user) := by
  have hend : ∀ exit : Exit, Waitless
      (do endSession; pure (.inl exit) : Code (Exit ⊕ Bytes)) := fun _ =>
    .bind waitless_endSession fun _ => trivial
  refine Prog.Never.bind_once (waitless_call rfl) ?_
  rintro (_ | _)
  · exact (hend _).once
  refine (waitsOnce_handleRequest user).bind ?_
  rintro (exit | user')
  · exact hend exit
  · trivial

lemma waitsOnce_handleClient : WaitsOnce (handleClient host) :=
  Prog.Never.bind_once (waitless_call rfl) fun _ => waitsOnce_round []

end Server

end Mtfss
