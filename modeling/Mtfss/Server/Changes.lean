import Mtfss.Effects.Threads
import Mtfss.Server.Footprint

/-! What the requests of a user change in the user's part of the index, under which locks, and in
which order. -/

namespace Mtfss

open Effects

abbrev FileSet := Bytes → Option UInt64

def Index.fileSet (ix : Index) (dir : Bytes) : FileSet :=
  fun f => (ix.entry (normalizePath dir) f).map FileMetadata.size

/-- What a request as a whole does to the files of its user. -/
inductive Change
  | put (f : Bytes) (size : UInt64)
  | drop (f : Bytes)
  | move (f g : Bytes)
  deriving DecidableEq

namespace Change

def apply : Change → FileSet → FileSet
  | put f size, files => Function.update files f (some size)
  | drop f, files => Function.update files f none
  | move f g, files => Function.update (Function.update files f none) g (some ((files f).getD 0))

def touches : Change → List Bytes
  | put f _ | drop f => [f]
  | move f g => [f, g]

lemma apply_of_notMem {ch : Change} {files : FileSet} {h : Bytes} (hh : h ∉ ch.touches) :
    ch.apply files h = files h := by
  cases ch with
  | put f size => exact Function.update_of_ne (by simpa [touches] using hh) _ _
  | drop f => exact Function.update_of_ne (by simpa [touches] using hh) _ _
  | move f g =>
    have hne : h ≠ f ∧ h ≠ g := by simpa [touches] using hh
    rw [apply, Function.update_of_ne hne.2, Function.update_of_ne hne.1]

end Change

namespace Index

variable {ix : Index} {dir f h : Bytes}

lemma fileSet_addFile (size : UInt64) (time : Bytes) :
    (ix.addFile dir f size time).fileSet dir = Function.update (ix.fileSet dir) f (some size) := by
  funext h
  rw [fileSet, addFile, entry_put, Function.update_apply]
  by_cases hf : h = f <;> simp [hf, fileSet]

lemma fileSet_removeFile :
    (ix.removeFile dir f).fileSet dir = Function.update (ix.fileSet dir) f none := by
  funext h
  rw [fileSet, removeFile, entry_drop, Function.update_apply]
  by_cases hf : h = f <;> simp [hf, fileSet]

lemma getFileSize_eq : ix.getFileSize dir f = (ix.fileSet dir f).getD 0 := rfl

lemma fileExists_eq : ix.fileExists dir f = (ix.fileSet dir f).isSome := by
  rw [fileExists, fileSet, Option.isSome_map]

end Index

namespace Call

/-- The calls that neither take nor give back an exclusive lock, nor concern the records of the
index. -/
def isSilent : Call → Bool
  | .lock _ | .unlock _ | .lockBoth _ _ | .addFile _ _ _ _ | .removeFile _ _ | .getFileSize _ _
  | .listDirectory _ => false
  | _ => true

/-- The silent calls that do not change files either. -/
def isPassive : Call → Bool
  | .openOut _ | .write _ _ | .closeOut _ | .fsRemove _ | .fsRename _ _ | .createDirectories _ =>
    false
  | o => o.isSilent

end Call

abbrev Silent {α : Type} (p : Code α) : Prop := p.Calls Call.Faithful (fun o => o.isSilent = true)

abbrev Passive {α : Type} (p : Code α) : Prop := p.Calls Call.Faithful (fun o => o.isPassive = true)

section Silent

variable {α : Type}

lemma silent_call {o : Call} (ho : o.isSilent = true) : Silent (.op o .pure) :=
  ⟨ho, fun _ _ => trivial⟩

lemma silent_throwing {o : Call} {k : Answer o → Except Exn α} (ho : o.isSilent = true) :
    Silent (.op o fun r => .ofExcept (k r)) :=
  ⟨ho, fun _ _ => Prog.calls_ofExcept _⟩

lemma passive_call {o : Call} (ho : o.isPassive = true) : Passive (.op o .pure) :=
  ⟨ho, fun _ _ => trivial⟩

lemma passive_throwing {o : Call} {k : Answer o → Except Exn α} (ho : o.isPassive = true) :
    Passive (.op o fun r => .ofExcept (k r)) :=
  ⟨ho, fun _ _ => Prog.calls_ofExcept _⟩

lemma passive_of_within {p : Code α} (h : Within [] [] p) : Passive p := by
  refine h.mono fun o ho => ?_
  cases o with
  | lock key => exact (ho.1 rfl).elim
  | unlock key => exact (ho.1 rfl).elim
  | lockBoth k₁ k₂ => exact (ho.1 rfl).elim
  | addFile dir _ _ _ => exact (ho.1 rfl).elim
  | removeFile dir _ => exact (ho.1 rfl).elim
  | getFileSize dir _ => exact (ho.1 rfl).elim
  | listDirectory dir => exact (ho.1 rfl).elim
  | openOut p => exact (ho.1 rfl).elim
  | write p data => exact (ho.1 rfl).elim
  | closeOut p => exact (ho.1 rfl).elim
  | fsRemove p => exact (ho.1 rfl).elim
  | fsRename p q => exact (ho.1 rfl).elim
  | createDirectories p => exact (ho.1 rfl).elim
  | _ => rfl

lemma silent_of_passive {p : Code α} (h : Passive p) : Silent p := by
  refine h.mono fun o ho => ?_
  cases o <;> first | exact ho | cases ho

lemma silent_of_within {p : Code α} (h : Within [] [] p) : Silent p :=
  silent_of_passive (passive_of_within h)

end Silent

namespace FileManager

lemma silent_receiveLoop (p : Bytes) (fuel n : ℕ) (good : Bool) :
    Silent (receiveLoop p fuel n good) := by
  induction fuel generalizing n good with
  | zero => trivial
  | succ fuel ih =>
    rw [receiveLoop]
    split
    · refine .bind (silent_of_within (within_recvAll _)) ?_
      rintro (_ | buffer)
      · trivial
      cases good with
      | true => exact .bind (silent_call rfl) fun _ => ih _ _
      | false => exact ih _ _
    · trivial

lemma passive_streamLoop (p : Bytes) (fuel offset : ℕ) : Passive (streamLoop p fuel offset) := by
  induction fuel generalizing offset with
  | zero => trivial
  | succ fuel ih =>
    refine .bind (passive_call rfl) ?_
    rintro ⟨buffer, good⟩
    dsimp only
    split
    · refine .bind (passive_of_within (within_sendAll _)) ?_
      rintro (_ | _)
      · trivial
      cases good with
      | true => exact ih _
      | false => trivial
    · cases good with
      | true => exact ih _
      | false => trivial

lemma passive_streamLocked (p : Bytes) : Passive (streamLocked p) := by
  refine .bind (passive_call rfl) ?_
  rintro (_ | _)
  · exact .bind (passive_throwing rfl) fun _ => .bind (passive_call rfl) fun _ =>
      .bind (passive_call rfl) fun _ => trivial
  refine .bind (passive_throwing rfl) fun _ => .bind (passive_streamLoop _ _ _) ?_
  rintro (_ | _)
  · exact .bind (passive_throwing rfl) fun _ => .bind (passive_call rfl) fun _ =>
      .bind (passive_call rfl) fun _ => trivial
  · exact .bind (passive_throwing rfl) fun _ => .bind (passive_call rfl) fun _ => trivial

lemma passive_streamFileToSocket (u f : Bytes) : Passive (streamFileToSocket u f) := by
  refine .tryCatch ?_ fun _ => .bind (passive_throwing rfl) fun _ => trivial
  rw [tryStreamFile]
  split
  · trivial
  · exact .bind (passive_throwing rfl) fun _ => .bind (passive_throwing rfl) fun _ =>
      .bind (passive_throwing rfl) fun _ => .bind (passive_call rfl) fun _ =>
        (passive_streamLocked _).onThrow (passive_call rfl)

lemma silent_ensureDir (p : Bytes) : Silent (ensureDir p) := by
  refine .bind (silent_throwing rfl) ?_
  rintro (_ | _)
  · exact silent_throwing rfl
  · trivial

end FileManager

/-- How far a request has come with the index. -/
inductive Stage
  | before
  /-- the size of a file has been read -/
  | sized (size : UInt64)
  /-- a renamed file is out of the index, and not yet in it under its new name -/
  | between (size : UInt64)
  | done
  | failed
  deriving DecidableEq

namespace Stage

def isMoving : Stage → Bool
  | sized _ | between _ => true
  | _ => false

def removed : Stage → Except Exn Unit → Stage
  | _, .error _ => failed
  | sized n, .ok _ => between n
  | _, .ok _ => done

def added : Except Exn Unit → Stage
  | .ok _ => done
  | .error _ => failed

end Stage

/-- The exclusive locks of a request, how far it has come with the index, and what `list_directory`
has told it. -/
structure Progress where
  held : List Bytes
  stage : Stage
  seen : Option (List FileMetadata)

namespace Progress

def start : Progress := ⟨[], .before, none⟩

def after : Monitor Call Answer Progress
  | .lock key, t, _ => { t with held := key :: t.held }
  | .unlock key, t, _ => { t with held := t.held.erase key }
  | .lockBoth key₁ key₂, t, _ => { t with held := key₁ :: key₂ :: t.held }
  | .getFileSize _ _, t, n => { t with stage := .sized n }
  | .removeFile _ _, t, r => { t with stage := t.stage.removed r }
  | .addFile _ _ _ _, t, r => { t with stage := .added r }
  | .listDirectory _, t, files => { t with seen := some files }
  | _, t, _ => t

lemma after_silent {o : Call} (ho : o.isSilent = true) (t : Progress) (r : Answer o) :
    after o t r = t := by
  cases o <;> first | rfl | cases ho

/-- The order and the locks under which a request with a task may go about the index. -/
def Allows (user : Bytes) (task : Option Change) : Call → Progress → Prop
  | .unlock _, t => t.stage.isMoving = false
  | .getFileSize dir f, t => ∀ ch, task = some ch → ∃ g, ch = .move f g ∧ dir = indexDir user ∧
      t.stage = .before ∧ filePath user f ∈ t.held ∧ filePath user g ∈ t.held ∧
      filePath user f ≠ filePath user g
  | .removeFile dir h, t => dir = indexDir user ∧ filePath user h ∈ t.held ∧
      ((task = some (.drop h) ∧ t.stage = .before) ∨
        ∃ g n, task = some (.move h g) ∧ t.stage = .sized n)
  | .addFile dir h size _, t => dir = indexDir user ∧ filePath user h ∈ t.held ∧
      ((task = some (.put h size) ∧ t.stage = .before) ∨
        ∃ f, task = some (.move f h) ∧ t.stage = .between size)
  | .listDirectory dir, _ => dir = indexDir user
  | _, _ => True

/-- The rest of a request goes about the index as it may, and ends with `Q`. -/
abbrev Tracks {α : Type} (user : Bytes) (task : Option Change) (p : Code α)
    (Q : Except Exn α → Progress → Prop) (t : Progress) : Prop :=
  Safe (Next.only (fun o _ r => o.Faithful r) after.next) (Allows user task) p Q t

section Tracks

variable {α β : Type} {user : Bytes} {task : Option Change} {t : Progress}

lemma tracks_op {o : Call} {k : Answer o → Code α} {Q : Except Exn α → Progress → Prop} :
    Tracks user task (.op o k) Q t ↔
      Allows user task o t ∧ ∀ r, o.Faithful r → Tracks user task (k r) Q (after o t r) := by
  simp only [Tracks, safe_op, Next.only_eq_some, Monitor.next, Option.some.injEq]
  constructor
  · rintro ⟨ha, h⟩
    exact ⟨ha, fun r hr => h r _ ⟨hr, rfl⟩⟩
  · rintro ⟨ha, h⟩
    refine ⟨ha, ?_⟩
    rintro r _ ⟨hr, rfl⟩
    exact h r hr

lemma allows_silent {o : Call} (ho : o.isSilent = true) : Allows user task o t := by
  cases o <;> trivial

lemma tracks_silent {p : Code α} {Q : Except Exn α → Progress → Prop} (hp : Silent p)
    (h : ∀ r, Q r t) : Tracks user task p Q t := by
  induction p with
  | pure a => exact h _
  | throw e => exact h _
  | op o k ih =>
    refine tracks_op.mpr ⟨allows_silent hp.1, fun r hr => ?_⟩
    rw [after_silent hp.1]
    exact ih r (hp.2 r hr)

lemma tracks_then {p : Code α} {f : α → Code β} {Q : Except Exn β → Progress → Prop} (hp : Silent p)
    (herror : ∀ e, Q (.error e) t) (h : ∀ a, Tracks user task (f a) Q t) :
    Tracks user task (p.bind f) Q t := by
  refine safe_bind_of (tracks_silent (Q := fun _ t' => t' = t) hp fun _ => rfl) ?_
  rintro (e | a) _ rfl
  · exact herror e
  · exact h a

lemma tracks_pathAppend {p q : Bytes} {f : Bytes → Code β} {Q : Except Exn β → Progress → Prop}
    (herror : ∀ e, Q (.error e) t) (h : Tracks user task (f (Paths.append p q)) Q t) :
    Tracks user task ((Sys.pathAppend p q).bind f) Q t := by
  refine tracks_op.mpr ⟨trivial, fun r hr => ?_⟩
  cases r with
  | error e => exact herror e
  | ok x =>
    obtain rfl := hr x rfl
    exact h

/-- How an operation ends that is to carry out the task: `skip` is the excuse for a success that
changes nothing. -/
def Ends (skip : Prop) (r : Except Exn Bool) (t : Progress) : Prop :=
  (r = .ok true → t.stage = .done ∨ skip) ∧ t.stage.isMoving = false

variable {skip : Prop}

lemma ends_error (ht : t.stage.isMoving = false) (e : Exn) : Ends skip (.error e) t := ⟨nofun, ht⟩

lemma ends_false (ht : t.stage.isMoving = false) : Ends skip (.ok false) t := ⟨nofun, ht⟩

lemma ends_done (b : Bool) (ht : t.stage = .done) : Ends skip (.ok b) t := by
  refine ⟨fun _ => Or.inl ht, ?_⟩
  rw [ht]
  rfl

lemma tracks_unlock {key : Bytes} {f : Unit → Code α} {Q : Except Exn α → Progress → Prop}
    (ht : t.stage.isMoving = false)
    (h : Tracks user task (f ()) Q { t with held := t.held.erase key }) :
    Tracks user task ((Sys.unlock key).bind f) Q t :=
  tracks_op.mpr ⟨ht, fun _ _ => h⟩

lemma tracks_leave {key : Bytes} {b : Bool} (h : Ends skip (.ok b) t) :
    Tracks user task (do
      Sys.unlock key
      Sys.releaseLockRef key
      pure b) (Ends skip) t := by
  refine tracks_unlock h.2 ?_
  exact tracks_then (silent_call rfl) (ends_error h.2) fun _ => h

lemma tracks_onThrow {p : Code Bool} {cleanup : Code Unit} (hp : Tracks user task p (Ends skip) t)
    (hc : ∀ t : Progress, t.stage.isMoving = false →
      Tracks user task cleanup (fun _ t => t.stage.isMoving = false) t) :
    Tracks user task (p.onThrow cleanup) (Ends skip) t := by
  refine safe_tryCatch.mpr (safe_mono hp ?_)
  rintro (e | b) t' ht
  · refine safe_bind_of (hc t' ht.2) ?_
    rintro (e' | _) t'' ht''
    · exact ends_error ht'' _
    · exact ends_error ht'' _
  · exact ht

lemma tracks_cleanup {key : Bytes} (ht : t.stage.isMoving = false) :
    Tracks user task (Sys.unlock key) (fun _ t => t.stage.isMoving = false) t :=
  tracks_op.mpr ⟨ht, fun _ _ => ht⟩

lemma tracks_tryCatch {p : Code Bool} {h : Exn → Code Bool} (hp : Tracks user task p (Ends skip) t)
    (hh : ∀ e (t : Progress), t.stage.isMoving = false → Tracks user task (h e) (Ends skip) t) :
    Tracks user task (p.tryCatch h) (Ends skip) t := by
  refine safe_tryCatch.mpr (safe_mono hp ?_)
  rintro (e | b) t' ht
  · exact hh e t' ht.2
  · exact ht

end Tracks

section Operations

open FileManager

variable {user : Bytes} {task : Option Change} {skip : Prop} {f g : Bytes}

lemma tracks_discard (size : UInt64) {t : Progress} (ht : t.stage.isMoving = false) :
    Tracks user task (do
      Sys.log
      discardData size
      pure false) (Ends skip) t :=
  tracks_then (silent_throwing rfl) (ends_error ht) fun _ =>
    tracks_then (silent_of_within (within_discardData size)) (ends_error ht) fun _ => ends_false ht

lemma tracks_saveLocked {size : UInt64} (htask : task = some (.put f size)) :
    Tracks user task (saveLocked user f (filePath user f) size) (Ends skip)
      ⟨[filePath user f], .before, none⟩ := by
  refine tracks_then (silent_call rfl) (ends_error rfl) ?_
  rintro (_ | _)
  · refine tracks_then (silent_throwing rfl) (ends_error rfl) fun _ => ?_
    refine tracks_then (silent_of_within (within_discardData size)) (ends_error rfl) fun _ => ?_
    exact tracks_leave (ends_false rfl)
  refine tracks_then (silent_throwing rfl) (ends_error rfl) fun _ => ?_
  refine tracks_then (silent_receiveLoop _ _ _ _) (ends_error rfl) ?_
  rintro (_ | _)
  · refine tracks_then (silent_throwing rfl) (ends_error rfl) fun _ => ?_
    refine tracks_then (silent_call rfl) (ends_error rfl) fun _ => ?_
    refine tracks_then (silent_throwing rfl) (ends_error rfl) fun _ => ?_
    exact tracks_unlock rfl (ends_false rfl)
  refine tracks_then (silent_call rfl) (ends_error rfl) fun _ => ?_
  refine tracks_op.mpr ⟨trivial, fun time _ => tracks_op.mpr ⟨?_, ?_⟩⟩
  · exact ⟨rfl, List.mem_singleton_self _, Or.inl ⟨htask, rfl⟩⟩
  rintro (e | _) -
  · exact ends_error rfl e
  refine tracks_then (p := Sys.log) (silent_throwing rfl) (ends_error rfl) fun _ => ?_
  exact tracks_leave (ends_done true rfl)

lemma tracks_saveFile {size : UInt64} (htask : task = some (.put f size)) :
    Tracks user task (saveFile user f size) (Ends skip) .start := by
  refine tracks_tryCatch ?_ fun _ t ht => tracks_discard size ht
  refine tracks_pathAppend (ends_error rfl) ?_
  refine tracks_then (silent_ensureDir _) (ends_error rfl) fun _ => ?_
  rw [saveInto]
  split
  · exact tracks_discard size rfl
  refine tracks_pathAppend (ends_error rfl) ?_
  refine tracks_then (silent_throwing rfl) (ends_error rfl) fun _ => ?_
  refine tracks_op.mpr ⟨trivial, fun _ _ => ?_⟩
  exact tracks_onThrow (tracks_saveLocked htask) fun _ ht => tracks_cleanup ht

lemma tracks_deleteFile (htask : task = some (.drop f)) :
    Tracks user task (deleteFile user f) (Ends skip) .start := by
  refine tracks_tryCatch ?_ fun _ t ht => ends_false ht
  rw [tryDeleteFile]
  split
  · exact ends_false rfl
  refine tracks_pathAppend (ends_error rfl) (tracks_pathAppend (ends_error rfl) ?_)
  refine tracks_then (silent_throwing rfl) (ends_error rfl) fun _ => ?_
  refine tracks_op.mpr ⟨trivial, fun _ _ => ?_⟩
  refine tracks_onThrow ?_ fun _ ht => tracks_cleanup ht
  refine tracks_then (silent_throwing rfl) (ends_error rfl) ?_
  rintro (_ | _)
  · exact tracks_leave (ends_false rfl)
  refine tracks_op.mpr ⟨⟨rfl, List.mem_singleton_self _, Or.inl ⟨htask, rfl⟩⟩, ?_⟩
  rintro (e | _) -
  · exact ends_error rfl e
  · exact tracks_leave (ends_done true rfl)

lemma tracks_leaveBoth {p q : Bytes} {b : Bool} {t : Progress} (h : Ends skip (.ok b) t) :
    Tracks user task (do
      unlockBoth p q
      releaseBoth p q
      pure b) (Ends skip) t := by
  refine tracks_op.mpr ⟨h.2, fun _ _ => tracks_op.mpr ⟨h.2, fun _ _ => ?_⟩⟩
  refine tracks_then (p := releaseBoth p q) ?_ (ends_error h.2) fun _ => h
  exact .bind (silent_call rfl) fun _ => silent_call rfl

lemma tracks_renameLocked (htask : task = some (.move f g))
    (hne : filePath user f ≠ filePath user g) :
    Tracks user task (renameLocked user f g (filePath user f) (filePath user g)) (Ends skip)
      ⟨[filePath user f, filePath user g], .before, none⟩ := by
  refine tracks_then (.bind (silent_throwing rfl) ?_) (ends_error rfl) ?_
  · rintro (_ | _)
    · trivial
    · exact silent_throwing rfl
  rintro (_ | _)
  · refine tracks_then (silent_throwing rfl) (ends_error rfl) fun _ => ?_
    refine tracks_op.mpr ⟨?_, fun size _ => tracks_op.mpr ⟨?_, ?_⟩⟩
    · intro ch hch
      cases htask.symm.trans hch
      exact ⟨g, rfl, rfl, rfl, by simp, by simp, hne⟩
    · exact ⟨rfl, List.mem_cons_self, Or.inr ⟨g, size, htask, rfl⟩⟩
    rintro (e | _) -
    · exact ends_error rfl e
    refine tracks_op.mpr ⟨trivial, fun time _ => tracks_op.mpr ⟨?_, ?_⟩⟩
    · exact ⟨rfl, List.mem_cons_of_mem _ List.mem_cons_self, Or.inr ⟨f, htask, rfl⟩⟩
    rintro (e | _) -
    · exact ends_error rfl e
    · exact tracks_leaveBoth (ends_done true rfl)
  · exact tracks_leaveBoth (ends_false rfl)

lemma tracks_renameFile (htask : task = some (.move f g)) :
    Tracks user task (renameFile user f g) (Ends (filePath user f = filePath user g)) .start := by
  refine tracks_tryCatch ?_ fun _ t ht => ends_false ht
  rw [tryRenameFile]
  split
  · exact ends_false rfl
  refine tracks_pathAppend (ends_error rfl) (tracks_pathAppend (ends_error rfl) ?_)
  refine tracks_pathAppend (ends_error rfl) (tracks_pathAppend (ends_error rfl) ?_)
  split
  · rename_i heq
    exact ⟨fun _ => Or.inr heq, rfl⟩
  rename_i hne
  refine tracks_then (silent_throwing rfl) (ends_error rfl) fun _ => ?_
  refine tracks_then (silent_throwing rfl) (ends_error rfl) fun _ => ?_
  refine tracks_op.mpr ⟨trivial, fun _ _ => ?_⟩
  refine tracks_onThrow (tracks_renameLocked htask hne) fun _ ht => ?_
  exact tracks_op.mpr ⟨ht, fun _ _ => tracks_cleanup ht⟩

end Operations

end Progress

/-- What a call does to the user's part of the index. -/
def Call.reindex : (o : Call) → Answer o → FileSet → FileSet
  | .addFile _ f size _, .ok _, files => Function.update files f (some size)
  | .removeFile _ f, .ok _, files => Function.update files f none
  | _, _, files => files

lemma next_fileSet {env : Env} {user : Bytes} {task : Option Change} {t : Progress} {o : Call}
    {l l' : Local} {s s' : Store} {r : Answer o} (h : next env o (l, s) r = some (l', s'))
    (ha : Progress.Allows user task o t) : s'.index.fileSet (indexDir user) =
      o.reindex r (s.index.fileSet (indexDir user)) := by
  cases o with
  | addFile dir f size time =>
    obtain ⟨rfl, -⟩ := ha
    rcases r with e | _
    · simp only [next, orThrow, Option.ite_none_right_eq_some, Option.some.injEq] at h
      cases h.2
      rfl
    · cases h
      exact Index.fileSet_addFile size time
  | removeFile dir f =>
    obtain ⟨rfl, -⟩ := ha
    rcases r with e | _
    · simp only [next, orThrow, Option.ite_none_right_eq_some, Option.some.injEq] at h
      cases h.2
      rfl
    · cases h
      exact Index.fileSet_removeFile
  | _ => rw [next_index h rfl]; rfl

namespace Server

open FileManager Progress

/-- The change that a request asks for. -/
def taskOf (req : Request) (payload : Bytes) : Option Change :=
  match CommandType.ofCode req.header.command with
  | some .upload => some (.put req.filename req.header.payloadLength)
  | some .deleteF => some (.drop req.filename)
  | some .rename => some (.move req.filename payload)
  | _ => none

def Reply.Success : Reply → Prop
  | .message header _ =>
    header.status = StatusCode.ok.code ∨ header.status = StatusCode.created.code
  | _ => False

lemma success_respond {cmd : UInt32} {status : StatusCode} {body : Bytes} :
    (respond cmd status body).Success ↔ status = .ok ∨ status = .created := by
  cases status <;> simp [Reply.Success, respond, makeResponse, StatusCode.code]

def isSuccess : Code (Reply × Bytes) → Bool
  | .pure (.message header _, _) =>
    header.status == StatusCode.ok.code || header.status == StatusCode.created.code
  | _ => false

lemma exists_of_isSuccess {p : Code (Reply × Bytes)} (h : isSuccess p = true) :
    ∃ reply x, p = .pure (reply, x) ∧ reply.Success := by
  rcases p with ⟨_ | _ | _, _⟩ | _ | _
  · refine ⟨_, _, rfl, ?_⟩
    simpa [isSuccess, Reply.Success] using h
  all_goals cases h

/-- What the end of a request tells about its way: a success has carried out its task, unless it has
renamed a file to itself, and a LIST has answered what it has seen. -/
structure Answered (user : Bytes) (req : Request) (payload : Bytes) (reply : Reply) (t : Progress) :
    Prop where
  success : reply.Success → ∀ ch, taskOf req payload = some ch →
    t.stage = .done ∨ ∃ f g, ch = .move f g ∧ filePath user f = filePath user g
  listing : CommandType.ofCode req.header.command = some .list → user ≠ [] →
    ∃ files, t.seen = some files ∧
      reply = respond req.header.command .ok (renderListing files)

def Replies (user : Bytes) (req : Request) (payload : Bytes) :
    Except Exn (Reply × Bytes) → Progress → Prop
  | .ok (reply, _), t => Answered user req payload reply t
  | .error _, _ => True

variable {user : Bytes} {req : Request} {payload : Bytes} {t : Progress}

lemma answered_other (htask : taskOf req payload = none)
    (hlist : CommandType.ofCode req.header.command ≠ some .list) (reply : Reply) :
    Answered user req payload reply t where
  success _ ch hch := by
    rw [htask] at hch
    cases hch
  listing h := (hlist h).elim

lemma tracks_reply {task : Option Change} {p : Code Bool} (skip : Prop) {yes no : Reply}
    (hp : Tracks user task p (Ends skip) .start)
    (hyes : ∀ t : Progress, t.stage = .done ∨ skip → Answered user req payload yes t)
    (hno : ∀ t : Progress, Answered user req payload no t) :
    Tracks user task (do
      let reply ← (do
        if ← p then pure yes
        else pure no)
      pure (reply, user)) (Replies user req payload) .start := by
  have hcode : Tracks user task (do
      if ← p then pure yes
      else pure no) (fun r t => ∀ reply, r = .ok reply → Answered user req payload reply t)
        .start := by
    refine safe_bind_of hp ?_
    rintro (e | b) t' ht
    · exact nofun
    cases b with
    | true =>
      rintro _ ⟨⟩
      exact hyes t' (ht.1 rfl)
    | false =>
      rintro _ ⟨⟩
      exact hno t'
  refine safe_bind_of hcode ?_
  rintro (e | reply) t' ht
  · trivial
  · exact ht reply rfl

lemma tracks_dispatch (host : Endian) (user : Bytes) (req : Request) (payload : Bytes) :
    Tracks user (taskOf req payload) (dispatch host user req payload) (Replies user req payload)
      .start := by
  have hfailed : ∀ t status body, status ≠ .ok ∧ status ≠ .created →
      CommandType.ofCode req.header.command ≠ some .list →
      Answered user req payload (respond req.header.command status body) t := by
    intro t status body hstatus hlist
    refine ⟨fun h => ?_, fun h => (hlist h).elim⟩
    exact ((not_or.mpr hstatus) (success_respond.mp h)).elim
  rw [dispatch]
  cases hcmd : CommandType.ofCode req.header.command with
  | none => exact answered_other (by rw [taskOf, hcmd]) (by simp [hcmd]) _
  | some cmd =>
  have hlist : cmd ≠ .list → CommandType.ofCode req.header.command ≠ some .list := by
    rintro hne h
    exact hne (Option.some.inj (hcmd.symm.trans h))
  cases cmd with
  | login =>
    refine tracks_then (silent_throwing rfl) (fun _ => trivial) fun _ => ?_
    exact answered_other (by rw [taskOf, hcmd]) (hlist (by rintro ⟨⟩)) _
  | upload =>
    have htask : taskOf req payload = some (.put req.filename req.header.payloadLength) := by
      rw [taskOf, hcmd]
    dsimp only
    rw [upload]
    split
    · rw [Prog.bind_eq, Prog.bind_eq, Prog.bind_assoc]
      refine tracks_then (silent_of_within (within_discardData _)) (fun _ => trivial) fun _ => ?_
      exact hfailed _ _ _ ⟨(by rintro ⟨⟩), (by rintro ⟨⟩)⟩ (hlist (by rintro ⟨⟩))
    · refine tracks_reply False (tracks_saveFile htask) (fun t ht => ?_) fun t => ?_
      · exact ⟨fun _ _ _ => Or.inl (ht.resolve_right id), fun h => (hlist (by rintro ⟨⟩) h).elim⟩
      · exact hfailed t _ _ ⟨(by rintro ⟨⟩), (by rintro ⟨⟩)⟩ (hlist (by rintro ⟨⟩))
  | download =>
    have hother : ∀ r t, Replies user req payload r t := by
      rintro (e | ⟨reply, user'⟩) t
      · trivial
      · exact answered_other (by rw [taskOf, hcmd]) (hlist (by rintro ⟨⟩)) _
    have hanswer : ∀ fileSize, Silent (do
        let reply ← (do
          if fileSize = -1 then
            pure (respond req.header.command .notFound (bytes "File not found."))
          else if !(← sendMessageMeta host
            (makeResponse req.header.command .ok fileSize) [] []) then
            pure (.ended .headerLost)
          else if !(← streamFileToSocket user req.filename) then pure (.ended .streamFailed)
          else pure .streamed)
        pure (reply, user)) := by
      intro fileSize
      refine .bind ?_ fun _ => trivial
      split
      · trivial
      refine .bind (silent_of_within (within_sendMessageMeta _ _ _ _)) ?_
      rintro (_ | _)
      · trivial
      refine .bind (silent_of_passive (passive_streamFileToSocket _ _)) ?_
      rintro (_ | _) <;> trivial
    dsimp only
    rw [download]
    split
    · exact hother _ _
    rw [FileManager.getFileSize]
    refine tracks_op.mpr ⟨trivial, ?_⟩
    rintro (_ | _) -
    · exact tracks_silent (hanswer (-1)) fun r => hother r _
    refine tracks_op.mpr
      ⟨fun ch h => ?_, fun size _ => tracks_silent (hanswer size) fun r => hother r _⟩
    simp [taskOf, hcmd] at h
  | list =>
    have hnone : ∀ ch, taskOf req payload ≠ some ch := by simp [taskOf, hcmd]
    dsimp only
    rw [list]
    split
    · rename_i huser
      exact ⟨fun _ ch hch => (hnone ch hch).elim, fun _ h => (h huser).elim⟩
    refine tracks_op.mpr ⟨rfl, fun files _ => ?_⟩
    exact ⟨fun _ ch hch => (hnone ch hch).elim, fun _ _ => ⟨files, rfl, rfl⟩⟩
  | deleteF =>
    have htask : taskOf req payload = some (.drop req.filename) := by rw [taskOf, hcmd]
    dsimp only
    rw [delete]
    split
    · exact hfailed _ _ _ ⟨(by rintro ⟨⟩), (by rintro ⟨⟩)⟩ (hlist (by rintro ⟨⟩))
    · refine tracks_reply False (tracks_deleteFile htask) (fun t ht => ?_) fun t => ?_
      · exact ⟨fun _ _ _ => Or.inl (ht.resolve_right id), fun h => (hlist (by rintro ⟨⟩) h).elim⟩
      · exact hfailed t _ _ ⟨(by rintro ⟨⟩), (by rintro ⟨⟩)⟩ (hlist (by rintro ⟨⟩))
  | rename =>
    have htask : taskOf req payload = some (.move req.filename payload) := by rw [taskOf, hcmd]
    dsimp only
    rw [rename]
    split
    · exact hfailed _ _ _ ⟨(by rintro ⟨⟩), (by rintro ⟨⟩)⟩ (hlist (by rintro ⟨⟩))
    · refine tracks_reply _ (tracks_renameFile htask) (fun t ht => ?_) fun t => ?_
      · refine ⟨fun _ ch hch => ht.imp_right fun hsame => ?_, fun h =>
          (hlist (by rintro ⟨⟩) h).elim⟩
        exact ⟨_, _, Option.some.inj (hch.symm.trans htask), hsame⟩
      · exact hfailed t _ _ ⟨(by rintro ⟨⟩), (by rintro ⟨⟩)⟩ (hlist (by rintro ⟨⟩))
  | quit =>
    refine tracks_silent
      (.bind (silent_of_within (.bind (within_sendMessage _ _ _ _ _) fun _ => trivial))
      fun _ => trivial) ?_
    rintro (e | ⟨reply, user'⟩)
    · trivial
    · exact answered_other (by rw [taskOf, hcmd]) (hlist (by rintro ⟨⟩)) _

end Server

end Mtfss
