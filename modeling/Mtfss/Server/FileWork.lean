import Mtfss.Common.Transfer
import Mtfss.Server.Changes
import Mtfss.Server.Wire

/-! In which steps the requests of a user change a file on disk and its record in the index, and
under which locks. -/

namespace Mtfss

open Effects

namespace Call

/-- The call has thrown, or has not put on disk what it was to put there. -/
def failed : (o : Call) → Answer o → Bool
  | .write _ _, some _ | .closeOut _, some _ => true
  | .pathAppend _ _, .error _ | .fsExists _, .error _ | .createDirectories _, .error _
  | .fsRemove _, .error _ | .fsRename _ _, .error _ | .acquireLockRef _, .error _
  | .addFile _ _ _ _, .error _ | .removeFile _ _, .error _ | .alloc _, .error _ | .log,
      .error _ => true
  | _, _ => false

/-- What the program relies on in an answer, the length of what is received included. -/
def Apt : (o : Call) → Answer o → Prop
  | .recv count, r => ∀ bs, r = some bs → bs = [] ∨ bs.length ≤ count
  | o, r => o.Faithful r

/-- The calls that neither take nor give back an exclusive lock, nor change files or records. -/
def isAside : Call → Bool
  | .lock _ | .unlock _ | .lockBoth _ _ | .openOut _ | .write _ _ | .closeOut _ | .fsRemove _
  | .fsRename _ _ | .createDirectories _ | .addFile _ _ _ _ | .removeFile _ _ | .getFileSize _ _ =>
      false
  | _ => true

end Call

lemma next_apt {env : Env} {o : Call} {m m' : Machine} {r : Answer o}
    (h : next env o m r = some m') : o.Apt r := by
  by_cases ho : ∃ count, o = .recv count
  · obtain ⟨count, rfl⟩ := ho
    rintro bs rfl
    obtain ⟨c, hc, -⟩ := Option.map_eq_some_iff.mp h
    unfold Conn.recv at hc
    grind
  · cases o with
    | recv count => exact (ho ⟨count, rfl⟩).elim
    | _ => exact next_faithful h

/-- How far a request is in the middle of changing its files. -/
inductive Work
  | clear
  | writing (written : ℕ)
  /-- the file is gone, and its record is not -/
  | removed
  /-- the file has its new name, and the record has not -/
  | moved
  | sized (size : UInt64)
  /-- there is no record of the renamed file -/
  | between (size : UInt64)
  deriving DecidableEq

namespace Work

def isWriting : Work → Bool
  | writing _ => true
  | _ => false

lemma isWriting_iff {w : Work} : w.isWriting = true ↔ ∃ n, w = writing n := by
  cases w <;> simp [isWriting]

def wrote (n : ℕ) : Work → Work
  | writing written => writing (written + n)
  | w => w

def erased : Work → Except Exn Bool → Work
  | clear, .ok true => removed
  | _, _ => clear

def renamed : Except Exn Unit → Work
  | .ok _ => moved
  | .error _ => clear

def measured (size : UInt64) : Work → Work
  | moved => sized size
  | w => w

def dropped : Work → Except Exn Unit → Work
  | sized size, .ok _ => between size
  | _, _ => clear

end Work

/-- The exclusive locks of a request, and how far it is with its files. After a failure it has given
up. -/
structure Filing where
  held : List Bytes
  work : Work

namespace Filing

def start : Filing := ⟨[], .clear⟩

def after : Monitor Call Answer Filing
  | .lock key, t, _ => { t with held := key :: t.held }
  | .unlock key, t, _ => { t with held := t.held.erase key }
  | .lockBoth key₁ key₂, t, _ => { t with held := key₁ :: key₂ :: t.held }
  | .openOut _, t, r => if r = true then { t with work := .writing 0 } else t
  | .write _ data, t, _ => { t with work := t.work.wrote data.length }
  | .fsRemove _, t, r => { t with work := t.work.erased r }
  | .fsRename _ _, t, r => { t with work := .renamed r }
  | .getFileSize _ _, t, n => { t with work := t.work.measured n }
  | .removeFile _ _, t, r => { t with work := t.work.dropped r }
  | .addFile _ _ _ _, t, _ => { t with work := .clear }
  | _, t, _ => t

/-- The request has locked the user's file. -/
structure Owns (user : Bytes) (t : Filing) (f p : Bytes) : Prop where
  user_ne : user ≠ []
  valid : isValidFilename f = true
  path : p = filePath user f
  held : p ∈ t.held

lemma Owns.working {user f p : Bytes} {t : Filing} (h : t.Owns user f p) (w : Work) :
    Owns user { t with work := w } f p := ⟨h.user_ne, h.valid, h.path, h.held⟩

/-- The order and the locks in which a request with a task may change files and records. -/
def Allows (user : Bytes) (task : Option Change) : Call → Filing → Prop
  | .unlock _, t => t.work = .clear
  | .createDirectories p, _ => p = userDir user
  | .openOut p, t => t.work = .clear ∧ ∃ f size, task = some (.put f size) ∧ t.Owns user f p
  | .write p _, t | .closeOut p, t =>
    t.work.isWriting = true ∧ ∃ f size, task = some (.put f size) ∧ t.Owns user f p
  | .fsRemove p, t =>
    (t.work.isWriting = true ∧ ∃ f size, task = some (.put f size) ∧ t.Owns user f p) ∨
      (t.work = .clear ∧ ∃ f, task = some (.drop f) ∧ t.Owns user f p)
  | .fsRename p q, t => t.work = .clear ∧ p ≠ q ∧
      ∃ f g, task = some (.move f g) ∧ t.Owns user f p ∧ t.Owns user g q
  | .getFileSize dir f, t => ∀ ch, task = some ch → dir = indexDir user ∧ t.work = .moved ∧
      ∃ g, ch = .move f g
  | .removeFile dir h, t => dir = indexDir user ∧ ((task = some (.drop h) ∧ t.work = .removed) ∨
      ∃ g n, task = some (.move h g) ∧ t.work = .sized n)
  | .addFile dir h size _, t => dir = indexDir user ∧
      ((task = some (.put h size) ∧ t.work = .writing size.toNat) ∨
        ∃ f, task = some (.move f h) ∧ t.work = .between size)
  | _, _ => True

/-- The answers that a program is followed through: an upload that has begun to write does so to the
end. -/
def Answered (o : Call) (t : Filing) (r : Answer o) : Prop :=
  o.Apt r ∧ (t.work.isWriting = true → o.failed r = false)

/-- The rest of a request changes files and records as it may, and ends with `Q`. -/
abbrev Files {α : Type} (user : Bytes) (task : Option Change) (p : Code α)
    (Q : Except Exn α → Filing → Prop) (t : Filing) : Prop :=
  Safe (Next.only Answered after.next) (Allows user task) p Q t

def Clear {α : Type} (_ : Except Exn α) (t : Filing) : Prop := t.work = .clear

section Files

variable {α β : Type} {user : Bytes} {task : Option Change} {t : Filing}

lemma files_op {o : Call} {k : Answer o → Code α} {Q : Except Exn α → Filing → Prop} :
    Files user task (.op o k) Q t ↔
      Allows user task o t ∧ ∀ r, Answered o t r → Files user task (k r) Q (after o t r) := by
  simp only [Files, safe_op, Next.only_eq_some, Monitor.next, Option.some.injEq]
  constructor
  · rintro ⟨ha, h⟩
    exact ⟨ha, fun r hr => h r _ ⟨hr, rfl⟩⟩
  · rintro ⟨ha, h⟩
    refine ⟨ha, ?_⟩
    rintro r _ ⟨hr, rfl⟩
    exact h r hr

lemma after_aside {o : Call} (ho : o.isAside = true) (t : Filing) (r : Answer o) :
    after o t r = t := by
  cases o <;> first | rfl | cases ho

lemma allows_aside {o : Call} (ho : o.isAside = true) : Allows user task o t := by
  cases o <;> trivial

lemma faithful_of_apt {o : Call} {r : Answer o} (h : o.Apt r) : o.Faithful r := by
  cases o <;> trivial

abbrev Aside {α : Type} (p : Code α) : Prop := p.Calls Call.Faithful (fun o => o.isAside = true)

lemma files_aside {p : Code α} {Q : Except Exn α → Filing → Prop} (hp : Aside p) (h : ∀ r, Q r t) :
    Files user task p Q t := by
  induction p with
  | pure a => exact h _
  | throw e => exact h _
  | op o k ih =>
    refine files_op.mpr ⟨allows_aside hp.1, fun r hr => ?_⟩
    rw [after_aside hp.1]
    exact ih r (hp.2 r (faithful_of_apt hr.1))

lemma files_then {p : Code α} {f : α → Code β} {Q : Except Exn β → Filing → Prop} (hp : Aside p)
    (herror : ∀ e, Q (.error e) t) (h : ∀ a, Files user task (f a) Q t) :
    Files user task (p.bind f) Q t := by
  refine safe_bind_of (files_aside (Q := fun _ t' => t' = t) hp fun _ => rfl) ?_
  rintro (e | a) _ rfl
  · exact herror e
  · exact h a

lemma files_pathAppend {p q : Bytes} {f : Bytes → Code β} {Q : Except Exn β → Filing → Prop}
    (herror : ∀ e, Q (.error e) t) (h : Files user task (f (Paths.append p q)) Q t) :
    Files user task ((Sys.pathAppend p q).bind f) Q t := by
  refine files_op.mpr ⟨trivial, fun r hr => ?_⟩
  cases r with
  | error e => exact herror e
  | ok x =>
    obtain rfl := hr.1 x rfl
    exact h

/-- While an upload writes, a call that is answered at all is not answered by an exception. -/
lemma files_writing {o : Call} {get : Answer o → Except Exn α} {f : α → Code β}
    {Q : Except Exn β → Filing → Prop} (ho : o.isAside = true)
    (hget : ∀ r e, get r = .error e → o.failed r = true) (ht : t.work.isWriting = true)
    (h : ∀ a, Files user task (f a) Q t) :
    Files user task ((Prog.op o fun r => .ofExcept (get r)).bind f) Q t := by
  refine files_op.mpr ⟨allows_aside ho, fun r hr => ?_⟩
  rw [after_aside ho]
  change Files user task ((Prog.ofExcept (get r)).bind f) Q t
  cases hr' : get r with
  | error e =>
    have hok := hr.2 ht
    rw [hget r e hr'] at hok
    cases hok
  | ok a => exact h a

lemma files_alloc {n : ℕ} {f : Unit → Code β} {Q : Except Exn β → Filing → Prop}
    (ht : t.work.isWriting = true) (h : Files user task (f ()) Q t) :
    Files user task ((Sys.alloc n).bind f) Q t :=
  files_writing rfl (by rintro _ _ rfl; rfl) ht fun _ => h

lemma files_log {f : Unit → Code β} {Q : Except Exn β → Filing → Prop}
    (ht : t.work.isWriting = true) (h : Files user task (f ()) Q t) :
    Files user task (Sys.log.bind f) Q t :=
  files_writing rfl (by rintro _ _ rfl; rfl) ht fun _ => h

lemma files_leave {key : Bytes} {b : Bool} (h : t.work = .clear) :
    Files user task (do
      Sys.unlock key
      Sys.releaseLockRef key
      pure b) Clear t :=
  files_op.mpr ⟨h, fun _ _ => files_op.mpr ⟨trivial, fun _ _ => h⟩⟩

lemma files_cleanup {key : Bytes} (h : t.work = .clear) :
    Files user task (Sys.unlock key) Clear t :=
  files_op.mpr ⟨h, fun _ _ => h⟩

lemma files_onThrow {p : Code α} {cleanup : Code Unit} (hp : Files user task p Clear t)
    (hc : ∀ t : Filing, t.work = .clear → Files user task cleanup Clear t) :
    Files user task (p.onThrow cleanup) Clear t := by
  refine safe_tryCatch.mpr (safe_mono hp ?_)
  rintro (e | a) t' ht
  · refine safe_bind_of (hc t' ht) ?_
    rintro (e' | _) t'' ht''
    · exact ht''
    · exact ht''
  · exact ht

lemma files_tryCatch {p : Code α} {h : Exn → Code α} (hp : Files user task p Clear t)
    (hh : ∀ e (t : Filing), t.work = .clear → Files user task (h e) Clear t) :
    Files user task (p.tryCatch h) Clear t := by
  refine safe_tryCatch.mpr (safe_mono hp ?_)
  rintro (e | a) t' ht
  · exact hh e t' ht
  · exact ht

lemma aside_of_passive {p : Code α} (h : Passive p) : Aside p := by
  refine h.mono fun o ho => ?_
  cases o <;> first | rfl | cases ho

lemma aside_of_within {p : Code α} (h : Within [] [] p) : Aside p :=
  aside_of_passive (passive_of_within h)

lemma aside_call {o : Call} (ho : o.isAside = true) : Aside (.op o .pure) :=
  ⟨ho, fun _ _ => trivial⟩

lemma aside_throwing {o : Call} {k : Answer o → Except Exn α} (ho : o.isAside = true) :
    Aside (.op o fun r => .ofExcept (k r)) :=
  ⟨ho, fun _ _ => Prog.calls_ofExcept _⟩

end Files

section Operations

open FileManager

variable {user : Bytes} {task : Option Change} {f g p : Bytes} {t : Filing}

/-- A buffer that `recv_all` has filled has its length. -/
lemma files_recvLoop {fuel n : ℕ} (got : Bytes) (hn : n < 2 ^ 31) :
    Files user task (recvLoop fuel n got)
      (fun r t' => t' = t ∧ ∃ x, r = .ok x ∧ ∀ bs, x = some bs → bs.length = got.length + n) t := by
  induction fuel generalizing n got with
  | zero =>
    cases n with
    | zero =>
      refine ⟨rfl, _, rfl, ?_⟩
      rintro _ ⟨⟩
      rfl
    | succ n => exact ⟨rfl, _, rfl, nofun⟩
  | succ fuel ih =>
    cases n with
    | zero =>
      refine ⟨rfl, _, rfl, ?_⟩
      rintro _ ⟨⟩
      rfl
    | succ n =>
      refine files_op.mpr ⟨trivial, ?_⟩
      rintro (_ | bs) hr
      · exact ⟨rfl, _, rfl, nofun⟩
      cases bs with
      | nil => exact ⟨rfl, _, rfl, nofun⟩
      | cons b bs =>
        have hle : ((b :: bs).length : ℤ) ≤ toInt32 (n + 1) := (hr.1 _ rfl).resolve_left (by simp)
        rw [toInt32_small hn] at hle
        have hle : (b :: bs).length ≤ n + 1 := by exact_mod_cast hle
        refine safe_mono (ih (n := n + 1 - (b :: bs).length) (got ++ b :: bs) (by omega)) ?_
        rintro _ _ ⟨rfl, x, rfl, hx⟩
        refine ⟨rfl, x, rfl, fun xs hxs => ?_⟩
        rw [hx xs hxs, List.length_append]
        omega

lemma files_recvAll {n : ℕ} (hn : n < 2 ^ 31) :
    Files user task (recvAll n)
      (fun r t' => t' = t ∧ ∃ x, r = .ok x ∧ ∀ bs, x = some bs → bs.length = n) t := by
  simpa [recvAll] using files_recvLoop [] hn

/-- How the receive loop of an upload ends: everything is written, or the connection is lost. -/
def Written (n : ℕ) (t : Filing) (r : Except Exn Bool) (t' : Filing) : Prop :=
  ∃ k b, r = .ok b ∧ t' = { t with work := .writing k } ∧ (b = true → k = n)

lemma files_receiveLoop {size : UInt64} (htask : task = some (.put f size))
    (howns : t.Owns user f (filePath user f)) {fuel m k : ℕ} (hfuel : m ≤ fuel) :
    Files user task (receiveLoop (filePath user f) fuel m true) (Written (k + m) t)
      { t with work := .writing k } := by
  induction fuel generalizing m k with
  | zero =>
    obtain rfl : m = 0 := by omega
    exact ⟨k, true, rfl, rfl, fun _ => rfl⟩
  | succ fuel ih =>
    rw [receiveLoop]
    split
    · rename_i hpos
      have hchunk := chunk_pos hpos
      refine safe_bind_of (files_recvAll (chunk_small m)) ?_
      rintro _ _ ⟨rfl, x, rfl, hx⟩
      cases x with
      | none => exact ⟨k, false, rfl, rfl, by rintro ⟨⟩⟩
      | some buffer =>
        refine files_op.mpr ⟨⟨rfl, f, size, htask, howns.working _⟩, fun r hr => ?_⟩
        obtain rfl : r = none := by
          cases r with
          | none => rfl
          | some n => cases hr.2 rfl
        have hlen := hx buffer rfl
        have hle : min TRANSFER_BUFFER_SIZE m ≤ m := Nat.min_le_right _ _
        have hrest : k + buffer.length + (m - min TRANSFER_BUFFER_SIZE m) = k + m := by omega
        rw [← hrest]
        exact ih (by omega)
    · obtain rfl : m = 0 := by omega
      exact ⟨k, true, rfl, rfl, fun _ => rfl⟩

lemma files_saveLocked {size : UInt64} (htask : task = some (.put f size)) (huser : user ≠ [])
    (hvalid : isValidFilename f = true) :
    Files user task (saveLocked user f (filePath user f) size) Clear
      ⟨[filePath user f], .clear⟩ := by
  have howns : Owns user ⟨[filePath user f], .clear⟩ f (filePath user f) :=
    ⟨huser, hvalid, rfl, List.mem_singleton_self _⟩
  refine files_op.mpr ⟨⟨rfl, f, size, htask, howns⟩, ?_⟩
  rintro (_ | _) -
  · refine files_then (p := Sys.log) (aside_of_within within_log) (fun _ => rfl) fun _ => ?_
    refine files_then (aside_of_within (within_discardData size)) (fun _ => rfl) fun _ => ?_
    exact files_leave rfl
  have hmine : ∀ w, ∃ g n, task = some (.put g n) ∧
      Owns user ⟨[filePath user f], w⟩ g (filePath user f) :=
    fun w => ⟨f, size, htask, howns.working w⟩
  refine files_alloc rfl ?_
  refine safe_bind_of (files_receiveLoop (k := 0) htask howns le_rfl) ?_
  rintro _ _ ⟨k, b, rfl, rfl, hk⟩
  cases b with
  | false =>
    refine files_log rfl (files_op.mpr ⟨⟨rfl, hmine _⟩, fun _ _ => ?_⟩)
    refine files_op.mpr ⟨Or.inl ⟨rfl, hmine _⟩, ?_⟩
    rintro (e | _) -
    · rfl
    · exact files_op.mpr ⟨rfl, fun _ _ => rfl⟩
  | true =>
    obtain rfl := hk rfl
    refine files_op.mpr ⟨⟨rfl, hmine _⟩, fun _ _ => files_op.mpr ⟨trivial, fun time _ => ?_⟩⟩
    refine files_op.mpr ⟨⟨rfl, Or.inl ⟨htask, by simp [after]⟩⟩, ?_⟩
    rintro (e | _) -
    · rfl
    refine files_then (p := Sys.log) (aside_of_within within_log) (fun _ => rfl) fun _ => ?_
    exact files_leave rfl

lemma files_discard (size : UInt64) (ht : t.work = .clear) :
    Files user task (do
      Sys.log
      discardData size
      pure false) Clear t :=
  files_then (p := Sys.log) (aside_of_within within_log) (fun _ => ht) fun _ =>
    files_then (aside_of_within (within_discardData size)) (fun _ => ht) fun _ => ht

lemma files_ensureDir {β : Type} {h : Unit → Code β} {Q : Except Exn β → Filing → Prop}
    (ht : t.work = .clear) (herror : ∀ e, Q (.error e) t) (hh : Files user task (h ()) Q t) :
    Files user task ((ensureDir (userDir user)).bind h) Q t := by
  have hdir : Files user task (ensureDir (userDir user)) (fun _ t' => t' = t) t := by
    refine files_then (aside_throwing rfl) (fun _ => rfl) ?_
    rintro (_ | _)
    · refine files_op.mpr ⟨rfl, ?_⟩
      rintro (e | _) - <;> rfl
    · rfl
  refine safe_bind_of hdir ?_
  rintro (e | _) _ rfl
  · exact herror e
  · exact hh

lemma files_saveFile {size : UInt64} (htask : task = some (.put f size)) (huser : user ≠ []) :
    Files user task (saveFile user f size) Clear .start := by
  refine files_tryCatch ?_ fun _ t ht => files_discard size ht
  refine files_pathAppend (fun _ => rfl) ?_
  refine files_ensureDir rfl (fun _ => rfl) ?_
  rw [saveInto]
  cases hvalid : isValidFilename f with
  | false => exact files_discard size rfl
  | true =>
    refine files_pathAppend (fun _ => rfl) ?_
    refine files_then (aside_throwing rfl) (fun _ => rfl) fun _ => ?_
    refine files_op.mpr ⟨trivial, fun _ _ => ?_⟩
    exact files_onThrow (files_saveLocked htask huser hvalid) fun _ ht => files_cleanup ht

lemma files_deleteFile (htask : task = some (.drop f)) (huser : user ≠ []) :
    Files user task (deleteFile user f) Clear .start := by
  refine files_tryCatch ?_ fun _ t ht => ht
  rw [tryDeleteFile]
  cases hvalid : isValidFilename f with
  | false => rfl
  | true =>
    refine files_pathAppend (fun _ => rfl) (files_pathAppend (fun _ => rfl) ?_)
    refine files_then (aside_throwing rfl) (fun _ => rfl) fun _ => ?_
    refine files_op.mpr ⟨trivial, fun _ _ => ?_⟩
    refine files_onThrow ?_ fun _ ht => files_cleanup ht
    have howns : Owns user ⟨[filePath user f], .clear⟩ f (filePath user f) :=
      ⟨huser, hvalid, rfl, List.mem_singleton_self _⟩
    refine files_op.mpr ⟨Or.inr ⟨rfl, f, htask, howns⟩, ?_⟩
    rintro (e | b) -
    · rfl
    cases b with
    | false => exact files_leave rfl
    | true =>
      refine files_op.mpr ⟨⟨rfl, Or.inl ⟨htask, rfl⟩⟩, ?_⟩
      rintro (e | _) -
      · rfl
      · exact files_leave rfl

lemma files_leaveBoth {p q : Bytes} {b : Bool} (h : t.work = .clear) :
    Files user task (do
      unlockBoth p q
      releaseBoth p q
      pure b) Clear t := by
  refine files_op.mpr ⟨h, fun _ _ => files_op.mpr ⟨h, fun _ _ => ?_⟩⟩
  refine files_then (p := releaseBoth p q) ?_ (fun _ => h) fun _ => h
  exact .bind (aside_call rfl) fun _ => aside_call rfl

lemma files_renameLocked (htask : task = some (.move f g)) (huser : user ≠ [])
    (hf : isValidFilename f = true) (hg : isValidFilename g = true)
    (hne : filePath user f ≠ filePath user g) :
    Files user task (renameLocked user f g (filePath user f) (filePath user g)) Clear
      ⟨[filePath user f, filePath user g], .clear⟩ := by
  refine files_then (.bind (aside_throwing rfl) ?_) (fun _ => rfl) ?_
  · rintro (_ | _)
    · trivial
    · exact aside_throwing rfl
  rintro (_ | _)
  · refine files_op.mpr
      ⟨⟨rfl, hne, f, g, htask, ⟨huser, hf, rfl, by simp⟩, huser, hg, rfl, by simp⟩, ?_⟩
    rintro (e | _) -
    · rfl
    refine files_op.mpr ⟨?_, fun size _ => files_op.mpr ⟨⟨rfl, Or.inr ⟨g, size, htask, rfl⟩⟩, ?_⟩⟩
    · intro ch hch
      cases htask.symm.trans hch
      exact ⟨rfl, rfl, g, rfl⟩
    rintro (e | _) -
    · rfl
    refine files_op.mpr ⟨trivial, fun time _ => files_op.mpr ⟨⟨rfl, Or.inr ⟨f, htask, rfl⟩⟩, ?_⟩⟩
    rintro (e | _) -
    · rfl
    · exact files_leaveBoth rfl
  · exact files_leaveBoth rfl

lemma files_renameFile (htask : task = some (.move f g)) (huser : user ≠ []) :
    Files user task (renameFile user f g) Clear .start := by
  refine files_tryCatch ?_ fun _ t ht => ht
  rw [tryRenameFile]
  cases hf : isValidFilename f with
  | false => rfl
  | true =>
  cases hg : isValidFilename g with
  | false => rfl
  | true =>
  refine files_pathAppend (fun _ => rfl) (files_pathAppend (fun _ => rfl) ?_)
  refine files_pathAppend (fun _ => rfl) (files_pathAppend (fun _ => rfl) ?_)
  split
  · rfl
  rename_i hne
  refine files_then (aside_throwing rfl) (fun _ => rfl) fun _ => ?_
  refine files_then (aside_throwing rfl) (fun _ => rfl) fun _ => ?_
  refine files_op.mpr ⟨trivial, fun _ _ => ?_⟩
  refine files_onThrow (files_renameLocked htask huser hf hg hne) fun _ ht => ?_
  exact files_op.mpr ⟨ht, fun _ _ => files_cleanup ht⟩

end Operations

section Dispatch

open Server FileManager

variable {user : Bytes} {task : Option Change} {req : Request} {payload : Bytes} {t : Filing}

lemma files_reply {p : Code Bool} (hp : Files user task p Clear t) (yes no : Reply) :
    Files user task (do
      let reply ← (do
        if ← p then pure yes
        else pure no)
      pure (reply, user)) Clear t := by
  refine safe_bind_of (R := Clear) (safe_bind_of hp ?_) ?_
  · rintro (e | _ | _) t' ht <;> exact ht
  · rintro (e | reply) t' ht <;> exact ht

lemma files_dispatch (host : Endian) (user : Bytes) (req : Request) (payload : Bytes) :
    Files user (taskOf req payload) (dispatch host user req payload) Clear .start := by
  rw [dispatch, taskOf]
  cases hcmd : CommandType.ofCode req.header.command with
  | none => rfl
  | some cmd =>
  cases cmd with
  | login => exact files_then (p := Sys.log) (aside_of_within within_log) (fun _ => rfl) fun _ =>
      rfl
  | upload =>
    dsimp only
    rw [upload]
    split
    · rw [Prog.bind_eq, Prog.bind_eq, Prog.bind_assoc]
      exact files_then (aside_of_within (within_discardData _)) (fun _ => rfl) fun _ => rfl
    · exact files_reply (files_saveFile rfl ‹_›) _ _
  | download =>
    dsimp only
    rw [download]
    split
    · rfl
    rw [FileManager.getFileSize]
    have hanswer : ∀ fileSize, Files user none (do
        let reply ← (do
          if fileSize = -1 then
            pure (respond req.header.command .notFound (bytes "File not found."))
          else if !(← sendMessageMeta host
            (makeResponse req.header.command .ok fileSize) [] []) then
            pure (.ended .headerLost)
          else if !(← streamFileToSocket user req.filename) then pure (.ended .streamFailed)
          else pure .streamed)
        pure (reply, user)) Clear .start := by
      intro fileSize
      refine files_aside (.bind ?_ fun _ => trivial) fun _ => rfl
      split
      · trivial
      refine .bind (aside_of_within (within_sendMessageMeta _ _ _ _)) ?_
      rintro (_ | _)
      · trivial
      refine .bind (aside_of_passive (passive_streamFileToSocket _ _)) ?_
      rintro (_ | _) <;> trivial
    refine files_op.mpr ⟨trivial, ?_⟩
    rintro (_ | _) -
    · exact hanswer (-1)
    · exact files_op.mpr ⟨by rintro _ ⟨⟩, fun size _ => hanswer size⟩
  | list =>
    dsimp only
    rw [list]
    split
    · rfl
    · exact files_op.mpr ⟨trivial, fun _ _ => rfl⟩
  | deleteF =>
    dsimp only
    rw [delete]
    split
    · rfl
    · exact files_reply (files_deleteFile rfl ‹_›) _ _
  | rename =>
    dsimp only
    rw [rename]
    split
    · rfl
    · exact files_reply (files_renameFile rfl ‹_›) _ _
  | quit =>
    refine files_aside (.bind
      (aside_of_within (.bind (within_sendMessage _ _ _ _ _) fun _ => trivial))
      fun _ => trivial) fun _ => rfl

end Dispatch

end Filing

end Mtfss
