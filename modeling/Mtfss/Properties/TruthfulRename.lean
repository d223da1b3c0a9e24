import Mtfss.Properties.FailedUpload
import Mtfss.Properties.FileIdentity
import Mtfss.Server.Changes
import Mtfss.System.Oblige

/-! When the answer to a RENAME is the truth about the files. -/

namespace Mtfss.TruthfulRename

open Effects Paths Server FileManager FailedUpload

/-- What has become of a rename: whether a call has thrown, the move and those before it, whether
the move has been made, and whether the index update after it has thrown. -/
structure Trial where
  threw : Bool
  moved : Bool
  broken : Bool
  deriving DecidableEq

def Trial.start : Trial := ⟨false, false, false⟩

def trial : Monitor Call Answer Trial
  | .pathAppend _ _, t, r => { t with threw := t.threw || !r.isOk }
  | .acquireLockRef _, t, r => { t with threw := t.threw || !r.isOk }
  | .fsExists _, t, r => { t with threw := t.threw || !r.isOk }
  | .fsRename _ _, t, r => { t with threw := t.threw || !r.isOk, moved := r.isOk }
  | .removeFile _ _, t, r => { t with broken := t.broken || !r.isOk }
  | .addFile _ _ _ _, t, r => { t with broken := t.broken || !r.isOk }
  | _, t, _ => t

abbrev tried (env : Env) : Next Call Answer ((Local × Trial) × Store) := trial.watch (next env)

def isAside : Call → Bool
  | .pathAppend _ _ | .acquireLockRef _ | .fsExists _ => false
  | .fsRename _ _ | .removeFile _ _ | .addFile _ _ _ _ => false
  | o => !o.writesDisk && !o.writesIndex

def Answered200 (r : Except Exn (Reply × Bytes)) : Prop :=
  ∃ header body user', r = .ok (.message header body, user') ∧ header.status = StatusCode.ok.code

/-- The index holds exactly the user's files on disk, with their sizes. -/
def Agree (env : Env) (user : Bytes) (s : Store) : Prop :=
  ∀ f, IsPlain f → s.index.fileSet (indexDir user) f =
    (s.disk.content (fileLoc env user f)).map (fun c => .ofNat c.length)

structure Truthful (env : Env) (user f g : Bytes) (s : Store) (r : Except Exn (Reply × Bytes))
    (t : Trial) (s' : Store) : Prop where
  answer : Answered200 r ↔ isValidFilename f = true ∧ isValidFilename g = true ∧
    s.disk.existsAt (fileLoc env user f) = true ∧
    (g = f ∨ s.disk.existsAt (fileLoc env user g) = false) ∧ t.threw = false
  content : Answered200 r →
    s'.disk.content (fileLoc env user g) = s.disk.content (fileLoc env user f)
  size : Answered200 r →
    s'.index.fileSet (indexDir user) g = s.index.fileSet (indexDir user) f
  gone : Answered200 r → g ≠ f → s'.disk.existsAt (fileLoc env user f) = false ∧
    s'.index.fileSet (indexDir user) f = none
  unchanged : ¬ Answered200 r → SameFiles s s'

/-- Accepted names with one path are one name of an existing file, and what is moved is in the
index, whose entry is moved after it. -/
structure Sound (env : Env) (user f g : Bytes) (s : Store) (t : Trial) : Prop where
  same : isValidFilename f = true → isValidFilename g = true → t.threw = false →
    filePath user f = filePath user g → f = g ∧ s.disk.existsAt (fileLoc env user f) = true
  moved : t.moved = true →
    s.index.fileSet (indexDir user) f ≠ none ∧ t.broken = false

/-- The disk and the index are those of `s`, and the record is `t`. -/
structure Kept (s : Store) (t : Trial) (m : (Local × Trial) × Store) : Prop where
  disk : m.2.disk = s.disk
  index : m.2.index = s.index
  record : m.1.2 = t

/-- The checks of a rename let it come to its move. -/
structure Movable (env : Env) (user f g : Bytes) (s : Store) : Prop where
  oldValid : isValidFilename f = true
  newValid : isValidFilename g = true
  apart : filePath user f ≠ filePath user g
  old : s.disk.existsAt (fileLoc env user f) = true
  new : s.disk.existsAt (fileLoc env user g) = false

/-- How a rename ends: its answer, its record, and what it has made of the files. -/
inductive RenameEnds (env : Env) (user f g : Bytes) (s : Store) : Bool → Trial → Disk → Index → Prop
  | refused {t : Trial} : t.moved = false → (isValidFilename f = true → isValidFilename g = true →
      t.threw = false → filePath user f ≠ filePath user g ∧
        (s.disk.existsAt (fileLoc env user f) = false ∨
          s.disk.existsAt (fileLoc env user g) = true)) →
      RenameEnds env user f g s false t s.disk s.index
  | same {t : Trial} : t.moved = false → t.threw = false → isValidFilename f = true →
      isValidFilename g = true → filePath user f = filePath user g →
      RenameEnds env user f g s true t s.disk s.index
  /-- the update of the index throws after the move -/
  | broken {t : Trial} {d : Disk} {ix : Index} : Movable env user f g s → t.moved = true →
      t.threw = false → t.broken = true → RenameEnds env user f g s false t d ix
  | moved {t : Trial} {d : Disk} (time : Bytes) : Movable env user f g s → t.moved = true →
      t.threw = false → t.broken = false →
        s.disk.rename (fileLoc env user f) (fileLoc env user g) = some d →
      RenameEnds env user f g s true t d ((s.index.removeFile (indexDir user) f).addFile
        (indexDir user) g (s.index.getFileSize (indexDir user) f) time)

/-- What an operation answers that turns an exception into `false`. -/
def verdict : Except Exn Bool → Bool
  | .ok b => b
  | .error _ => false

abbrev Ends (env : Env) (user f g : Bytes) (s : Store) (r : Except Exn Bool)
    (m : (Local × Trial) × Store) : Prop :=
  RenameEnds env user f g s (verdict r) m.1.2 m.2.disk m.2.index

section Rename

variable {env : Env} {user f g : Bytes} {s : Store} {t : Trial} {m m' : (Local × Trial) × Store}
variable {α : Type} {Q : Except Exn α → (Local × Trial) × Store → Prop}

lemma Kept.self (m : (Local × Trial) × Store) : Kept m.2 m.1.2 m := ⟨rfl, rfl, rfl⟩

lemma Kept.frame {o : Call} {r : Answer o} (h : Kept s t m) (hr : tried env o m r = some m')
    (hd : o.writesDisk = false) (hi : o.writesIndex = false) : Kept s (trial o t r) m' := by
  obtain ⟨⟨l, _⟩, s₁⟩ := m
  obtain ⟨⟨l', _⟩, s₂⟩ := m'
  obtain ⟨hdisk, hindex, rfl⟩ := h
  obtain ⟨hnext, rfl⟩ := Monitor.watch_eq_some.mp hr
  exact ⟨(next_disk hnext hd).trans hdisk, (next_index hnext hi).trans hindex, rfl⟩

lemma Kept.call {o : Call} {k : Answer o → Code α} (h : Kept s t m) (ho : isAside o = true)
    (hk : ∀ r m', Kept s t m' → Safe (tried env) (fun _ _ => True) (k r) Q m') :
    Safe (tried env) (fun _ _ => True) (.op o k) Q m := by
  refine ⟨trivial, fun r m' hr => hk r m' ?_⟩
  cases o with
  | pathAppend | acquireLockRef | fsExists | fsRename | addFile | removeFile => cases ho
  | createDirectories | fsRemove | openOut | write | closeOut => cases ho
  | _ => exact h.frame hr rfl rfl

/-- A call that may throw, and is noted when it does. -/
lemma Kept.attempt {ε : Type} {x : Except Exn ε}
    (h : Kept s { t with threw := t.threw || !x.isOk } m) :
    (∃ a, x = .ok a ∧ Kept s t m) ∨ ∃ e, x = .error e ∧ Kept s { t with threw := true } m := by
  cases x with
  | ok a =>
    refine .inl ⟨a, rfl, ?_⟩
    rwa [Except.isOk, Except.toBool, Bool.not_true, Bool.or_false] at h
  | error e =>
    refine .inr ⟨e, rfl, ?_⟩
    rwa [Except.isOk, Except.toBool, Bool.not_false, Bool.or_true] at h

lemma Kept.pathAppend {p q : Bytes} {k : Bytes → Code α} (h : Kept s t m)
    (herror : ∀ e m', Kept s { t with threw := true } m' → Q (.error e) m')
    (hok : ∀ m', Kept s t m' → Safe (tried env) (fun _ _ => True) (k (append p q)) Q m') :
    Safe (tried env) (fun _ _ => True) ((Sys.pathAppend p q).bind k) Q m := by
  refine ⟨trivial, fun x m' hx => ?_⟩
  have hframe := h.frame hx rfl rfl
  obtain ⟨⟨l, _⟩, s₁⟩ := m
  obtain ⟨⟨l', _⟩, s₂⟩ := m'
  obtain ⟨hnext, -⟩ := Monitor.watch_eq_some.mp hx
  rcases hframe.attempt with ⟨a, rfl, hkept⟩ | ⟨e, rfl, hkept⟩
  · obtain ha | ⟨_, ⟨⟩⟩ := pathAppend_answer hnext
    cases ha
    exact hok _ hkept
  · exact herror e _ hkept

lemma Kept.acquireLockRef {key : Bytes} {k : Unit → Code α} (h : Kept s t m)
    (herror : ∀ e m', Kept s { t with threw := true } m' → Q (.error e) m')
    (hok : ∀ m', Kept s t m' → Safe (tried env) (fun _ _ => True) (k ()) Q m') :
    Safe (tried env) (fun _ _ => True) ((Sys.acquireLockRef key).bind k) Q m := by
  refine ⟨trivial, fun x m' hx => ?_⟩
  rcases (h.frame hx rfl rfl).attempt with ⟨⟨⟩, rfl, hkept⟩ | ⟨e, rfl, hkept⟩
  · exact hok _ hkept
  · exact herror e _ hkept

lemma Kept.fsExists {p : Bytes} {k : Bool → Code α} (h : Kept s t m)
    (herror : ∀ e m', Kept s { t with threw := true } m' → Q (.error e) m')
    (hok : ∀ m', Kept s t m' →
      Safe (tried env) (fun _ _ => True) (k (s.disk.existsAt (resolve env.cwd p))) Q m') :
    Safe (tried env) (fun _ _ => True) ((Sys.fsExists p).bind k) Q m := by
  refine ⟨trivial, fun x m' hx => ?_⟩
  have hframe := h.frame hx rfl rfl
  obtain ⟨⟨l, _⟩, s₁⟩ := m
  obtain ⟨⟨l', _⟩, s₂⟩ := m'
  obtain ⟨hnext, -⟩ := Monitor.watch_eq_some.mp hx
  have hdisk : s₁.disk = s.disk := h.disk
  rcases hframe.attempt with ⟨a, rfl, hkept⟩ | ⟨e, rfl, hkept⟩
  · obtain ha | ⟨_, ⟨⟩⟩ := fsExists_answer hnext
    cases ha
    rw [hdisk]
    exact hok _ hkept
  · exact herror e _ hkept

lemma safe_unlockBoth {p q : Bytes} {r : Except Exn Bool} {k : Code Bool}
    (h : Ends env user f g s r m)
    (hk : ∀ m', Ends env user f g s r m' → Safe (tried env) (fun _ _ => True) k
      (Ends env user f g s) m') :
    Safe (tried env) (fun _ _ => True) ((unlockBoth p q).bind (fun _ => k)) (Ends env user f g s)
      m := by
  refine (Kept.self m).call rfl fun _ _ h₁ => h₁.call rfl fun _ m' h₂ => hk m' ?_
  rwa [Ends, h₂.disk, h₂.index, h₂.record]

lemma safe_answer {p q : Bytes} {b : Bool} (h : Ends env user f g s (.ok b) m) :
    Safe (tried env) (fun _ _ => True) (do
      unlockBoth p q
      releaseBoth p q
      pure b) (Ends env user f g s) m := by
  refine safe_unlockBoth h fun m₁ h₁ => ?_
  refine (Kept.self m₁).call rfl fun _ _ h₂ => h₂.call rfl fun _ m' h₃ => ?_
  show Ends env user f g s (.ok b) m'
  rwa [Ends, h₃.disk, h₃.index, h₃.record]

lemma safe_recordMove {p q : Bytes} {d : Disk} (hmove : Movable env user f g s)
    (hd : s.disk.rename (fileLoc env user f) (fileLoc env user g) = some d)
    (hmoved : m.1.2.moved = true) (hthrew : m.1.2.threw = false) (hbroken : m.1.2.broken = false)
    (hdisk : m.2.disk = d) (hindex : m.2.index = s.index) :
    Safe (tried env) (fun _ _ => True) (do
      let size ← Sys.getFileSize (indexDir user) f
      Sys.removeFile (indexDir user) f
      Sys.addFile (indexDir user) g size
      unlockBoth p q
      releaseBoth p q
      pure true) (Ends env user f g s) m := by
  refine ⟨trivial, fun size m₁ hsize => ?_⟩
  obtain ⟨⟨l, t₀⟩, s₀⟩ := m
  obtain ⟨⟨l₁, _⟩, s₁⟩ := m₁
  obtain ⟨hnext, rfl⟩ := Monitor.watch_eq_some.mp hsize
  obtain ⟨rfl, hm⟩ := Rules.answer_eq_some.mp hnext
  cases hm
  refine ⟨trivial, fun r m₂ hr => ?_⟩
  obtain ⟨⟨l₂, _⟩, s₂⟩ := m₂
  obtain ⟨hnext, rfl⟩ := Monitor.watch_eq_some.mp hr
  rw [next, Rules.orThrow_eq_some] at hnext
  obtain ⟨_, rfl, ⟨⟩⟩ | ⟨-, rfl, ⟨⟩⟩ := hnext
  swap
  · exact .broken hmove hmoved hthrew (Bool.or_true _)
  refine ⟨trivial, fun time m₃ hr => ?_⟩
  cases hr
  refine ⟨trivial, fun r m₄ hr => ?_⟩
  obtain ⟨⟨l₄, _⟩, s₄⟩ := m₄
  obtain ⟨hnext, rfl⟩ := Monitor.watch_eq_some.mp hr
  rw [next, Rules.orThrow_eq_some] at hnext
  obtain ⟨_, rfl, ⟨⟩⟩ | ⟨-, rfl, ⟨⟩⟩ := hnext
  swap
  · exact .broken hmove hmoved hthrew (Bool.or_true _)
  refine safe_answer ?_
  dsimp only at hdisk hindex
  subst hdisk
  rw [hindex]
  exact .moved time hmove hmoved hthrew
    ((Bool.or_false _).trans ((Bool.or_false _).trans hbroken)) hd

lemma safe_renameLocked (h : Kept s .start m) (hvf : isValidFilename f = true)
    (hvg : isValidFilename g = true) (hne : filePath user f ≠ filePath user g) :
    Safe (tried env) (fun _ _ => True)
      (renameLocked user f g (filePath user f) (filePath user g)) (Ends env user f g s) m := by
  have hthrown : ∀ (e : Exn) m', Kept s { Trial.start with threw := true } m' →
      Ends env user f g s (.error e) m' := fun e m' h' => by
    rw [Ends, h'.disk, h'.index, h'.record]
    exact .refused rfl nofun
  let missing := !s.disk.existsAt (fileLoc env user f) || s.disk.existsAt (fileLoc env user g)
  have hmissing : Safe (tried env) (fun _ _ => True) (do
      if !(← Sys.fsExists (filePath user f)) then pure true
      else Sys.fsExists (filePath user g)) (fun r m' => match r with
        | .ok b => Kept s .start m' ∧ b = missing
        | .error _ => Kept s { Trial.start with threw := true } m') m := by
    refine h.fsExists (fun e m' h' => h') fun m₁ h₁ => ?_
    split
    · rename_i hold
      exact ⟨h₁, by simp only [missing, fileLoc, hold, Bool.true_or]⟩
    rename_i hold
    rw [← Prog.bind_pure_right (Sys.fsExists (filePath user g))]
    refine h₁.fsExists (fun e m' h' => h') fun m₂ h₂ => ⟨h₂, ?_⟩
    simp only [Bool.not_eq_true] at hold
    simp only [missing, fileLoc, hold, Bool.false_or]
  refine safe_bind_of hmissing ?_
  rintro (e | b) m₁ h₁
  · exact hthrown e m₁ h₁
  obtain ⟨h₁, hb⟩ := h₁
  cases b with
  | true =>
    refine safe_answer ?_
    rw [Ends, h₁.disk, h₁.index, h₁.record]
    exact .refused rfl fun _ _ _ => ⟨hne, by simpa [missing] using hb.symm⟩
  | false =>
    have hmove : Movable env user f g s := by
      obtain ⟨hold, hnew⟩ : s.disk.existsAt (fileLoc env user f) = true ∧
          s.disk.existsAt (fileLoc env user g) = false := by simpa [missing] using hb.symm
      exact ⟨hvf, hvg, hne, hold, hnew⟩
    refine ⟨trivial, fun r m₂ hr => ?_⟩
    obtain ⟨⟨l₁, t₁⟩, s₁⟩ := m₁
    obtain ⟨⟨l₂, t₂⟩, s₂⟩ := m₂
    obtain ⟨hdisk, hindex, ht⟩ := h₁
    dsimp only at hdisk hindex ht
    subst ht
    obtain ⟨hnext, rfl⟩ := Monitor.watch_eq_some.mp hr
    rw [next, Rules.orThrow_eq_some] at hnext
    obtain ⟨_, rfl, hmap⟩ | ⟨-, rfl, ⟨⟩⟩ := hnext
    · obtain ⟨d, hd, hpair⟩ := Option.map_eq_some_iff.mp hmap
      cases hpair
      rw [hdisk] at hd
      exact safe_recordMove hmove hd rfl rfl rfl rfl hindex
    · exact hthrown _ _ ⟨hdisk, hindex, rfl⟩

lemma safe_renameFile (h : Kept s .start m) :
    Safe (tried env) (fun _ _ => True) (renameFile user f g) (fun r m' =>
      (∃ b, r = .ok b) ∧ Ends env user f g s r m') m := by
  have htry : Safe (tried env) (fun _ _ => True) (tryRenameFile user f g)
      (Ends env user f g s) m := by
    unfold tryRenameFile
    split
    · rename_i hinvalid
      rw [Prog.pure_eq, safe_pure, Ends, h.disk, h.index, h.record]
      refine .refused rfl fun hvf hvg => ?_
      rw [hvf, hvg] at hinvalid
      cases hinvalid
    rename_i hvalid
    obtain ⟨hvf, hvg⟩ : isValidFilename f = true ∧ isValidFilename g = true := by
      simpa using hvalid
    have herror : ∀ (e : Exn) m', Kept s { Trial.start with threw := true } m' →
        Ends env user f g s (.error e) m' := fun e m' h' => by
      rw [Ends, h'.disk, h'.index, h'.record]
      exact .refused rfl nofun
    refine h.pathAppend herror fun _ h => h.pathAppend herror fun _ h => ?_
    refine h.pathAppend herror fun _ h => h.pathAppend herror fun m' h => ?_
    split
    · rename_i heq
      rw [Prog.pure_eq, safe_pure, Ends, h.disk, h.index, h.record]
      exact .same rfl rfl hvf hvg heq
    rename_i hne
    refine h.acquireLockRef herror fun m₁ h₁ => h₁.acquireLockRef herror fun m₂ h₂ => ?_
    refine h₂.call rfl fun _ m₃ h₃ => ?_
    refine safe_tryCatch.mpr (safe_mono (safe_renameLocked h₃ hvf hvg hne) ?_)
    rintro (e | b) m₄ h₄
    · exact safe_unlockBoth h₄ fun m' h' => h'
    · exact h₄
  refine safe_tryCatch.mpr (safe_mono htry ?_)
  rintro (e | b) m' h'
  · exact ⟨⟨false, rfl⟩, h'⟩
  · exact ⟨⟨b, rfl⟩, h'⟩

end Rename

section Files

variable {env : Env} {user f g : Bytes} {s s' : Store} {t : Trial}

lemma Movable.locs_ne (h : Movable env user f g s) : fileLoc env user f ≠ fileLoc env user g := by
  intro heq
  have hold := h.old
  rw [heq, h.new] at hold
  cases hold

lemma Movable.moves {d : Disk} (h : Movable env user f g s)
    (hd : s.disk.rename (fileLoc env user f) (fileLoc env user g) = some d) :
    d.content (fileLoc env user g) = s.disk.content (fileLoc env user f) ∧
      d.existsAt (fileLoc env user f) = false := by
  obtain ⟨hcan, hmoves⟩ := Disk.rename_moves h.locs_ne hd
  have hnil : fileLoc env user g ≠ [] := by
    intro hnil
    have hparent := hcan.parent
    rw [hnil] at hparent
    cases hparent
  have hnew : s.disk.node (fileLoc env user g) = none :=
    Option.not_isSome_iff_eq_none.mp (by simpa [Disk.existsAt] using h.new)
  constructor
  · rw [Disk.content, hmoves.node, Disk.movedNode, if_pos List.prefix_rfl, List.drop_length,
      List.append_nil]
    rfl
  · have hout : ¬ fileLoc env user g <+: fileLoc env user f := by
      rintro ⟨rest, hrest⟩
      have hsource := hcan.source
      rw [← hrest] at hsource
      have hdir := s.disk.node_of_prefix hsource hnil fun hempty => h.locs_ne (by
        rw [← hrest, hempty, List.append_nil])
      rw [hnew] at hdir
      cases hdir
    rw [Disk.existsAt, hmoves.node, Disk.movedNode, if_neg hout, if_pos List.prefix_rfl]
    rfl

lemma fileSet_moved (ix : Index) (dir time : Bytes) (hne : g ≠ f) :
    ((ix.removeFile dir f).addFile dir g (ix.getFileSize dir f) time).fileSet dir g =
        some ((ix.fileSet dir f).getD 0) ∧
      ((ix.removeFile dir f).addFile dir g (ix.getFileSize dir f) time).fileSet dir f = none := by
  rw [Index.fileSet_addFile, Index.fileSet_removeFile, Index.getFileSize_eq]
  exact ⟨Function.update_self .., (Function.update_of_ne hne.symm ..).trans
    (Function.update_self ..)⟩

/-- The answer to a rename that ends as `h` says is the truth exactly under the two conditions. -/
lemma truthful_iff_of_ends {b : Bool} {r : Except Exn (Reply × Bytes)}
    (h : RenameEnds env user f g s b t s'.disk s'.index) (hr : Answered200 r ↔ b = true) :
    Truthful env user f g s r t s' ↔ Sound env user f g s t := by
  generalize hdisk : s'.disk = d at h
  generalize hindex : s'.index = ix at h
  cases h with
  | refused hmoved hpath =>
    have hno : ¬ Answered200 r := by simp [hr]
    refine iff_of_true ⟨iff_of_false hno ?_, fun h => (hno h).elim, fun h => (hno h).elim,
      fun h => (hno h).elim, fun _ => ⟨fun m => by rw [hdisk], hindex⟩⟩ ⟨?_, ?_⟩
    · rintro ⟨hvf, hvg, hold, hnew, hthrew⟩
      obtain ⟨hne, hmissing⟩ := hpath hvf hvg hthrew
      rcases hmissing with hmissing | htaken
      · rw [hold] at hmissing
        cases hmissing
      · rcases hnew with rfl | hfree
        · exact hne rfl
        · rw [htaken] at hfree
          cases hfree
    · intro hvf hvg hthrew heq
      exact ((hpath hvf hvg hthrew).1 heq).elim
    · intro h
      rw [hmoved] at h
      cases h
  | same hmoved hthrew hvf hvg heq =>
    have hyes : Answered200 r := hr.mpr rfl
    constructor
    · intro h
      obtain ⟨-, -, hold, hnew, -⟩ := h.answer.mp hyes
      refine ⟨fun _ _ _ _ => ⟨?_, hold⟩, fun h => by rw [hmoved] at h; cases h⟩
      rcases hnew with rfl | hfree
      · rfl
      · rw [fileLoc, ← heq, ← fileLoc, hold] at hfree
        cases hfree
    · intro h
      obtain ⟨rfl, hold⟩ := h.same hvf hvg hthrew heq
      exact ⟨iff_of_true hyes ⟨hvf, hvg, hold, Or.inl rfl, hthrew⟩, fun _ => by rw [hdisk],
        fun _ => by rw [hindex], fun _ hne => (hne rfl).elim, fun hno => (hno hyes).elim⟩
  | broken hmove hmoved hthrew hbroken =>
    have hno : ¬ Answered200 r := by simp [hr]
    refine iff_of_false (fun h => hno (h.answer.mpr ?_)) fun h => ?_
    · exact ⟨hmove.oldValid, hmove.newValid, hmove.old, Or.inr hmove.new, hthrew⟩
    · rw [(h.moved hmoved).2] at hbroken
      cases hbroken
  | moved time hmove hmoved hthrew hbroken hd =>
    have hyes : Answered200 r := hr.mpr rfl
    have hne : g ≠ f := fun heq => hmove.apart (by rw [heq])
    obtain ⟨hcontent, hgone⟩ := hmove.moves hd
    obtain ⟨hsize, hentry⟩ := fileSet_moved s.index (indexDir user) time hne
    rw [← hindex] at hsize hentry
    constructor
    · intro h
      refine ⟨fun _ _ _ heq => (hmove.apart heq).elim, fun _ => ⟨fun hnone => ?_, hbroken⟩⟩
      have hold := h.size hyes
      rw [hsize, hnone] at hold
      cases hold
    · intro h
      obtain ⟨hsome, -⟩ := h.moved hmoved
      refine ⟨iff_of_true hyes
        ⟨hmove.oldValid, hmove.newValid, hmove.old, Or.inr hmove.new, hthrew⟩,
        fun _ => by rw [hdisk, hcontent], fun _ => ?_, fun _ _ => ⟨by rw [hdisk, hgone], hentry⟩,
        fun hno => (hno hyes).elim⟩
      obtain ⟨n, hn⟩ := Option.ne_none_iff_exists'.mp hsome
      rw [hsize, hn]
      rfl

end Files

section Answer

variable {env : Env} {host : Endian} {user : Bytes} {req : Request} {payload : Bytes}

lemma answered_respond {cmd : UInt32} {status : StatusCode} {body user' : Bytes} :
    Answered200 (.ok (respond cmd status body, user')) ↔ status = .ok := by
  constructor
  · rintro ⟨header, _, _, heq, hstatus⟩
    cases heq
    exact StatusCode.code_injective hstatus
  · rintro rfl
    exact ⟨_, _, _, rfl, rfl⟩

lemma dispatch_rename (hcmd : req.header.command = CommandType.rename.code) :
    dispatch host user req payload = (rename user req.filename payload req.header.command).bind
      (fun reply => .pure (reply, user)) := by
  have hcode : CommandType.ofCode req.header.command = some .rename :=
    (CommandType.ofCode_eq_some _ _).mpr hcmd
  rw [dispatch, hcode]
  rfl

lemma safe_dispatch (hcmd : req.header.command = CommandType.rename.code) (huser : user ≠ [])
    (l : Local) (s : Store) :
    Safe (tried env) (fun _ _ => True) (dispatch host user req payload) (fun r m' => ∃ b,
      (Answered200 r ↔ b = true) ∧ RenameEnds env user req.filename payload s b m'.1.2 m'.2.disk
        m'.2.index) ((l, .start), s) := by
  rw [dispatch_rename hcmd, rename, if_neg huser]
  refine safe_bind.mpr (safe_bind_of (safe_renameFile ⟨rfl, rfl, rfl⟩) ?_)
  rintro _ m' ⟨⟨b, rfl⟩, hends⟩
  cases b with
  | true => exact ⟨true, iff_of_true (answered_respond.mpr rfl) rfl, hends⟩
  | false => exact ⟨false, iff_of_false (fun h => by cases answered_respond.mp h)
      (by rintro ⟨⟩), hends⟩

end Answer

/-- A RENAME answers truthfully exactly when, of two accepted names with one path, the second is the
first and the file exists, and what is moved is in the index, whose entry follows it. -/
theorem rename_truthful_iff (env : Env) (host : Endian) (user : Bytes) (huser : user ≠ [])
    (req : Request) (hcmd : req.header.command = CommandType.rename.code) (payload : Bytes)
    (l : Local) (s : Store) (r : Except Exn (Reply × Bytes)) (l' : Local) (t : Trial) (s' : Store)
    (hrun : Steps (tried env) (dispatch host user req payload, ((l, .start), s))
      (Prog.ofExcept r, ((l', t), s'))) :
    Truthful env user req.filename payload s r t s' ↔
      Sound env user req.filename payload s t := by
  obtain ⟨b, hanswer, hends⟩ := safe_result (safe_dispatch hcmd huser l s) hrun
  exact truthful_iff_of_ends hends hanswer

/-- A RENAME of the file `x`. -/
def ofX : Request := ⟨makeRequest .rename 1 1 0, [], bytes "x"⟩

/-- A RENAME of the file `x` by bob, with the given answers. -/
def renamed (new : Bytes) (s : Store) :
    Option (Prog.Running Call Answer Exn (Reply × Bytes) ((Local × Trial) × Store)) :=
  follow (fun o m => oblige .atRoot o (m.1.1, m.2)) (tried .atRoot) 100
    (dispatch .little (bytes "bob") ofX new) ((.fresh 0 [] false, .start), s)

def isOk : Code (Reply × Bytes) → Bool
  | .pure (.message header _, _) => header.status == StatusCode.ok.code
  | _ => false

lemma exists_of_isOk {p : Code (Reply × Bytes)} (h : isOk p = true) :
    ∃ r, p = Prog.ofExcept r ∧ Answered200 r := by
  cases p with
  | pure a =>
    obtain ⟨reply, user'⟩ := a
    cases reply with
    | message header body => exact ⟨.ok _, rfl, header, body, user', rfl, eq_of_beq h⟩
    | streamed => cases h
    | ended => cases h
  | throw e => cases h
  | op o k => cases h

/-- The only file is `x` of bob, of three bytes. -/
def oneFile : Store :=
  { Store.fresh oldVersion with
    index := Index.empty.addFile (indexDir (bytes "bob")) (bytes "x") 3 [] }

theorem rename_truthful_bob : ∃ r m, renamed (bytes "y") oneFile = some (Prog.ofExcept r, m) ∧
    Answered200 r ∧
      Truthful .atRoot (bytes "bob") (bytes "x") (bytes "y") oneFile r m.1.2 m.2 := by
  have hend : (renamed (bytes "y") oneFile).any (fun c => isOk c.1 && !c.2.1.2.broken) = true := by
    decide +kernel
  obtain ⟨⟨p, ⟨l, t⟩, s⟩, hrun, hcheck⟩ := (Option.any_eq_true _ _).mp hend
  obtain ⟨hok, hbroken⟩ := Bool.and_eq_true_iff.mp hcheck
  obtain ⟨r, rfl, hr⟩ := exists_of_isOk hok
  refine ⟨r, _, hrun, hr, ?_⟩
  refine (rename_truthful_iff .atRoot .little (bytes "bob") (by decide) ofX rfl
    (bytes "y") _ oneFile
    r l t s (steps_of_follow hrun)).mpr ⟨fun _ _ _ heq => ?_, fun _ => ⟨?_, ?_⟩⟩
  · exact absurd heq (by decide)
  · decide +kernel
  · exact (Bool.not_eq_true' _).mp hbroken

/-- A missing file is renamed to itself. -/
theorem rename_not_truthful : ¬ ∀ (env : Env) (host : Endian) (user : Bytes), user ≠ [] →
    ∀ (req : Request), req.header.command = CommandType.rename.code → ∀ (payload : Bytes)
    (l : Local) (s : Store), Agree env user s → ∀ (r : Except Exn (Reply × Bytes)) (l' : Local)
    (t : Trial) (s' : Store), Steps (tried env) (dispatch host user req payload, ((l, .start), s))
      (Prog.ofExcept r, ((l', t), s')) → Truthful env user req.filename payload s r t s' := by
  intro hall
  have hagree : Agree .atRoot (bytes "bob") (.fresh (.ofDir [driveRoot 0x43])) := by
    intro f _
    rw [Store.fresh, Disk.content_ofDir]
    rfl
  have hend : (renamed (bytes "x") (.fresh (.ofDir [driveRoot 0x43]))).any
      (fun c => isOk c.1) = true := by decide +kernel
  obtain ⟨⟨p, ⟨l, t⟩, s⟩, hrun, hok⟩ := (Option.any_eq_true _ _).mp hend
  obtain ⟨r, rfl, hr⟩ := exists_of_isOk hok
  have htruth := hall .atRoot .little (bytes "bob") (by decide) ofX rfl (bytes "x") _ _
    hagree r l t s (steps_of_follow hrun)
  have hold := (htruth.answer.mp hr).2.2.1
  exact absurd hold (by decide +kernel)

end Mtfss.TruthfulRename
