import Mtfss.System.Paths

/-! A disk: a tree of directories and files, and the `std::filesystem` calls on it. -/

namespace Mtfss

open Paths

inductive Node
  | dir
  | file (content : Bytes)
  deriving DecidableEq

/-- The tree as a finitely supported map from places to nodes. Whatever exists lies in a directory
and has a proper name, and no file is a root. `denied` are the places the system refuses to open. -/
structure Disk where
  node : Loc → Option Node
  denied : Loc → Bool
  support : List Loc
  mem_support : ∀ l, node l ≠ none → l ∈ support
  in_dir : ∀ l name, node (l ++ [name]) ≠ none → l ≠ [] → node l = some .dir
  root_dir : ∀ l, l.length ≤ 1 → ∀ c, node l ≠ some (.file c)
  nowhere : node [] = none
  named : ∀ l, node l ≠ none → ∀ name ∈ l.tail, IsName name

namespace Disk

def isDir (d : Disk) (l : Loc) : Bool := d.node l == some .dir

/-- `fs::exists` -/
def existsAt (d : Disk) (l : Loc) : Bool := (d.node l).isSome

def content (d : Disk) (l : Loc) : Option Bytes :=
  match d.node l with
  | some (.file c) => some c
  | _ => none

/-- `fs::is_regular_file` -/
def isRegularFile (d : Disk) (l : Loc) : Bool := (d.content l).isSome

/-- The place lies in a directory, under a name that an entry can have. -/
def parentIsDir (d : Disk) (l : Loc) : Bool :=
  1 < l.length && d.isDir l.dropLast && l.getLast?.all (fun name => decide (IsName name))

lemma parentIsDir_iff {d : Disk} {l : Loc} : d.parentIsDir l = true ↔
    1 < l.length ∧ d.node l.dropLast = some .dir ∧
      ∀ name, l.getLast? = some name → IsName name := by
  simp [parentIsDir, isDir, Option.all_eq_true, and_assoc]

lemma parentIsDir_concat {d : Disk} {l : Loc} {name : Bytes} :
    d.parentIsDir (l ++ [name]) = true ↔ l ≠ [] ∧ d.node l = some .dir ∧ IsName name := by
  rw [parentIsDir_iff, ← List.length_pos_iff]
  simp

/-- The disk on which nothing but the directory `l` and those above it exist. -/
def ofDir (l : Loc) : Disk where
  node m := if m ≠ [] ∧ m <+: l ∧ ∀ name ∈ m.tail, IsName name then some .dir else none
  denied _ := false
  support := l.inits
  mem_support m hm := by
    by_cases h : m ≠ [] ∧ m <+: l ∧ ∀ name ∈ m.tail, IsName name
    · exact (List.mem_inits m l).mpr h.2.1
    · simp [h] at hm
  in_dir m name hm hne := by
    by_cases h : m ++ [name] <+: l ∧ ∀ x ∈ (m ++ [name]).tail, IsName x
    · have hml : m <+: l := (List.prefix_append m [name]).trans h.1
      have hnames : ∀ x ∈ m.tail, IsName x := fun x hx =>
        h.2 x (by simp [List.tail_append_of_ne_nil hne, hx])
      rw [if_pos ⟨hne, hml, hnames⟩]
    · rw [if_neg fun hall => h hall.2] at hm
      exact (hm rfl).elim
  root_dir m hm c := by
    split <;> simp
  nowhere := by simp
  named m hm := by
    by_contra hnames
    rw [if_neg fun hall => hnames hall.2.2] at hm
    exact hm rfl

@[simp] lemma content_eq_some {d : Disk} {l : Loc} {c : Bytes} :
    d.content l = some c ↔ d.node l = some (.file c) := by
  unfold content
  split <;> simp_all

lemma content_ofDir (l m : Loc) : (ofDir l).content m = none := by
  apply Option.eq_none_iff_forall_ne_some.mpr
  intro c h
  have hnode := content_eq_some.mp h
  simp only [ofDir] at hnode
  split at hnode <;> cases hnode

lemma node_of_prefix (d : Disk) {l m : Loc} (h : d.node (l ++ m) ≠ none) (hl : l ≠ [])
    (hm : m ≠ []) : d.node l = some .dir := by
  induction m using List.reverseRecOn with
  | nil => exact (hm rfl).elim
  | append_singleton m name ih =>
    have hd := d.in_dir (l ++ m) name (by simpa using h) (by simp [hl])
    cases m with
    | nil => simpa using hd
    | cons a m => exact ih (by simp [hd]) (by simp)

lemma parentIsDir_of_exists (d : Disk) {l : Loc} {name : Bytes} (hl : l ≠ [])
    (h : d.node (l ++ [name]) ≠ none) : d.parentIsDir (l ++ [name]) = true := by
  have hname := d.named _ h name (by simp [List.tail_append_of_ne_nil hl])
  exact parentIsDir_concat.mpr ⟨hl, d.in_dir l name h hl, hname⟩

/-- The disk with the file `c` at `l`, in an existing directory. -/
def setFile (d : Disk) (l : Loc) (c : Bytes) (hp : d.parentIsDir l = true)
    (hl : d.node l ≠ some .dir) : Disk where
  node m := if m = l then some (.file c) else d.node m
  denied := d.denied
  support := l :: d.support
  mem_support m hm := by
    by_cases h : m = l
    · simp [h]
    · exact List.mem_cons_of_mem _ (d.mem_support m (by simpa [h] using hm))
  in_dir m name hm hne := by
    by_cases h : m ++ [name] = l
    · have hd : d.node m = some .dir := by
        subst h
        exact (parentIsDir_concat.mp hp).2.1
      have hml : m ≠ l := by
        rintro rfl
        exact hl hd
      simp [hml, hd]
    · have hd := d.in_dir m name (by simpa [h] using hm) hne
      have hml : m ≠ l := by
        rintro rfl
        exact hl hd
      simp [hml, hd]
  root_dir m hm c' := by
    have hml : m ≠ l := by
      rintro rfl
      have := (parentIsDir_iff.mp hp).1
      omega
    simpa [hml] using d.root_dir m hm c'
  nowhere := by
    have hne : [] ≠ l := by
      rintro rfl
      simpa using (parentIsDir_iff.mp hp).1
    rw [if_neg hne, d.nowhere]
  named m hm := by
    by_cases h : m = l
    · subst h
      rcases List.eq_nil_or_concat m with rfl | ⟨m, name, rfl⟩
      · simp
      · rw [List.concat_eq_append] at hp ⊢
        obtain ⟨hne, hdir, hname⟩ := parentIsDir_concat.mp hp
        rw [List.tail_append_of_ne_nil hne]
        intro x hx
        rcases List.mem_append.mp hx with hx | hx
        · exact d.named m (by simp [hdir]) x hx
        · rwa [List.mem_singleton.mp hx]
    · exact d.named m (by simpa [h] using hm)

/-- `std::ofstream` on a path: the file is created, or emptied. -/
def openOut (d : Disk) (l : Loc) : Option Disk :=
  if h : d.parentIsDir l = true ∧ d.node l ≠ some .dir ∧ d.denied l = false then
    some (d.setFile l [] h.1 h.2.1)
  else none

/-- The file at `l`, if there is one, gets the content `f c`. -/
def modify (d : Disk) (l : Loc) (f : Bytes → Bytes) : Disk where
  node m := if m = l then (d.node m).map (fun n => match n with
    | .dir => .dir
    | .file c => .file (f c)) else d.node m
  denied := d.denied
  support := d.support
  mem_support m hm := d.mem_support m (by
    intro h
    simp [h] at hm)
  in_dir m name hm hne := by
    have hd := d.in_dir m name (by
      intro h
      simp [h] at hm) hne
    simp [hd]
  root_dir m hm c := by
    have h := d.root_dir m hm
    cases hn : d.node m with
    | none => simp
    | some n => cases n <;> simp_all
  nowhere := by simp [d.nowhere]
  named m hm := d.named m (by
    intro h
    simp [h] at hm)

/-- `std::ifstream` on a path. -/
def canRead (d : Disk) (l : Loc) : Bool := d.isRegularFile l && !d.denied l

/-- `fs::create_directories`, `none` when it throws. -/
def createDirectories (d : Disk) (l : Loc) : Option Disk :=
  if h : d.node (l.take 1) = some .dir ∧ (∀ n ≤ l.length, d.isRegularFile (l.take n) = false) ∧
      ∀ name ∈ l.tail, IsName name then
    some {
      node := fun m => if m ≠ [] ∧ m <+: l then some .dir else d.node m
      denied := d.denied
      support := l.inits ++ d.support
      mem_support := by
        intro m hm
        by_cases hml : m ≠ [] ∧ m <+: l
        · exact List.mem_append_left _ ((List.mem_inits m l).mpr hml.2)
        · exact List.mem_append_right _ (d.mem_support m (by simpa [hml] using hm))
      in_dir := by
        intro m name hm hne
        by_cases hml : m <+: l
        · simp [hne, hml]
        · have hmn : ¬ (m ++ [name] <+: l) := fun hp => hml ((List.prefix_append m [name]).trans hp)
          have hd := d.in_dir m name (by simpa [hmn] using hm) hne
          simp [hml, hd]
      root_dir := by
        intro m hm c
        by_cases hml : m ≠ [] ∧ m <+: l
        · simp [hml]
        · simpa [hml] using d.root_dir m hm c
      nowhere := by simp [d.nowhere]
      named := by
        intro m hm
        by_cases hml : m ≠ [] ∧ m <+: l
        · obtain ⟨hne, t, rfl⟩ := hml
          intro name hname
          exact h.2.2 name (by simp [List.tail_append_of_ne_nil hne, hname])
        · exact d.named m (by simpa [hml] using hm) }
  else none

def isEmptyDir (d : Disk) (l : Loc) : Bool :=
  d.support.all (fun m => !(1 < m.length && m.dropLast == l && d.existsAt m))

lemma isEmptyDir_iff (d : Disk) {l : Loc} (hl : l ≠ []) :
    d.isEmptyDir l = true ↔ ∀ name, d.node (l ++ [name]) = none := by
  have hlen : 0 < l.length := List.length_pos_of_ne_nil hl
  simp only [isEmptyDir, List.all_eq_true, Bool.not_eq_true', Bool.and_eq_false_iff]
  constructor
  · intro h name
    by_contra hn
    rcases h (l ++ [name]) (d.mem_support _ hn) with (h | h) | h
    · simp only [List.length_append, List.length_singleton, decide_eq_false_iff_not] at h
      omega
    · simp at h
    · simp only [existsAt, Option.isSome_eq_false_iff, Option.isNone_iff_eq_none] at h
      exact hn h
  · intro h m _
    rcases List.eq_nil_or_concat m with rfl | ⟨m, name, rfl⟩
    · simp
    · by_cases hm : m = l
      · subst hm
        simp [existsAt, h name]
      · simp [hm]

/-- The disk without the file or the empty directory at `l`. -/
def erase (d : Disk) (l : Loc) (h : ∀ name, d.node (l ++ [name]) = none) : Disk where
  node m := if m = l then none else d.node m
  denied := d.denied
  support := d.support
  mem_support m hm := d.mem_support m (by
    intro hn
    simp [hn] at hm)
  in_dir m name hm hne := by
    have hm' : d.node (m ++ [name]) ≠ none := by
      intro hn
      simp [hn] at hm
    have hml : m ≠ l := by
      rintro rfl
      exact hm' (h name)
    simpa [hml] using d.in_dir m name hm' hne
  root_dir m hm c := by
    by_cases hml : m = l
    · simp [hml]
    · simpa [hml] using d.root_dir m hm c
  nowhere := by simp [d.nowhere]
  named m hm := d.named m (by
    intro hn
    simp [hn] at hm)

lemma no_child_of_file (d : Disk) {l : Loc} {c : Bytes} (h : d.node l = some (.file c))
    (name : Bytes) : d.node (l ++ [name]) = none := by
  by_contra hn
  have hl : l ≠ [] := by
    rintro rfl
    exact d.root_dir [] (by simp) c h
  simp [d.in_dir l name hn hl] at h

/-- `fs::remove`: whether something was removed, `none` when it throws. -/
def remove (d : Disk) (l : Loc) : Option (Bool × Disk) :=
  match h : d.node l with
  | none => some (false, d)
  | some (.file _) => some (true, d.erase l (d.no_child_of_file h))
  | some .dir =>
    if he : l ≠ [] ∧ d.isEmptyDir l = true then
      some (true, d.erase l ((d.isEmptyDir_iff he.1).mp he.2))
    else none

/-- What `fs::rename` checks before it moves what is at `p` to `q`. -/
structure CanMove (d : Disk) (p q : Loc) : Prop where
  source : d.node p ≠ none
  parent : d.parentIsDir q = true
  apart : ¬ p <+: q
  /-- Only a file can be replaced, and only by a file. -/
  target : d.node q = none ∨ (d.isRegularFile q = true ∧ d.isRegularFile p = true)

instance (d : Disk) (p q : Loc) : Decidable (d.CanMove p q) :=
  decidable_of_iff (d.node p ≠ none ∧ d.parentIsDir q = true ∧ ¬ p <+: q ∧
      (d.node q = none ∨ (d.isRegularFile q = true ∧ d.isRegularFile p = true)))
    ⟨fun ⟨h₁, h₂, h₃, h₄⟩ => ⟨h₁, h₂, h₃, h₄⟩, fun h => ⟨h.1, h.2, h.3, h.4⟩⟩

/-- The node at `m` after what is at `p` has moved to `q`. -/
def movedNode (d : Disk) (p q m : Loc) : Option Node :=
  if q <+: m then d.node (p ++ m.drop q.length)
  else if p <+: m then none
  else d.node m

lemma movedNode_in_dir {d : Disk} {p q : Loc} (h : d.CanMove p q) (m : Loc) (name : Bytes)
    (hm : d.movedNode p q (m ++ [name]) ≠ none) (hne : m ≠ []) :
    d.movedNode p q m = some .dir := by
  have hpne : p ≠ [] := by
    rintro rfl
    exact h.apart (List.nil_prefix)
  by_cases hq : q <+: m ++ [name]
  · rcases List.prefix_concat_iff.mp hq with rfl | hqm
    · have hqm : ¬ m ++ [name] <+: m := fun hp => by
        have hlen := hp.length_le
        simp only [List.length_append, List.length_singleton] at hlen
        omega
      have hpm : ¬ p <+: m := fun hp => h.apart (hp.trans (List.prefix_append m [name]))
      have hd : d.node m = some .dir := (parentIsDir_concat.mp h.parent).2.1
      simp [movedNode, hqm, hpm, hd]
    · obtain ⟨t, rfl⟩ := hqm
      have hd : d.node ((p ++ t) ++ [name]) ≠ none := by
        simpa [movedNode, List.append_assoc] using hm
      simpa [movedNode] using d.in_dir (p ++ t) name hd (by simp [hpne])
  · have hqm : ¬ q <+: m := fun hp => hq (hp.trans (List.prefix_append m [name]))
    by_cases hp : p <+: m ++ [name]
    · simp [movedNode, hq, hp] at hm
    · have hpm : ¬ p <+: m := fun hpm => hp (hpm.trans (List.prefix_append m [name]))
      have hd : d.node (m ++ [name]) ≠ none := by simpa [movedNode, hq, hp] using hm
      simpa [movedNode, hqm, hpm] using d.in_dir m name hd hne

lemma movedNode_named {d : Disk} {p q : Loc} (h : d.CanMove p q) (m : Loc)
    (hm : d.movedNode p q m ≠ none) : ∀ name ∈ m.tail, IsName name := by
  have hpne : p ≠ [] := fun hp => h.source (hp ▸ d.nowhere)
  by_cases hq : q <+: m
  · obtain ⟨t, rfl⟩ := hq
    have hd : d.node (p ++ t) ≠ none := by simpa [movedNode] using hm
    have hnames := d.named _ hd
    rw [List.tail_append_of_ne_nil hpne] at hnames
    rcases List.eq_nil_or_concat q with rfl | ⟨q, last, rfl⟩
    · simpa using (parentIsDir_iff.mp h.parent).1
    · have hparent := h.parent
      rw [List.concat_eq_append] at hparent ⊢
      obtain ⟨hqne, hdir, hlast⟩ := parentIsDir_concat.mp hparent
      rw [List.append_assoc, List.tail_append_of_ne_nil hqne]
      intro name hname
      rcases List.mem_append.mp hname with hname | hname
      · exact d.named q (by simp [hdir]) name hname
      · rcases List.mem_cons.mp hname with rfl | hname
        · exact hlast
        · exact hnames name (List.mem_append_right _ hname)
  · by_cases hp : p <+: m
    · simp [movedNode, hq, hp] at hm
    · exact d.named m (by simpa [movedNode, hq, hp] using hm)

def move (d : Disk) (p q : Loc) (h : d.CanMove p q) : Disk where
  node := d.movedNode p q
  denied := d.denied
  support := d.support ++ d.support.map (fun m => q ++ m.drop p.length)
  mem_support m hm := by
    by_cases hq : q <+: m
    · obtain ⟨t, rfl⟩ := hq
      have hd : d.node (p ++ t) ≠ none := by simpa [movedNode] using hm
      exact List.mem_append_right _ (List.mem_map.mpr ⟨p ++ t, d.mem_support _ hd, by simp⟩)
    · by_cases hp : p <+: m
      · simp [movedNode, hq, hp] at hm
      · exact List.mem_append_left _ (d.mem_support m (by simpa [movedNode, hq, hp] using hm))
  in_dir := movedNode_in_dir h
  root_dir m hm c := by
    have hqlen := (parentIsDir_iff.mp h.parent).1
    have hq : ¬ q <+: m := fun hp => by
      have := hp.length_le
      omega
    by_cases hp : p <+: m
    · simp [movedNode, hq, hp]
    · simpa [movedNode, hq, hp] using d.root_dir m hm c
  nowhere := by
    have hqne : q ≠ [] := by
      rintro rfl
      simpa using (parentIsDir_iff.mp h.parent).1
    have hpne : p ≠ [] := fun hp => h.source (hp ▸ d.nowhere)
    simp [movedNode, hqne, hpne, d.nowhere]
  named := movedNode_named h

/-- `fs::rename`, `none` when it throws. -/
def rename (d : Disk) (p q : Loc) : Option Disk :=
  if p = q ∧ d.node p ≠ none then some d
  else if h : d.CanMove p q then some (d.move p q h)
  else none

end Disk

end Mtfss
