import Mtfss.Common.Bytes
import Mathlib.Data.List.Infix
import Mathlib.Data.List.TakeWhile

/-! `std::filesystem::path` on Windows, and the places on disk that paths denote. -/

namespace Mtfss.Paths

def isSep (b : Byte) : Bool := b == slash || b == backslash

/-- The root name of a path: `C:` or `\\host`. -/
def rootName : Bytes → Bytes
  | c :: d :: rest =>
    if !isSep c && d == colon then [c, d]
    else if isSep c && d == c then
      match rest with
      | e :: _ => if isSep e then [] else c :: d :: rest.takeWhile (fun b => !isSep b)
      | [] => []
    else []
  | _ => []

def relative (p : Bytes) : Bytes := p.drop (rootName p).length

def hasRootDirectory (p : Bytes) : Bool := (relative p).head?.any isSep

def isAbsolute (p : Bytes) : Bool := rootName p != [] && hasRootDirectory p

def hasFilename (p : Bytes) : Bool := (relative p).getLast?.any (fun b => !isSep b)

/-- `p / q`. A right operand with a root of its own replaces the left one. -/
def append (p q : Bytes) : Bytes :=
  if isAbsolute q || (rootName q != [] && rootName q != rootName p) then q
  else if hasRootDirectory q then rootName p ++ relative q
  else if hasFilename p || (!hasRootDirectory p && isAbsolute p) then
    p ++ backslash :: relative q
  else p ++ relative q

/-- `p.filename()` -/
def filename (p : Bytes) : Bytes := (((relative p).splitOnP isSep).getLast?).getD []

/-- A place in the file system: a root and the names on the way down from it. -/
abbrev Loc := List Bytes

/-- The current drive, and the working directory of each drive. -/
structure Cwd where
  drive : Byte
  dirs : Byte → List Bytes

def upper (b : Byte) : Byte := if 0x61 ≤ b && b ≤ 0x7A then b - 0x20 else b

def driveRoot (d : Byte) : Bytes := [upper d, colon]

def workingDir (cwd : Cwd) (d : Byte) : Loc := driveRoot d :: cwd.dirs (upper d)

def startLoc (cwd : Cwd) (p : Bytes) : Loc :=
  match rootName p with
  | [] => if hasRootDirectory p then [driveRoot cwd.drive] else workingDir cwd cwd.drive
  | [d, _] => if hasRootDirectory p then [driveRoot d] else workingDir cwd d
  | host => [host.map (fun b => if isSep b then backslash else b)]

/-- `..`, which stays where it is at a root. -/
def parent (l : Loc) : Loc := if l.length ≤ 1 then l else l.dropLast

def enter (l : Loc) (name : Bytes) : Loc :=
  if name = [] ∨ name = [dot] then l
  else if name = [dot, dot] then parent l
  else l ++ [name]

/-- The path as the system reads it, from `c_str()`: a NUL byte ends it. -/
def cString (p : Bytes) : Bytes := p.takeWhile (fun b => b != nul)

/-- Where the components of a path lead, with `.`, `..` and repeated separators resolved. -/
def walk (cwd : Cwd) (p : Bytes) : Loc :=
  ((relative p).splitOnP isSep).foldl enter (startLoc cwd p)

/-- The place a path denotes. Where it is empty, or begins with a NUL byte, that is no place. -/
def resolve (cwd : Cwd) (p : Bytes) : Loc :=
  if cString p = [] then [] else walk cwd (cString p)

/-- A single name below a directory: not empty, not `.` or `..`, no separator and no NUL byte. -/
structure IsName (name : Bytes) : Prop where
  ne_nil : name ≠ []
  ne_dot : name ≠ [dot]
  ne_dots : name ≠ [dot, dot]
  noSep : ∀ b ∈ name, isSep b = false
  noNul : nul ∉ name

/-- A name that no drive designator begins. -/
structure IsPlain (name : Bytes) : Prop extends IsName name where
  noDrive : rootName name = []

instance : DecidablePred IsName := fun name =>
  decidable_of_iff (name ≠ [] ∧ name ≠ [dot] ∧ name ≠ [dot, dot] ∧
      name.all (fun b => !isSep b) = true ∧ nul ∉ name)
    ⟨fun ⟨h₁, h₂, h₃, h₄, h₅⟩ => ⟨h₁, h₂, h₃, by simpa using h₄, h₅⟩,
      fun h => ⟨h.ne_nil, h.ne_dot, h.ne_dots, by simpa using h.noSep, h.noNul⟩⟩

lemma nul_notMem_cString (p : Bytes) : nul ∉ cString p := by
  intro h
  simpa using List.mem_takeWhile_imp h

lemma cString_of_noNul {p : Bytes} (h : nul ∉ p) : cString p = p := by
  rw [cString, List.takeWhile_eq_self_iff]
  intro b hb
  have hne : b ≠ nul := fun he => h (he ▸ hb)
  simpa using hne

lemma cString_append {p : Bytes} (h : nul ∉ p) (q : Bytes) : cString (p ++ q) = p ++ cString q := by
  apply List.takeWhile_append_of_pos
  intro b hb
  have hne : b ≠ nul := fun he => h (he ▸ hb)
  simpa using hne

lemma cString_append_of_mem {p : Bytes} (h : nul ∈ p) (q : Bytes) :
    cString (p ++ q) = cString p := by
  induction p with
  | nil => simp at h
  | cons b p ih =>
    by_cases hb : b = nul
    · simp [cString, hb]
    · have hrest : nul ∈ p := (List.mem_cons.mp h).resolve_left (Ne.symm hb)
      have hcut := ih hrest
      simp only [cString] at hcut
      simp [cString, hb, hcut]

lemma resolve_of_noNul (cwd : Cwd) {p : Bytes} (h : nul ∉ p) (hp : p ≠ []) :
    resolve cwd p = walk cwd p := by
  rw [resolve, cString_of_noNul h, if_neg hp]

instance : DecidablePred IsPlain := fun name =>
  decidable_of_iff (IsName name ∧ rootName name = [])
    ⟨fun h => ⟨h.1, h.2⟩, fun h => ⟨h.toIsName, h.noDrive⟩⟩

lemma enter_name {name : Bytes} (h : IsName name) (l : Loc) : enter l name = l ++ [name] := by
  simp [enter, h.ne_nil, h.ne_dot, h.ne_dots]

lemma splitOnP_name {name : Bytes} (h : IsName name) : name.splitOnP isSep = [name] :=
  List.splitOnP_eq_singleton h.noSep

lemma head_noSep {p : Bytes} (h : ∀ b ∈ p, isSep b = false) :
    p.head?.any isSep = false := by
  cases p with
  | nil => rfl
  | cons b rest => simpa using h b (by simp)

lemma relative_of_noRoot {p : Bytes} (h : rootName p = []) : relative p = p := by
  simp [relative, h]

lemma hasRootDirectory_of_name {p : Bytes} (h : IsPlain p) : hasRootDirectory p = false := by
  rw [hasRootDirectory, relative_of_noRoot h.noDrive]
  exact head_noSep h.noSep

lemma isAbsolute_of_noRoot {p : Bytes} (h : rootName p = []) : isAbsolute p = false := by
  simp [isAbsolute, h]

lemma append_relative {p q : Bytes} (hq : rootName q = []) (hd : hasRootDirectory q = false) :
    append p q = if hasFilename p then p ++ backslash :: q else p ++ q := by
  have ha : isAbsolute q = false := isAbsolute_of_noRoot hq
  have hp : (!hasRootDirectory p && isAbsolute p) = false := by
    cases hr : hasRootDirectory p <;> simp [isAbsolute, hr]
  simp [append, hq, hd, ha, hp, relative_of_noRoot hq]

lemma foldl_enter_sep (l : Loc) (p q : Bytes) (b : Byte) (hb : isSep b = true) :
    ((p ++ b :: q).splitOnP isSep).foldl enter l =
      (q.splitOnP isSep).foldl enter ((p.splitOnP isSep).foldl enter l) := by
  rw [List.splitOnP_append_cons p q hb, List.foldl_append]

lemma foldl_enter_trailing (l : Loc) (p : Bytes) (b : Byte) (hb : isSep b = true) :
    ((p ++ [b]).splitOnP isSep).foldl enter l = (p.splitOnP isSep).foldl enter l := by
  rw [foldl_enter_sep l p [] b hb]
  simp [enter]

lemma rootName_cons_cons {c d : Byte} (hc : isSep c = false) (hd : d ≠ colon) (rest : Bytes) :
    rootName (c :: d :: rest) = [] := by
  simp [rootName, hc, hd]

lemma rootName_length_le (p : Bytes) : (rootName p).length ≤ p.length := by
  match p with
  | [] | [_] => simp [rootName]
  | [c, d] =>
    simp only [rootName]
    split <;> simp
  | c :: d :: e :: rest =>
    have h := (List.takeWhile_sublist (l := e :: rest) (fun b => !isSep b)).length_le
    simp only [rootName]
    split
    · simp
    · split
      · split
        · simp
        · simpa using h
      · simp

lemma relative_append {p q : Bytes} (h : rootName (p ++ q) = rootName p) :
    relative (p ++ q) = relative p ++ q := by
  rw [relative, relative, h, List.drop_append_of_le_length (rootName_length_le p)]

lemma hasRootDirectory_append {p q : Bytes} (h : rootName (p ++ q) = rootName p)
    (hq : q.head?.any isSep = false ∨ relative p ≠ []) :
    hasRootDirectory (p ++ q) = hasRootDirectory p := by
  rw [hasRootDirectory, hasRootDirectory, relative_append h]
  cases hr : relative p with
  | nil =>
    rcases hq with hq | hq
    · simpa using hq
    · exact (hq hr).elim
  | cons b rest => simp

lemma startLoc_congr (cwd : Cwd) {p q : Bytes} (h : rootName p = rootName q)
    (hd : hasRootDirectory p = hasRootDirectory q) : startLoc cwd p = startLoc cwd q := by
  simp only [startLoc, h, hd]

/-- `x` put after the path `p`, with a separator where one is missing. -/
def extend (p x : Bytes) : Bytes := if hasFilename p then p ++ backslash :: x else p ++ x

lemma noNul_extend {p x : Bytes} (hp : nul ∉ p) (hx : nul ∉ x) : nul ∉ extend p x := by
  unfold extend
  split <;> simp [hp, hx]
  decide

lemma extend_ne_nil {p x : Bytes} (hp : p ≠ []) : extend p x ≠ [] := by
  unfold extend
  split <;> simp [hp]

lemma walk_extend (cwd : Cwd) {p x : Bytes} (hx : ∀ b ∈ x, isSep b = false)
    (hroot : rootName (extend p x) = rootName p) :
    walk cwd (extend p x) = enter (walk cwd p) x := by
  have hsplit : x.splitOnP isSep = [x] := List.splitOnP_eq_singleton hx
  have hhead : x.head?.any isSep = false := head_noSep hx
  rw [extend] at hroot ⊢
  cases hp : hasFilename p with
  | true =>
    simp only [hp, if_true] at hroot ⊢
    have hne : relative p ≠ [] := by
      intro he
      simp [hasFilename, he] at hp
    have hs := startLoc_congr cwd hroot (hasRootDirectory_append hroot (Or.inr hne))
    rw [walk, relative_append hroot, hs, foldl_enter_sep _ _ _ _ (by decide), hsplit, walk]
    rfl
  | false =>
    simp only [hp, Bool.false_eq_true, if_false] at hroot ⊢
    have hs := startLoc_congr cwd hroot (hasRootDirectory_append hroot (Or.inl hhead))
    rw [walk, relative_append hroot, hs, walk]
    rcases List.eq_nil_or_concat (relative p) with he | ⟨y, b, he⟩
    · rw [he, List.nil_append, hsplit]
      simp [enter]
    · have hb : isSep b = true := by simpa [hasFilename, he] using hp
      rw [he, List.concat_eq_append, List.append_assoc, List.singleton_append,
        foldl_enter_sep _ _ _ _ hb, hsplit, foldl_enter_trailing _ _ _ hb]
      rfl

/-- A plain name appended to a directory denotes the entry of that name in the directory. -/
lemma resolve_append_plain (cwd : Cwd) {p f : Bytes} (hf : IsPlain f) (hp : nul ∉ p) (hne : p ≠ [])
    (hroot : rootName (append p f) = rootName p) :
    resolve cwd (append p f) = resolve cwd p ++ [f] := by
  have happ : append p f = extend p f := append_relative hf.noDrive (hasRootDirectory_of_name hf)
  rw [happ] at hroot ⊢
  rw [resolve_of_noNul cwd (noNul_extend hp hf.noNul) (extend_ne_nil hne),
    walk_extend cwd hf.noSep hroot,
    enter_name hf.toIsName, resolve_of_noNul cwd hp hne]

/-- One component of a path as read so far: `k` steps up, then down along names. -/
def climb : ℕ × List Bytes → Bytes → ℕ × List Bytes
  | (k, names), c =>
    if c = [] ∨ c = [dot] then (k, names)
    else if c = [dot, dot] then if names = [] then (k + 1, []) else (k, names.dropLast)
    else (k, names ++ [c])

/-- The path with `.`, empty components and pairs of a name and `..` cancelled: the steps up it
begins with and the names after them. -/
def simplify (p : Bytes) : ℕ × List Bytes := ((relative p).splitOnP isSep).foldl climb (0, [])

/-- How much of a place is left after `k` steps up. -/
def climbed (l : Loc) (k : ℕ) : Loc := l.take (max 1 (l.length - k))

lemma climbed_ne_nil {l : Loc} (hl : l ≠ []) (k : ℕ) : climbed l k ≠ [] := by
  have hlen : 0 < l.length := List.length_pos_of_ne_nil hl
  rw [← List.length_pos_iff, climbed, List.length_take]
  omega

lemma head?_climbed (l : Loc) (k : ℕ) : (climbed l k).head? = l.head? := by
  rw [climbed, List.head?_take, if_neg (by omega)]

lemma parent_climbed (l : Loc) (k : ℕ) : parent (climbed l k) = climbed l (k + 1) := by
  rw [parent]
  split
  · rename_i h
    rw [climbed, List.length_take] at h
    rw [climbed, climbed]
    rcases le_or_gt l.length 1 with hl | hl
    · rw [List.take_of_length_le (by omega), List.take_of_length_le (by omega)]
    · congr 1
      omega
  · rename_i h
    rw [climbed, List.length_take] at h
    rw [climbed, climbed, List.dropLast_eq_take, List.take_take, List.length_take]
    congr 1
    omega

lemma foldl_enter_climb {l : Loc} (hl : l ≠ []) (cs : List Bytes) (k : ℕ) (names : List Bytes) :
    cs.foldl enter (climbed l k ++ names) =
      climbed l (cs.foldl climb (k, names)).1 ++ (cs.foldl climb (k, names)).2 := by
  induction cs generalizing k names with
  | nil => rfl
  | cons c cs ih =>
    rw [List.foldl_cons, List.foldl_cons]
    by_cases hdot : c = [] ∨ c = [dot]
    · rw [enter, if_pos hdot, climb, if_pos hdot]
      exact ih k names
    by_cases hdots : c = [dot, dot]
    · rw [enter, if_neg hdot, if_pos hdots, climb, if_neg hdot, if_pos hdots]
      rcases List.eq_nil_or_concat names with rfl | ⟨xs, x, rfl⟩
      · rw [List.append_nil, parent_climbed, if_pos rfl]
        simpa using ih (k + 1) []
      · have hlong : ¬ (climbed l k ++ (xs ++ [x])).length ≤ 1 := by
          have := List.length_pos_of_ne_nil (climbed_ne_nil hl k)
          simp only [List.length_append, List.length_singleton]
          omega
        rw [List.concat_eq_append, parent, if_neg hlong, if_neg (by simp), ← List.append_assoc,
          List.dropLast_concat, List.dropLast_concat]
        exact ih k xs
    · rw [enter, if_neg hdot, if_neg hdots, climb, if_neg hdot, if_neg hdots, List.append_assoc]
      exact ih k (names ++ [c])

lemma foldl_enter_simplify {l : Loc} (hl : l ≠ []) (p : Bytes) :
    ((relative p).splitOnP isSep).foldl enter l =
      climbed l (simplify p).1 ++ (simplify p).2 := by
  have hclimbed : climbed l 0 = l := by
    rw [climbed, List.take_of_length_le]
    omega
  have h := foldl_enter_climb hl ((relative p).splitOnP isSep) 0 []
  rwa [List.append_nil, hclimbed] at h

end Mtfss.Paths
