import Mtfss.Server.Footprint
import Mtfss.Server.SessionRules

/-! Which usernames and filenames keep a session's files below `storage`. -/

namespace Mtfss.StorageRoot

open Effects Relation Paths Rules Server

variable {cwd : Cwd} {u f : Bytes}

def storageLoc (cwd : Cwd) : Loc := resolve cwd storage

def IsDirectChild (cwd : Cwd) (p : Bytes) : Prop := ∃ name, resolve cwd p = storageLoc cwd ++ [name]

def IsBelow (cwd : Cwd) (p : Bytes) : Prop :=
  storageLoc cwd <+: resolve cwd p ∧ resolve cwd p ≠ storageLoc cwd

/-- Where the operating system starts with a username: in `storage`, unless the name has a root of
its own. -/
def base (cwd : Cwd) (u : Bytes) : Loc :=
  if rootName u = [] ∧ hasRootDirectory u = false then storageLoc cwd else startLoc cwd u

/-- The name leads from its base up to a place on the way to `storage`, and from there down the
rest of that way and along one more name. -/
def LeadsIntoStorage (cwd : Cwd) (u : Bytes) : Prop :=
  climbed (base cwd u) (simplify u).1 <+: storageLoc cwd ∧
    ∃ name, (simplify u).2 =
      (storageLoc cwd).drop (climbed (base cwd u) (simplify u).1).length ++ [name]

/-- What the system reads of the username leads to a directory in `storage`. -/
def StaysInStorage (cwd : Cwd) (u : Bytes) : Prop := LeadsIntoStorage cwd (cString u)

/-- The filename has no drive of its own. -/
def StaysInDir (u f : Bytes) : Prop := rootName f = [] ∨ rootName f = rootName u

instance : Decidable (StaysInDir u f) :=
  inferInstanceAs (Decidable (rootName f = [] ∨ rootName f = rootName u))

lemma storage_name : IsPlain storage := by decide

lemma storageLoc_eq (cwd : Cwd) : storageLoc cwd = workingDir cwd cwd.drive ++ [storage] := by
  have hroot : hasRootDirectory storage = false := by decide
  rw [storageLoc, resolve_of_noNul cwd storage_name.noNul storage_name.ne_nil, walk,
    relative_of_noRoot storage_name.noDrive, splitOnP_name storage_name.toIsName, List.foldl_cons,
      List.foldl_nil,
    enter_name storage_name.toIsName, startLoc, storage_name.noDrive, hroot]
  rfl

lemma userDir_relative (h : rootName u = []) (hd : hasRootDirectory u = false) :
    userDir u = storage ++ backslash :: u := by
  rw [userDir, append_relative h hd, if_pos (by decide)]

lemma userDir_rooted (h : ¬ (rootName u = [] ∧ hasRootDirectory u = false)) : userDir u = u := by
  have hs : rootName storage = [] := storage_name.noDrive
  rw [userDir, append]
  by_cases hr : rootName u = []
  · have hd : hasRootDirectory u = true := by
      by_contra hd
      exact h ⟨hr, by simpa using hd⟩
    simp [hr, isAbsolute_of_noRoot hr, hs, hd, relative_of_noRoot hr]
  · simp [hr, hs]

lemma rootName_userDir : rootName (userDir u) = rootName u := by
  by_cases h : rootName u = [] ∧ hasRootDirectory u = false
  · rw [userDir_relative h.1 h.2, h.1]
    rfl
  · rw [userDir_rooted h]

lemma startLoc_ne_nil (cwd : Cwd) (p : Bytes) : startLoc cwd p ≠ [] := by
  unfold startLoc workingDir
  split
  · split <;> simp
  · split <;> simp
  · simp

lemma base_ne_nil (cwd : Cwd) (u : Bytes) : base cwd u ≠ [] := by
  unfold base
  split
  · simp [storageLoc_eq]
  · exact startLoc_ne_nil cwd u

lemma walk_userDir (cwd : Cwd) (u : Bytes) :
    walk cwd (userDir u) = climbed (base cwd u) (simplify u).1 ++ (simplify u).2 := by
  rw [← foldl_enter_simplify (base_ne_nil cwd u)]
  by_cases h : rootName u = [] ∧ hasRootDirectory u = false
  · have hroot : rootName (userDir u) = [] := rootName_userDir.trans h.1
    have hdir : hasRootDirectory (userDir u) = false := by
      rw [hasRootDirectory, relative_of_noRoot hroot, userDir_relative h.1 h.2]
      rfl
    have hstart : startLoc cwd (userDir u) = startLoc cwd storage :=
      startLoc_congr cwd (hroot.trans storage_name.noDrive.symm) (hdir.trans (by decide))
    rw [walk, relative_of_noRoot hroot, hstart, userDir_relative h.1 h.2,
      foldl_enter_sep _ _ _ _ (by decide), base, if_pos h, relative_of_noRoot h.1, storageLoc,
      resolve_of_noNul cwd storage_name.noNul storage_name.ne_nil, walk,
      relative_of_noRoot storage_name.noDrive]
  · rw [userDir_rooted h, base, if_neg h, walk]

lemma userDir_ne_nil (u : Bytes) : userDir u ≠ [] := by
  by_cases h : rootName u = [] ∧ hasRootDirectory u = false
  · rw [userDir_relative h.1 h.2]
    simp
  · rw [userDir_rooted h]
    rintro rfl
    exact h ⟨rfl, rfl⟩

lemma nul_mem_userDir : nul ∈ userDir u ↔ nul ∈ u := by
  have hstorage : nul ∉ storage := storage_name.noNul
  have hsep : nul ≠ backslash := by decide
  by_cases h : rootName u = [] ∧ hasRootDirectory u = false
  · rw [userDir_relative h.1 h.2]
    simp [hstorage, hsep]
  · rw [userDir_rooted h]

lemma unrooted_iff : rootName u = [] ∧ hasRootDirectory u = false ↔
    u.head?.any isSep = false ∧ u[1]? ≠ some colon := by
  match u with
  | [] => simp [rootName, hasRootDirectory, relative]
  | [c] => simp [rootName, hasRootDirectory, relative]
  | c :: d :: rest =>
    cases hc : isSep c with
    | true =>
      suffices h : rootName (c :: d :: rest) = [] →
          hasRootDirectory (c :: d :: rest) = true by
        simp only [List.head?_cons, Option.any_some, hc, Bool.true_eq_false, false_and, iff_false]
        rintro ⟨hroot, hdir⟩
        rw [h hroot] at hdir
        cases hdir
      intro hroot
      simp [hasRootDirectory, relative_of_noRoot hroot, hc]
    | false =>
      by_cases hd : d = colon
      · simp [rootName, hc, hd]
      · have hroot : rootName (c :: d :: rest) = [] := rootName_cons_cons hc hd rest
        simp [hasRootDirectory, relative_of_noRoot hroot, hroot, hc, hd]

/-- A NUL byte does not change whether a name has a root, unless it is the drive. -/
lemma unrooted_cString (h : cString u ≠ []) :
    (rootName (cString u) = [] ∧ hasRootDirectory (cString u) = false) ↔
      (rootName u = [] ∧ hasRootDirectory u = false) := by
  rw [unrooted_iff, unrooted_iff]
  match u with
  | [] => exact (h rfl).elim
  | c :: rest =>
    have hc : c ≠ nul := by
      rintro rfl
      simp [cString] at h
    cases rest with
    | nil => simp [cString, hc]
    | cons d rest =>
      by_cases hd : d = nul
      · have hcolon : nul ≠ colon := by decide
        simp [cString, hc, hd, hcolon]
      · simp [cString, hc, hd]

lemma cString_of_nulDrive (h : rootName u = [nul, colon]) : cString u = [] := by
  match u with
  | [] | [_] => simp [rootName] at h
  | c :: d :: rest =>
    by_cases hc : c = nul
    · simp [cString, hc]
    · simp only [rootName] at h
      split_ifs at h
      · simp_all
      · cases rest with
        | nil => simp at h
        | cons e rest => grind

/-- The system reads the directory of what it reads of the username, unless the name begins with the
drive designator of a NUL byte. -/
lemma cString_userDir (u : Bytes) :
    cString (userDir u) = if rootName u = [nul, colon] then [] else userDir (cString u) := by
  by_cases h : rootName u = [] ∧ hasRootDirectory u = false
  · have hcut : rootName (cString u) = [] ∧ hasRootDirectory (cString u) = false := by
      by_cases hu : cString u = []
      · rw [hu]
        exact ⟨rfl, rfl⟩
      · exact (unrooted_cString hu).mpr h
    have hnul : nul ∉ storage ++ [backslash] := by decide
    rw [if_neg (by simp [h.1]), userDir_relative h.1 h.2, userDir_relative hcut.1 hcut.2]
    simpa using cString_append hnul u
  · rw [userDir_rooted h]
    by_cases hu : cString u = []
    · rw [hu]
      match u with
      | [] => exact (h ⟨rfl, rfl⟩).elim
      | c :: rest =>
        obtain rfl : c = nul := by
          by_contra hc
          simp [cString, hc] at hu
        rw [unrooted_iff] at h
        have hsep : isSep nul = false := by decide
        cases rest with
        | nil => simp [hsep] at h
        | cons d rest =>
          obtain rfl : d = colon := by simpa [hsep] using h
          rw [if_pos]
          simp [rootName, hsep]
    · rw [if_neg (mt cString_of_nulDrive hu), userDir_rooted (mt (unrooted_cString hu).mp h)]

/-- Where a username leads: from its base up, and from there down along names. -/
def home (cwd : Cwd) (u : Bytes) : Loc :=
  if rootName u = [nul, colon] then []
  else climbed (base cwd (cString u)) (simplify (cString u)).1 ++ (simplify (cString u)).2

lemma resolve_userDir (cwd : Cwd) (u : Bytes) : resolve cwd (userDir u) = home cwd u := by
  rw [resolve, cString_userDir, home]
  split
  · rfl
  · rw [if_neg (userDir_ne_nil _), walk_userDir]

lemma upper_eq_of_driveRoot {c d : Byte} (h : driveRoot c = driveRoot d) : upper c = upper d := by
  simpa [driveRoot] using h

lemma base_length (h : (base cwd u).head? = (storageLoc cwd).head?) :
    (base cwd u).length ≤ (storageLoc cwd).length := by
  rw [storageLoc_eq] at *
  unfold base at *
  split
  · rw [storageLoc_eq]
  · rename_i hb
    rw [if_neg hb] at h
    revert h
    unfold startLoc
    split
    · split <;> simp [workingDir]
    · split
      · simp
      · rename_i d _ _ _
        intro h
        have hd : upper d = upper cwd.drive := by
          apply upper_eq_of_driveRoot
          simpa [workingDir] using h
        simp [workingDir, hd]
    · simp

/-- The directory of a name without NUL bytes is a direct child of `storage` exactly when the name
leads there. -/
lemma leadsIntoStorage_iff (cwd : Cwd) (u : Bytes) :
    (∃ name, climbed (base cwd u) (simplify u).1 ++ (simplify u).2 = storageLoc cwd ++ [name]) ↔
      LeadsIntoStorage cwd u := by
  rw [LeadsIntoStorage]
  set stem := climbed (base cwd u) (simplify u).1 with hstem
  set names := (simplify u).2
  constructor
  · rintro ⟨name, h⟩
    have hne : stem ≠ [] := climbed_ne_nil (base_ne_nil cwd u) _
    have hbase : stem <+: base cwd u := List.take_prefix _ _
    have hstorage : storageLoc cwd ≠ [] := by simp [storageLoc_eq]
    have hlen : stem.length ≤ (storageLoc cwd).length := by
      refine hbase.length_le.trans (base_length ?_)
      have hhead := congrArg List.head? h
      rwa [List.head?_append_of_ne_nil _ hne, List.head?_append_of_ne_nil _ hstorage, hstem,
        head?_climbed] at hhead
    have hpre : stem <+: storageLoc cwd :=
      List.prefix_of_prefix_length_le ⟨names, h⟩ (List.prefix_append _ _) hlen
    obtain ⟨t, ht⟩ := hpre
    refine ⟨⟨t, ht⟩, name, ?_⟩
    rw [← ht, List.append_assoc, List.append_cancel_left_eq] at h
    rw [h, ← ht, List.drop_left]
  · rintro ⟨⟨t, ht⟩, name, h⟩
    refine ⟨name, ?_⟩
    rw [h, ← ht, List.drop_left, List.append_assoc]

lemma not_leadsIntoStorage_nil (cwd : Cwd) : ¬ LeadsIntoStorage cwd [] := by
  rintro ⟨-, name, h⟩
  have hnames : (simplify []).2 = [] := by decide
  rw [hnames] at h
  simp at h

/-- A user's directory is a direct child of `storage` exactly for the usernames that stay there. -/
lemma isDirectChild_iff (cwd : Cwd) (u : Bytes) :
    IsDirectChild cwd (userDir u) ↔ StaysInStorage cwd u := by
  rw [IsDirectChild, StaysInStorage, resolve_userDir, home]
  split
  · rename_i hnul
    rw [cString_of_nulDrive hnul]
    refine iff_of_false ?_ (not_leadsIntoStorage_nil cwd)
    rintro ⟨name, h⟩
    simp at h
  · exact leadsIntoStorage_iff cwd _

lemma staysInStorage_of_plain (cwd : Cwd) (h : IsPlain u) : StaysInStorage cwd u := by
  rw [← isDirectChild_iff]
  refine ⟨u, resolve_append_plain cwd h storage_name.noNul storage_name.ne_nil ?_⟩
  rw [append_relative h.noDrive (hasRootDirectory_of_name h), if_pos (by decide)]
  rfl

/-- A host name without a directory, which goes on with whatever is put after it. -/
def unfinished : Bytes → Bool
  | c :: d :: host => isSep c && d == c && host.all (fun b => !isSep b)
  | _ => false

lemma takeWhile_append_of_not_all {α : Type} {q : α → Bool} {xs : List α} (h : ¬ xs.all q = true)
    (ys : List α) : (xs ++ ys).takeWhile q = xs.takeWhile q := by
  induction xs with
  | nil => simp at h
  | cons x xs ih =>
    cases hx : q x with
    | false => simp [hx]
    | true =>
      have hxs : ¬ xs.all q = true := by simpa [hx] using h
      simp [hx, ih hxs]

lemma rootName_append (h : unfinished u = false) {x : Bytes}
    (hx : hasFilename u = false → ∀ b ∈ x, isSep b = false) :
    rootName (userDir u ++ x) = rootName (userDir u) := by
  by_cases hb : rootName u = [] ∧ hasRootDirectory u = false
  · rw [userDir_relative hb.1 hb.2]
    rfl
  rw [userDir_rooted hb]
  match u with
  | [] => exact (hb ⟨rfl, rfl⟩).elim
  | [c] =>
    have hc : isSep c = true := by
      by_contra hc
      exact hb ⟨rfl, by simpa [hasRootDirectory, relative, rootName] using hc⟩
    have hsep := hx (by simp [hasFilename, relative, rootName, hc])
    cases x with
    | nil => rfl
    | cons d x =>
      have hd : (d == c) = false := by
        by_contra hd
        simp only [Bool.not_eq_false, beq_iff_eq] at hd
        have := hsep d (by simp)
        rw [hd, hc] at this
        cases this
      simp [rootName, hc, hd]
  | c :: d :: rest =>
    by_cases hdrive : isSep c = false ∧ d = colon
    · simp [rootName, hdrive.1, hdrive.2]
    by_cases hsep : isSep c = true ∧ d = c
    · obtain ⟨hc, rfl⟩ := hsep
      have hrest : ¬ rest.all (fun b => !isSep b) = true := by simpa [unfinished, hc] using h
      cases rest with
      | nil => simp at hrest
      | cons e rest =>
        have htake := takeWhile_append_of_not_all hrest x
        cases he : isSep e with
        | true => simp [rootName, hc, he]
        | false =>
          rw [List.cons_append] at htake
          simp only [List.cons_append, rootName, hc, he, htake]
    · have h₁ : (!isSep c && d == colon) = false := by
        cases hc : isSep c <;> simp_all
      have h₂ : (isSep c && d == c) = false := by
        cases hc : isSep c <;> simp_all
      simp [rootName, h₁, h₂]

lemma hasFilename_userDir : hasFilename (userDir u) = hasFilename u := by
  by_cases hb : rootName u = [] ∧ hasRootDirectory u = false
  · have hroot : rootName (storage ++ backslash :: u) = [] := rfl
    rw [userDir_relative hb.1 hb.2, hasFilename, hasFilename, relative_of_noRoot hroot,
      relative_of_noRoot hb.1]
    cases hu : u.getLast? with
    | none =>
      rw [List.getLast?_eq_none_iff.mp hu]
      rfl
    | some b => simp [List.getLast?_append, List.getLast?_cons, hu]
  · rw [userDir_rooted hb]

/-- A separator or a name put after a user's directory leaves its root as it is. -/
lemma rootName_extend (h : unfinished u = false) {x : Bytes} (hx : ∀ b ∈ x, isSep b = false) :
    rootName (extend (userDir u) x) = rootName (userDir u) := by
  unfold extend
  split
  · rename_i hname
    exact rootName_append h fun hno => by simp [hasFilename_userDir, hno] at hname
  · exact rootName_append h fun _ => hx

/-- The name of a host is two separators, or all of it is its root name. -/
lemma rootName_unfinished (h : unfinished u = true) :
    rootName u = u ∨ ∃ c, isSep c = true ∧ u = [c, c] ∧ rootName u = [] := by
  match u with
  | [] | [_] => simp [unfinished] at h
  | c :: d :: host =>
    simp only [unfinished, Bool.and_eq_true, beq_iff_eq] at h
    obtain ⟨⟨hc, rfl⟩, hhost⟩ := h
    cases host with
    | nil => exact .inr ⟨d, hc, rfl, by simp [rootName, hc]⟩
    | cons e host =>
      have he : isSep e = false := by simpa using List.all_eq_true.mp hhost e (by simp)
      have htake : (e :: host).takeWhile (fun b => !isSep b) = e :: host :=
        List.takeWhile_eq_self_iff.mpr (List.all_eq_true.mp hhost)
      refine .inl ?_
      simp only [rootName, hc, he, htake]
      simp

/-- There is no component after the name of a host. -/
lemma components_unfinished (h : unfinished u = true) :
    ∀ x ∈ (relative u).splitOnP isSep, x = [] := by
  rcases rootName_unfinished h with hroot | ⟨c, hc, rfl, hroot⟩
  · simp [relative, hroot]
  · simp [relative_of_noRoot hroot, List.splitOnP_cons_eq_if_modifyHead, hc]

lemma hasFilename_unfinished (h : unfinished u = true) : hasFilename u = false := by
  rcases rootName_unfinished h with hroot | ⟨c, hc, rfl, hroot⟩
  · simp [hasFilename, relative, hroot]
  · simp [hasFilename, relative_of_noRoot hroot, hc]

lemma head_unfinished (h : unfinished u = true) : u.head?.any isSep = true := by
  match u with
  | [] | [_] => simp [unfinished] at h
  | c :: d :: host => simp_all [unfinished]

lemma foldl_enter_empty {cs : List Bytes} (h : ∀ x ∈ cs, x = []) (l : Loc) :
    cs.foldl enter l = l := by
  induction cs with
  | nil => rfl
  | cons c cs ih =>
    obtain rfl := h c (by simp)
    exact ih fun x hx => h x (List.mem_cons_of_mem _ hx)

lemma foldl_climb_empty {cs : List Bytes} (h : ∀ x ∈ cs, x = []) (p : ℕ × List Bytes) :
    cs.foldl climb p = p := by
  induction cs with
  | nil => rfl
  | cons c cs ih =>
    obtain rfl := h c (by simp)
    exact ih fun x hx => h x (List.mem_cons_of_mem _ hx)

lemma unfinished_append (h : unfinished u = true) {x : Bytes} (hx : ∀ b ∈ x, isSep b = false) :
    unfinished (u ++ x) = true := by
  match u with
  | [] | [_] => simp [unfinished] at h
  | c :: d :: host => simp_all [unfinished]

lemma unfinished_of_head (h : u.head?.any isSep = false) : unfinished u = false := by
  by_contra hun
  rw [head_unfinished (by simpa using hun)] at h
  cases h

lemma unfinished_of_plain (h : IsPlain u) : unfinished u = false :=
  unfinished_of_head (head_noSep h.noSep)

/-- Such a name leads to no directory in `storage`. -/
lemma finished_of_leads (h : LeadsIntoStorage cwd u) : unfinished u = false := by
  by_contra hun
  obtain ⟨-, name, hname⟩ := h
  have hnames : (simplify u).2 = [] := by
    rw [simplify, foldl_climb_empty (components_unfinished (by simpa using hun))]
  rw [hnames] at hname
  simp at hname

lemma isBelow_child (h : IsDirectChild cwd (userDir u)) {p : Bytes} {t : Loc}
    (hp : resolve cwd p = resolve cwd (userDir u) ++ t) : IsBelow cwd p := by
  obtain ⟨name, hname⟩ := h
  rw [IsBelow, hp, hname, List.append_assoc]
  refine ⟨List.prefix_append _ _, fun h => ?_⟩
  simpa using congrArg List.length h

lemma drive_of_valid (hf : isValidFilename f = true) (hroot : rootName f ≠ []) :
    ∃ c rest, f = c :: colon :: rest ∧ isSep c = false ∧ rootName f = [c, colon] ∧
      (∀ b ∈ rest, isSep b = false) ∧ ¬ [dot, dot] <:+: rest := by
  have hsep := noSep_of_valid hf
  match f with
  | [] => exact (hroot rfl).elim
  | [c] => exact (hroot rfl).elim
  | c :: d :: rest =>
    have hc : isSep c = false := hsep c (by simp)
    have hd : d = colon := by
      by_contra hd
      exact hroot (rootName_cons_cons hc hd rest)
    subst hd
    refine ⟨c, rest, rfl, hc, by simp [rootName, hc], fun b hb => hsep b (by simp [hb]), ?_⟩
    exact fun hdots => noDots_of_valid hf (hdots.trans (List.suffix_append [c, colon] rest).isInfix)

lemma splitOnP_noSep {p : Bytes} (h : ∀ b ∈ p, isSep b = false) : p.splitOnP isSep = [p] :=
  List.splitOnP_eq_singleton h

lemma mem_of_mem_cString {p : Bytes} {b : Byte} (h : b ∈ cString p) : b ∈ p :=
  List.takeWhile_subset _ h

lemma cString_ne_dots {p : Bytes} (h : ¬ [dot, dot] <:+: p) : cString p ≠ [dot, dot] := by
  intro hcut
  exact h (hcut ▸ (List.takeWhile_prefix _).isInfix)

/-- The name that the system reads of a filename, unless it takes it for the directory itself. -/
def entry (f : Bytes) : List Bytes :=
  if cString (relative f) = [] ∨ cString (relative f) = [dot] then [] else [cString (relative f)]

lemma enter_entry (hf : isValidFilename f = true) (l : Loc) :
    enter l (cString (relative f)) = l ++ entry f := by
  have hdots : cString (relative f) ≠ [dot, dot] :=
    cString_ne_dots fun hdots => noDots_of_valid hf (hdots.trans (List.drop_suffix _ _).isInfix)
  rw [enter, if_neg hdots, entry]
  split
  · rw [List.append_nil]
  · rfl

/-- Where a username and an accepted filename lead. With a NUL byte in the username the filename is
not read. -/
def whereabouts (cwd : Cwd) (u f : Bytes) : Loc :=
  if StaysInDir u f then
    if nul ∈ u then home cwd u
    else if unfinished u = true then startLoc cwd (u ++ cString f)
    else home cwd u ++ entry f
  else if rootName f = [nul, colon] then []
  else startLoc cwd f ++ entry f

/-- A file with a drive of its own is in the working directory of that drive. -/
lemma resolve_drive (cwd : Cwd) (hf : isValidFilename f = true) (hdrive : ¬ StaysInDir u f) :
    resolve cwd (filePath u f) = whereabouts cwd u f := by
  obtain ⟨hroot, hother⟩ := not_or.mp hdrive
  have hentry := fun l => enter_entry hf l
  rw [whereabouts, if_neg hdrive]
  obtain ⟨c, rest, rfl, hc, hr, hrest, hdots⟩ := drive_of_valid hf hroot
  have hfile : filePath u (c :: colon :: rest) = c :: colon :: rest := by
    rw [filePath, append, rootName_userDir, if_pos]
    simp [hroot, hother]
  rw [hfile, resolve, hr]
  by_cases hnul : c = nul
  · rw [if_pos (by simp [cString, hnul]), if_pos (by rw [hnul])]
  have hcut : cString (c :: colon :: rest) = c :: colon :: cString rest := by
    have hcolon : colon ≠ nul := by decide
    simp [cString, hnul, hcolon]
  have hsep : ∀ b ∈ cString rest, isSep b = false := fun b hb => hrest b (mem_of_mem_cString hb)
  have hr' : rootName (c :: colon :: cString rest) = [c, colon] := by simp [rootName, hc]
  have hrel : relative (c :: colon :: rest) = rest := by simp [relative, hr]
  have hrel' : relative (c :: colon :: cString rest) = cString rest := by simp [relative, hr']
  have hstart : startLoc cwd (c :: colon :: cString rest) = startLoc cwd (c :: colon :: rest) := by
    apply startLoc_congr cwd (hr'.trans hr.symm)
    rw [hasRootDirectory, hasRootDirectory, hrel, hrel', head_noSep hrest,
      head_noSep hsep]
  rw [hcut, if_neg (by simp), if_neg (by simpa using hnul), walk, hrel',
    splitOnP_noSep hsep, hstart,
    ← hentry, hrel]
  rfl

lemma length_entry_le (f : Bytes) : (entry f).length ≤ 1 := by
  rw [entry]
  split <;> simp

/-- On the drive of `storage`, such a file is not deeper than `storage`. -/
lemma drive_length (cwd : Cwd) (hf : isValidFilename f = true) (hdrive : ¬ StaysInDir u f)
    (hhead : (resolve cwd (filePath u f)).head? = (storageLoc cwd).head?) :
    (resolve cwd (filePath u f)).length ≤ (storageLoc cwd).length := by
  have hplace := resolve_drive cwd hf hdrive
  rw [whereabouts, if_neg hdrive] at hplace
  obtain ⟨c, rest, rfl, hc, hr, hrest, -⟩ := drive_of_valid hf (not_or.mp hdrive).1
  have hstart : startLoc cwd (c :: colon :: rest) = workingDir cwd c := by
    have hrel : relative (c :: colon :: rest) = rest := by simp [relative, hr]
    rw [startLoc, hr, hasRootDirectory, hrel, head_noSep hrest]
    rfl
  rw [hstart] at hplace
  split at hplace
  · simp [hplace]
  rw [hplace, storageLoc_eq] at hhead
  rw [hplace, storageLoc_eq]
  have hupper : upper c = upper cwd.drive :=
    upper_eq_of_driveRoot (by simpa [workingDir] using hhead)
  have hwd : workingDir cwd c = workingDir cwd cwd.drive := by simp [workingDir, driveRoot, hupper]
  rw [hwd, List.length_append, List.length_append]
  exact Nat.add_le_add_left (length_entry_le _) _

/-- A file with a drive of its own is not below `storage`. -/
lemma not_isBelow_drive (hf : isValidFilename f = true) (hdrive : ¬ StaysInDir u f) :
    ¬ IsBelow cwd (filePath u f) := by
  rintro ⟨hpre, hne⟩
  have hhead : (resolve cwd (filePath u f)).head? = (storageLoc cwd).head? := by
    obtain ⟨t, ht⟩ := hpre
    rw [← ht, List.head?_append_of_ne_nil]
    simp [storageLoc_eq]
  exact hne (hpre.eq_of_length_le (drive_length cwd hf hdrive hhead)).symm

lemma relative_noSep (hf : isValidFilename f = true) : ∀ b ∈ relative f, isSep b = false :=
  fun b hb => noSep_of_valid hf b (List.mem_of_mem_drop hb)

lemma filePath_extend (hf : isValidFilename f = true) (hdrive : StaysInDir u f) :
    filePath u f = extend (userDir u) (relative f) := by
  have hrd : hasRootDirectory f = false := head_noSep (relative_noSep hf)
  rcases hdrive with hroot | hsame
  · rw [filePath, append_relative hroot hrd, relative_of_noRoot hroot]
    rfl
  · have habs : (!hasRootDirectory (userDir u) && isAbsolute (userDir u)) = false := by
      cases hd : hasRootDirectory (userDir u) <;> simp [isAbsolute, hd]
    rw [filePath, append, extend, rootName_userDir, hsame, hrd, habs]
    simp [isAbsolute, hrd]

lemma nul_notMem_userDir (h : nul ∉ u) : nul ∉ userDir u := mt nul_mem_userDir.mp h

lemma cString_extend {p : Bytes} (h : nul ∉ p) (x : Bytes) :
    cString (extend p x) = extend p (cString x) := by
  unfold extend
  split
  · have hnul : nul ∉ p ++ [backslash] := by
      have hsep : nul ≠ backslash := by decide
      simp [h, hsep]
    simpa using cString_append hnul x
  · exact cString_append h x

/-- With a NUL byte in the username, the system does not read the filename. -/
lemma resolve_file_nul (hu : nul ∈ u) (hf : isValidFilename f = true) (hdrive : StaysInDir u f) :
    resolve cwd (filePath u f) = home cwd u := by
  have hcut : cString (extend (userDir u) (relative f)) = cString (userDir u) := by
    unfold extend
    split <;> exact cString_append_of_mem (nul_mem_userDir.mpr hu) _
  rw [filePath_extend hf hdrive, resolve, hcut, ← resolve, resolve_userDir]

lemma noDrive_of_unfinished (hun : unfinished u = true) (hf : isValidFilename f = true)
    (hdrive : StaysInDir u f) : rootName f = [] := by
  by_contra hroot
  obtain ⟨c, rest, rfl, hc, hr, -⟩ := drive_of_valid hf hroot
  have hu : rootName u = [c, colon] := (hdrive.resolve_left hroot).symm.trans hr
  rcases rootName_unfinished hun with hall | ⟨-, -, -, hnil⟩
  · have hhead := head_unfinished hun
    rw [← hall, hu] at hhead
    simp [hc] at hhead
  · simp [hnil] at hu

/-- The name of a host is read on into the filename. -/
lemma resolve_file_unfinished (hu : nul ∉ u) (hun : unfinished u = true)
    (hf : isValidFilename f = true) (hdrive : StaysInDir u f) :
    resolve cwd (filePath u f) = startLoc cwd (u ++ cString f) := by
  have hsep : ∀ b ∈ cString f, isSep b = false :=
    fun b hb => noSep_of_valid hf b (mem_of_mem_cString hb)
  have hrooted : ¬ (rootName u = [] ∧ hasRootDirectory u = false) := by
    rw [unrooted_iff, head_unfinished hun]
    simp
  have hfile : filePath u f = u ++ f := by
    rw [filePath_extend hf hdrive, extend, userDir_rooted hrooted, hasFilename_unfinished hun,
      relative_of_noRoot (noDrive_of_unfinished hun hf hdrive)]
    rfl
  have hne : u ≠ [] := by
    rintro rfl
    cases hun
  rw [hfile, resolve, cString_append hu, if_neg (by simp [hne]), walk,
    foldl_enter_empty (components_unfinished (unfinished_append hun hsep))]

lemma resolve_file_finished (hu : nul ∉ u) (hun : unfinished u = false)
    (hf : isValidFilename f = true) (hdrive : StaysInDir u f) :
    resolve cwd (filePath u f) = home cwd u ++ entry f := by
  have hsep : ∀ b ∈ cString (relative f), isSep b = false := fun b hb =>
    relative_noSep hf b (mem_of_mem_cString hb)
  have hdir := nul_notMem_userDir hu
  rw [filePath_extend hf hdrive, resolve, cString_extend hdir,
    if_neg (extend_ne_nil (userDir_ne_nil u)),
    walk_extend cwd hsep (rootName_extend hun hsep), enter_entry hf, ← resolve_userDir,
    resolve_of_noNul cwd hdir (userDir_ne_nil u)]

lemma resolve_file (cwd : Cwd) (u : Bytes) {f : Bytes} (hf : isValidFilename f = true) :
    resolve cwd (filePath u f) = whereabouts cwd u f := by
  by_cases hdrive : StaysInDir u f
  · rw [whereabouts, if_pos hdrive]
    split
    · rename_i hu
      exact resolve_file_nul hu hf hdrive
    · rename_i hu
      split
      · rename_i hun
        exact resolve_file_unfinished hu hun hf hdrive
      · rename_i hun
        exact resolve_file_finished hu (by simpa using hun) hf hdrive
  · exact resolve_drive cwd hf hdrive

lemma isBelow_file (h : StaysInStorage cwd u) (hf : isValidFilename f = true)
    (hdrive : StaysInDir u f) : IsBelow cwd (filePath u f) := by
  have hdir := (isDirectChild_iff cwd u).mpr h
  have hfile := resolve_file cwd u hf
  rw [whereabouts, if_pos hdrive, ← resolve_userDir] at hfile
  split at hfile
  · exact isBelow_child hdir (hfile.trans (List.append_nil _).symm)
  · rename_i hu
    rw [StaysInStorage, cString_of_noNul hu] at h
    rw [if_neg (by simp [finished_of_leads h])] at hfile
    exact isBelow_child hdir hfile

/-- The files of a user are below a user directory in `storage` exactly for the names that stay. -/
lemma file_stays_iff (cwd : Cwd) (u : Bytes) {f : Bytes} (hf : isValidFilename f = true) :
    IsDirectChild cwd (userDir u) ∧ IsBelow cwd (filePath u f) ↔
      StaysInStorage cwd u ∧ StaysInDir u f := by
  rw [isDirectChild_iff]
  constructor
  · rintro ⟨hu, hbelow⟩
    refine ⟨hu, ?_⟩
    by_contra hdrive
    exact not_isBelow_drive hf hdrive hbelow
  · rintro ⟨hu, hdrive⟩
    exact ⟨hu, isBelow_file hu hf hdrive⟩

/-- A name that a session of the server comes to use. -/
def SessionUser (env : Env) (host : Endian) (u : Bytes) : Prop :=
  u ≠ [] ∧ ∃ l s m, ReflTransGen (SessionStep (next env) host) (handleClient host, (l, s))
    (round host u, m)

lemma sessionUser_login {env : Env} (halloc : env.faults.alloc = false)
    (hstop : env.faults.stop = false) (host : Endian) (hu : u ≠ []) (h : u.length + 10 < 2 ^ 31) :
    SessionUser env host u := by
  refine ⟨hu, .fresh 0 (login u (by omega)).wire false, .fresh (.ofDir []), ?_⟩
  obtain ⟨r, m, hsteps, rfl⟩ := wp_completes (login_accepted halloc hstop host h
    (l := .fresh 0 (login u (by omega)).wire false) (s := .fresh (.ofDir [])) rfl rfl rfl)
  have hle : Step (next env) ≤ SessionStep (next env) host := fun _ _ h => .own (.inside h)
  exact ⟨m, (ReflTransGen.mono hle _ _ hsteps).tail (.own .again)⟩

/-- What a session is doing: nothing with files, or a round for a user that it has come to use. -/
def InRound (env : Env) (host : Endian) (p : Code (Exit ⊕ Bytes)) : Prop :=
  ∃ u, (u ≠ [] → SessionUser env host u) ∧
    p.Calls Call.Faithful (fun o => ∃ names, Footprint u names o)

lemma inRound_of_run {env : Env} {host : Endian} {l : Local} {s : Store}
    {c : Prog.Running Call Answer Exn (Exit ⊕ Bytes) Machine}
    (h : ReflTransGen (SessionStep (next env) host) (handleClient host, (l, s)) c) :
    InRound env host c.1 := by
  induction h with
  | refl =>
    refine ⟨[], fun h => (h rfl).elim, .bind ?_ (fun _ => keeps_round host)⟩
    exact ⟨⟨[], footprint_free rfl rfl rfl⟩, fun _ _ => trivial⟩
  | @tail c d hrun hs ih =>
    obtain ⟨u, hu, hcalls⟩ := ih
    cases hs with
    | own hs =>
      cases hs with
      | inside hs => exact ⟨u, hu, calls_step hcalls (fun _ _ _ _ => next_faithful) hs⟩
      | @again x m => exact ⟨x, fun hx => ⟨hx, l, s, m, hrun.tail (.own .again)⟩, keeps_round host⟩
    | others => exact ⟨u, hu, hcalls⟩

/-- Whatever a session is asked, the file system is called for nothing but the directory of a user
that the session uses and files in it, and those are in `storage` exactly for the usernames and
filenames that stay there. -/
theorem session_stays (env : Env) (host : Endian) :
    (∀ u, SessionUser env host u → (IsDirectChild env.cwd (userDir u) ↔ StaysInStorage env.cwd u)) ∧
    ∀ l s o k m, ReflTransGen (SessionStep (next env) host) (handleClient host, (l, s))
      (.op o k, m) →
      ∀ p ∈ o.paths, ∃ u, SessionUser env host u ∧ (p = userDir u ∨ ∃ f, p = filePath u f ∧
        (IsDirectChild env.cwd (userDir u) ∧ IsBelow env.cwd p ↔
          StaysInStorage env.cwd u ∧ StaysInDir u f)) := by
  refine ⟨fun u _ => isDirectChild_iff env.cwd u, fun l s o k m h p hp => ?_⟩
  obtain ⟨u, hu, ⟨names, hfoot⟩, -⟩ := inRound_of_run h
  obtain ⟨hne, hpath⟩ := hfoot.paths p hp
  refine ⟨u, hu hne, hpath.imp_right ?_⟩
  rintro ⟨f, -, hf, rfl⟩
  exact ⟨f, rfl, file_stays_iff env.cwd u hf⟩

theorem session_stays_bob : SessionUser .atRoot .little (bytes "bob") ∧
    IsDirectChild Env.atRoot.cwd (userDir (bytes "bob")) := by
  have huser : SessionUser .atRoot .little (bytes "bob") :=
    sessionUser_login rfl rfl .little (by decide) (by decide)
  have hplain : IsPlain (bytes "bob") := by decide
  exact ⟨huser, ((session_stays .atRoot .little).1 _ huser).mpr (staysInStorage_of_plain _ hplain)⟩

/-- A session of the user `..` works in the directory that `storage` itself is in. -/
theorem session_escapes : ¬ ∀ (env : Env) (host : Endian) (u : Bytes), SessionUser env host u →
    IsDirectChild env.cwd (userDir u) := by
  intro h
  have huser : SessionUser .atRoot .little (bytes "..") :=
    sessionUser_login rfl rfl .little (by decide) (by decide)
  have hstays := (isDirectChild_iff _ _).mp (h _ _ _ huser)
  obtain ⟨-, name, hname⟩ := hstays
  have hnames : (simplify (cString (bytes ".."))).2 = [] := by decide
  rw [hnames] at hname
  simp at hname

end Mtfss.StorageRoot
