import Mtfss.Properties.StorageRoot

/-! Where the files of a user are, and which spellings of a name are the same file. -/

namespace Mtfss.FileIdentity

open Paths StorageRoot

variable {cwd : Cwd} {u f : Bytes}

/-- The path denotes an entry directly inside the directory. -/
def IsEntryOf (cwd : Cwd) (dir p : Bytes) : Prop :=
  ∃ name, resolve cwd p = resolve cwd dir ++ [name]

lemma userDir_plain (hu : IsPlain u) : userDir u = storage ++ backslash :: u :=
  userDir_relative hu.noDrive (hasRootDirectory_of_name hu)

lemma resolve_userDir_plain (cwd : Cwd) (hu : IsPlain u) :
    resolve cwd (userDir u) = storageLoc cwd ++ [u] := by
  apply resolve_append_plain cwd hu storage_name.noNul storage_name.ne_nil
  exact (rootName_userDir.trans hu.noDrive).trans storage_name.noDrive.symm

lemma resolve_file_plain (cwd : Cwd) (hu : IsPlain u) (hf : IsPlain f) :
    resolve cwd (filePath u f) = storageLoc cwd ++ [u, f] := by
  have hroot : rootName (append (userDir u) f) = rootName (userDir u) := by
    rw [append_relative hf.noDrive (hasRootDirectory_of_name hf)]
    exact rootName_extend (unfinished_of_plain hu) hf.noSep
  rw [filePath, resolve_append_plain cwd hf (nul_notMem_userDir hu.noNul) (userDir_ne_nil u) hroot,
    resolve_userDir_plain cwd hu]
  simp

lemma isEntryOf_plain (cwd : Cwd) (hu : IsPlain u) (hf : IsPlain f) :
    IsEntryOf cwd (userDir u) (filePath u f) := by
  refine ⟨f, ?_⟩
  rw [resolve_file_plain cwd hu hf, resolve_userDir_plain cwd hu]
  simp

/-- The part of an accepted filename that the system reads has a drive exactly if the whole has. -/
lemma rootName_cString (hf : isValidFilename f = true) (hne : cString f ≠ []) :
    rootName (cString f) = [] ↔ rootName f = [] := by
  have hdir : ∀ p : Bytes, (∀ b ∈ p, isSep b = false) → hasRootDirectory p = false := fun p hp =>
    head_noSep fun b hb => hp b (List.mem_of_mem_drop hb)
  have hcut := hdir (cString f) fun b hb => noSep_of_valid hf b (mem_of_mem_cString hb)
  have hrooted := unrooted_cString hne
  simpa only [hcut, hdir f (noSep_of_valid hf), and_true] using hrooted

lemma isPlain_cString (hf : isValidFilename f = true) (hnil : cString f ≠ [])
    (hdot : cString f ≠ [dot]) (hroot : rootName f = []) : IsPlain (cString f) where
  ne_nil := hnil
  ne_dot := hdot
  ne_dots := cString_ne_dots (noDots_of_valid hf)
  noSep b hb := noSep_of_valid hf b (mem_of_mem_cString hb)
  noNul := nul_notMem_cString f
  noDrive := (rootName_cString hf hnil).mpr hroot

/-- An accepted filename names an entry of the user's directory exactly when what the system reads
of it, up to its first NUL byte, is a single name without a drive. -/
theorem file_in_userDir_iff (cwd : Cwd) (hu : IsPlain u) (hf : isValidFilename f = true) :
    IsEntryOf cwd (userDir u) (filePath u f) ↔ IsPlain (cString f) := by
  have hplace : rootName f = [] →
      resolve cwd (filePath u f) = resolve cwd (userDir u) ++ entry f := by
    intro hroot
    rw [resolve_file cwd u hf, whereabouts, if_pos (.inl hroot), if_neg hu.noNul,
      if_neg (by simp [unfinished_of_plain hu]), resolve_userDir]
  constructor
  · rintro ⟨name, h⟩
    have hroot : rootName f = [] := by
      by_contra hroot
      have hdrive : ¬ StaysInDir u f := not_or.mpr ⟨hroot, by rwa [hu.noDrive]⟩
      rw [resolve_userDir_plain cwd hu] at h
      have hhead : (resolve cwd (filePath u f)).head? = (storageLoc cwd).head? := by
        rw [h, List.append_assoc, List.head?_append_of_ne_nil]
        simp [storageLoc_eq]
      have hlen := drive_length cwd hf hdrive hhead
      rw [h] at hlen
      simp at hlen
    rw [hplace hroot, List.append_cancel_left_eq, entry, relative_of_noRoot hroot] at h
    split at h
    · cases h
    · rename_i hname
      obtain ⟨hnil, hdot⟩ := not_or.mp hname
      exact isPlain_cString hf hnil hdot hroot
  · intro hplain
    have hroot := (rootName_cString hf hplain.ne_nil).mp hplain.noDrive
    refine ⟨cString f, ?_⟩
    rw [hplace hroot, entry, relative_of_noRoot hroot,
      if_neg (not_or.mpr ⟨hplain.ne_nil, hplain.ne_dot⟩)]

lemma plain_bob : IsPlain (bytes "bob") := by decide

theorem file_in_userDir_bob :
    IsEntryOf Env.atRoot.cwd (userDir (bytes "bob")) (filePath (bytes "bob") (bytes "x")) :=
  (file_in_userDir_iff Env.atRoot.cwd plain_bob (by decide)).mpr (by decide)

/-- The accepted filename `C:x` replaces the user's directory. -/
theorem file_out_of_userDir : ¬ ∀ (cwd : Cwd) (u f : Bytes), IsPlain u → isValidFilename f = true →
    IsEntryOf cwd (userDir u) (filePath u f) := by
  intro hall
  obtain ⟨name, h⟩ := hall Env.atRoot.cwd (bytes "bob") (bytes "C:x") plain_bob (by decide)
  have hlen := congrArg List.length h
  rw [List.length_append,
    show (resolve Env.atRoot.cwd (filePath (bytes "bob") (bytes "C:x"))).length = 2
    by decide, show (resolve Env.atRoot.cwd (userDir (bytes "bob"))).length = 3 by decide] at hlen
  simp at hlen

/-- The index takes the two for one file. -/
def SameEntry (u₁ f₁ u₂ f₂ : Bytes) : Prop :=
  normalizePath (indexDir u₁) = normalizePath (indexDir u₂) ∧ f₁ = f₂

/-- The disk, the lock manager and the index agree on whether the two are one file. -/
structure OneIdentity (cwd : Cwd) (u₁ f₁ u₂ f₂ : Bytes) : Prop where
  place_key : resolve cwd (filePath u₁ f₁) = resolve cwd (filePath u₂ f₂) ↔
    filePath u₁ f₁ = filePath u₂ f₂
  key_entry : filePath u₁ f₁ = filePath u₂ f₂ ↔ SameEntry u₁ f₁ u₂ f₂

def slashed (c : Byte) : Byte := if c = backslash then slash else c

/-- The name with slashes for backslashes, and without one at its end. -/
def tidy (u : Bytes) : Bytes :=
  if (u.map slashed).getLast? = some slash then (u.map slashed).dropLast else u.map slashed

/-- The usernames are equal but for the direction of slashes and one slash at the end. -/
def SlashAlike (u₁ u₂ : Bytes) : Prop := tidy u₁ = tidy u₂ ∧ (u₁ = [] ↔ u₂ = [])

/-- The second username has a backslash after the first one's last name. -/
def AddsBackslash (u₁ u₂ : Bytes) : Prop := hasFilename u₁ = true ∧ u₂ = u₁ ++ [backslash]

/-- The filenames are equal, and the usernames are but for one backslash at the end; where the
filename has a drive of its own, but for the direction of slashes and one slash at the end. -/
def SpelledAlike (u₁ f₁ u₂ f₂ : Bytes) : Prop :=
  f₁ = f₂ ∧ if StaysInDir u₁ f₁ then u₁ = u₂ ∨ AddsBackslash u₁ u₂ ∨ AddsBackslash u₂ u₁
    else SlashAlike u₁ u₂

lemma indexDir_inj {u v : Bytes} : indexDir u = indexDir v ↔ u = v := by
  rw [indexDir, indexDir, List.append_cancel_left_eq]

lemma slashed_eq {c b : Byte} (hb : isSep b = false) : slashed c = b ↔ c = b := by
  rw [slashed]
  split
  · rename_i h
    subst h
    constructor
    · rintro rfl
      cases hb
    · rintro rfl
      cases hb
  · rfl

lemma slashed_eq_slash {c : Byte} : slashed c = slash ↔ isSep c = true := by
  rw [slashed]
  split <;> simp_all [isSep]

lemma map_slashed_eq {u n : Bytes} (hn : ∀ b ∈ n, isSep b = false) : u.map slashed = n ↔ u = n := by
  induction u generalizing n with
  | nil => simp [eq_comm]
  | cons c u ih =>
    cases n with
    | nil => simp
    | cons b n =>
      rw [List.map_cons, List.cons.injEq, List.cons.injEq, slashed_eq (hn b (by simp)),
        ih fun x hx => hn x (List.mem_cons_of_mem _ hx)]

lemma normalizePath_concat (v : Bytes) (b : Byte) : normalizePath (indexDir (v ++ [b])) =
    if isSep b = true then indexDir (v.map slashed) else indexDir ((v ++ [b]).map slashed) := by
  have hmap : (indexDir (v ++ [b])).map (fun c => if c = backslash then slash else c) =
      indexDir (v.map slashed) ++ [slashed b] := by
    rw [indexDir, indexDir, List.map_append, List.map_append, List.append_assoc]
    rfl
  have hlong : 1 < (indexDir (v.map slashed) ++ [slashed b]).length := by
    rw [List.length_append, indexDir, List.length_append]
    have : 1 < (bytes "storage/").length := by decide
    omega
  simp only [normalizePath, hmap, hlong, true_and, List.getLast?_concat, List.dropLast_concat,
    Option.some.injEq, slashed_eq_slash]
  split
  · rfl
  · rw [indexDir, indexDir, List.map_append, List.append_assoc]
    rfl

lemma tidy_concat (v : Bytes) (b : Byte) :
    tidy (v ++ [b]) = if isSep b = true then v.map slashed else (v ++ [b]).map slashed := by
  rw [tidy, List.map_append, List.map_singleton, List.getLast?_concat, List.dropLast_concat]
  simp only [Option.some.injEq, slashed_eq_slash]

lemma normalizePath_tidy (u : Bytes) :
    normalizePath (indexDir u) = if u = [] then storage else indexDir (tidy u) := by
  rcases List.eq_nil_or_concat u with rfl | ⟨v, b, rfl⟩
  · decide
  · rw [List.concat_eq_append, if_neg (by simp), normalizePath_concat, tidy_concat]
    split <;> rfl

/-- The index takes two usernames for one exactly when they are alike but for slashes. -/
lemma slashAlike_iff {u₁ u₂ : Bytes} :
    normalizePath (indexDir u₁) = normalizePath (indexDir u₂) ↔ SlashAlike u₁ u₂ := by
  have hne : ∀ v, storage ≠ indexDir v := by
    intro v h
    have hlen := congrArg List.length h
    rw [indexDir, List.length_append, show storage.length = 7 by decide,
      show (bytes "storage/").length = 8 by decide] at hlen
    omega
  rw [normalizePath_tidy, normalizePath_tidy, SlashAlike]
  by_cases h₁ : u₁ = []
  · by_cases h₂ : u₂ = []
    · simp [h₁, h₂]
    · simp [h₁, h₂, hne]
  · by_cases h₂ : u₂ = []
    · simp [h₁, h₂, (hne _).symm]
    · simp [h₁, h₂, indexDir_inj]

lemma sameEntry_iff {u₁ f₁ u₂ f₂ : Bytes} :
    SameEntry u₁ f₁ u₂ f₂ ↔ f₁ = f₂ ∧ SlashAlike u₁ u₂ := by
  rw [SameEntry, slashAlike_iff, and_comm]

lemma userDir_inj {u₁ u₂ : Bytes} : userDir u₁ = userDir u₂ ↔ u₁ = u₂ := by
  have hmixed : ∀ {u v : Bytes}, rootName u = [] ∧ hasRootDirectory u = false →
      ¬ (rootName v = [] ∧ hasRootDirectory v = false) → userDir u ≠ userDir v := by
    intro u v hu hv h
    rw [userDir_relative hu.1 hu.2, userDir_rooted hv] at h
    apply hv
    rw [unrooted_iff, ← h]
    have hletter : (0x74 : Byte) ≠ colon := by decide
    exact ⟨rfl, fun hsecond => hletter (Option.some.inj hsecond)⟩
  by_cases h₁ : rootName u₁ = [] ∧ hasRootDirectory u₁ = false
  · by_cases h₂ : rootName u₂ = [] ∧ hasRootDirectory u₂ = false
    · rw [userDir_relative h₁.1 h₁.2, userDir_relative h₂.1 h₂.2]
      simp
    · exact iff_of_false (hmixed h₁ h₂) fun h => h₂ (h ▸ h₁)
  · by_cases h₂ : rootName u₂ = [] ∧ hasRootDirectory u₂ = false
    · exact iff_of_false (hmixed h₂ h₁).symm fun h => h₁ (h ▸ h₂)
    · rw [userDir_rooted h₁, userDir_rooted h₂]

lemma hasFilename_concat {b : Byte} (hb : isSep b = true) (p : Bytes) :
    hasFilename (p ++ [b]) = false := by
  rw [hasFilename, relative]
  rcases le_or_gt (rootName (p ++ [b])).length p.length with hle | hlt
  · rw [List.drop_append_of_le_length hle, List.getLast?_concat]
    simp [hb]
  · rw [List.drop_eq_nil_of_le (by simpa using Nat.succ_le_of_lt hlt)]
    rfl

lemma userDir_concat (h : hasFilename u = true) :
    userDir (u ++ [backslash]) = userDir u ++ [backslash] := by
  have hsame : (rootName (u ++ [backslash]) = [] ∧ hasRootDirectory (u ++ [backslash]) = false) ↔
      (rootName u = [] ∧ hasRootDirectory u = false) := by
    rw [unrooted_iff, unrooted_iff]
    match u with
    | [] => cases h
    | [c] => simp [show backslash ≠ colon by decide]
    | c :: d :: rest => simp
  by_cases hu : rootName u = [] ∧ hasRootDirectory u = false
  · have hb := hsame.mpr hu
    rw [userDir_relative hu.1 hu.2, userDir_relative hb.1 hb.2]
    simp
  · rw [userDir_rooted hu, userDir_rooted (mt hsame.mp hu)]

/-- Two user directories make the same paths exactly when the usernames are equal but for one
backslash at the end. -/
lemma extend_userDir_eq_iff {u₁ u₂ : Bytes} : extend (userDir u₁) [] = extend (userDir u₂) [] ↔
    u₁ = u₂ ∨ AddsBackslash u₁ u₂ ∨ AddsBackslash u₂ u₁ := by
  have hadd : ∀ {u v : Bytes}, hasFilename u = true →
      (userDir u ++ [backslash] = userDir v ↔ v = u ++ [backslash]) := by
    intro u v hu
    rw [← userDir_concat hu, userDir_inj, eq_comm]
  have hself : ∀ {u v : Bytes}, AddsBackslash u v → hasFilename v = false := by
    rintro u v ⟨-, rfl⟩
    exact hasFilename_concat (by decide) u
  rw [extend, extend, hasFilename_userDir, hasFilename_userDir, List.append_nil, List.append_nil]
  cases h₁ : hasFilename u₁ with
  | false =>
    cases h₂ : hasFilename u₂ with
    | false => simp [AddsBackslash, h₁, h₂, userDir_inj]
    | true =>
      have hne : u₁ ≠ u₂ := by
        rintro rfl
        simp [h₁] at h₂
      simp [AddsBackslash, h₁, h₂, hne, ← hadd h₂, eq_comm]
  | true =>
    cases h₂ : hasFilename u₂ with
    | false =>
      have hne : u₁ ≠ u₂ := by
        rintro rfl
        simp [h₁] at h₂
      simp [AddsBackslash, h₁, h₂, hne, ← hadd h₁]
    | true =>
      have hno : ¬ AddsBackslash u₁ u₂ := fun h => by simp [hself h] at h₂
      have hno' : ¬ AddsBackslash u₂ u₁ := fun h => by simp [hself h] at h₁
      simp [hno, hno', userDir_inj]

/-- A backslash after the last name does not matter to the index. -/
lemma slashAlike_of_adds {u₁ u₂ : Bytes} (h : AddsBackslash u₁ u₂) : SlashAlike u₁ u₂ := by
  obtain ⟨hname, rfl⟩ := h
  rcases List.eq_nil_or_concat u₁ with rfl | ⟨v, b, rfl⟩
  · cases hname
  · rw [List.concat_eq_append] at *
    have hb : isSep b = false := by
      by_contra hb
      rw [hasFilename_concat (by simpa using hb)] at hname
      cases hname
    refine ⟨?_, by simp⟩
    rw [tidy_concat, tidy_concat, hb, if_neg (by simp), if_pos (by decide)]

lemma extend_eq (p x : Bytes) : extend p x = extend p [] ++ x := by
  unfold extend
  split <;> simp

lemma prefix_normalizePath {q p : Bytes} {c : Byte} (hc : c ≠ slash) :
    q ++ [c] <+: normalizePath p ↔ q ++ [c] <+: p.map slashed := by
  have hnorm : normalizePath p = if 1 < (p.map slashed).length ∧
      (p.map slashed).getLast? = some slash then (p.map slashed).dropLast else p.map slashed := rfl
  rw [hnorm]
  generalize p.map slashed = m
  split
  · rename_i h
    constructor
    · exact fun hq => hq.trans (List.dropLast_prefix m)
    · intro hq
      rcases List.eq_nil_or_concat m with rfl | ⟨xs, x, rfl⟩
      · simp at h
      · rw [List.concat_eq_append] at hq h ⊢
        obtain rfl : x = slash := by simpa using h.2
        rw [List.dropLast_concat]
        rcases List.prefix_concat_iff.mp hq with heq | hq
        · exact (hc (List.append_inj_right' heq rfl |> List.singleton_injective)).elim
        · exact hq
  · exact Iff.rfl

lemma rootName_drive_iff {c : Byte} (hc : isSep c = false) :
    rootName u = [c, colon] ↔ bytes "storage/" ++ [c, colon] <+: normalizePath (indexDir u) := by
  have hcs : c ≠ slash ∧ c ≠ backslash := by simpa [isSep] using hc
  have hsplit : bytes "storage/" ++ [c, colon] = (bytes "storage/" ++ [c]) ++ [colon] := by simp
  have hmap : (indexDir u).map slashed = bytes "storage/" ++ u.map slashed := by
    rw [indexDir, List.map_append]
    rfl
  rw [hsplit, prefix_normalizePath (by decide), ← hsplit, hmap, List.prefix_append_right_inj]
  constructor
  · intro h
    rcases u with - | ⟨a, - | ⟨d, rest⟩⟩
    · simp [rootName] at h
    · simp [rootName] at h
    · have had : a = c ∧ d = colon := by
        simp only [rootName] at h
        split at h
        · simpa using h
        · split at h
          · split at h
            · split at h
              · simp at h
              · simp_all
            · simp at h
          · simp at h
      obtain ⟨rfl, rfl⟩ := had
      simp [slashed, hcs.2]
      decide
  · rintro ⟨t, h⟩
    rcases u with - | ⟨a, - | ⟨d, rest⟩⟩
    · simp at h
    · simp at h
    · have hinv : ∀ {x y : Byte}, y ≠ slash → y = slashed x → x = y := by
        intro x y hy h
        rw [slashed] at h
        split at h
        · exact (hy h).elim
        · exact h.symm
      simp only [List.cons_append, List.map_cons, List.cons.injEq] at h
      obtain rfl := hinv hcs.1 h.1
      obtain rfl := hinv (by decide) h.2.1
      simp [rootName, hc]

lemma staysInDir_congr {u₁ u₂ : Bytes} (hf : isValidFilename f = true)
    (h : normalizePath (indexDir u₁) = normalizePath (indexDir u₂)) :
    StaysInDir u₁ f ↔ StaysInDir u₂ f := by
  by_cases hroot : rootName f = []
  · simp [StaysInDir, hroot]
  · obtain ⟨c, rest, rfl, hc, hr, -, -⟩ := drive_of_valid hf hroot
    have hdrive : ∀ u, StaysInDir u (c :: colon :: rest) ↔ rootName u = [c, colon] := by
      intro u
      rw [StaysInDir, hr]
      exact ⟨fun h => (h.resolve_left (by simp)).symm, fun h => Or.inr h.symm⟩
    rw [hdrive, hdrive, rootName_drive_iff hc, rootName_drive_iff hc, h]

lemma filePath_drive (hdrive : ¬ StaysInDir u f) : filePath u f = f := by
  obtain ⟨hroot, hother⟩ := not_or.mp hdrive
  rw [filePath, append, rootName_userDir, if_pos]
  simp [hroot, hother]

/-- Two accepted names have one lock and one entry exactly when they are spelled alike. -/
lemma spelledAlike_iff {u₁ f₁ u₂ f₂ : Bytes} (hf : isValidFilename f₁ = true) :
    SpelledAlike u₁ f₁ u₂ f₂ ↔ filePath u₁ f₁ = filePath u₂ f₂ ∧ SameEntry u₁ f₁ u₂ f₂ := by
  have hkey : SlashAlike u₁ u₂ → (filePath u₁ f₁ = filePath u₂ f₁ ↔
      (StaysInDir u₁ f₁ → u₁ = u₂ ∨ AddsBackslash u₁ u₂ ∨ AddsBackslash u₂ u₁)) := by
    intro halike
    have hdir := staysInDir_congr hf (slashAlike_iff.mpr halike)
    by_cases hdrive : StaysInDir u₁ f₁
    · rw [filePath_extend hf hdrive, filePath_extend hf (hdir.mp hdrive), extend_eq,
        extend_eq (userDir u₂), List.append_left_inj, extend_userDir_eq_iff]
      simp [hdrive]
    · rw [filePath_drive hdrive, filePath_drive (mt hdir.mpr hdrive)]
      simp [hdrive]
  have halike : u₁ = u₂ ∨ AddsBackslash u₁ u₂ ∨ AddsBackslash u₂ u₁ → SlashAlike u₁ u₂ := by
    rintro (rfl | hadds | hadds)
    · exact ⟨rfl, Iff.rfl⟩
    · exact slashAlike_of_adds hadds
    · obtain ⟨htidy, hnil⟩ := slashAlike_of_adds hadds
      exact ⟨htidy.symm, hnil.symm⟩
  rw [SpelledAlike, sameEntry_iff]
  constructor
  · rintro ⟨rfl, hspelled⟩
    split at hspelled
    · exact ⟨(hkey (halike hspelled)).mpr fun _ => hspelled, rfl, halike hspelled⟩
    · rename_i hdrive
      exact ⟨(hkey hspelled).mpr fun h => (hdrive h).elim, rfl, hspelled⟩
  · rintro ⟨hpath, rfl, hslashes⟩
    refine ⟨rfl, ?_⟩
    split
    · rename_i hdrive
      exact (hkey hslashes).mp hpath hdrive
    · exact hslashes

lemma one_identity_iff_spelledAlike {u₁ f₁ u₂ f₂ : Bytes} (cwd : Cwd)
    (hf₁ : isValidFilename f₁ = true) (hf₂ : isValidFilename f₂ = true) :
    OneIdentity cwd u₁ f₁ u₂ f₂ ↔ SpelledAlike u₁ f₁ u₂ f₂ ∨
      (whereabouts cwd u₁ f₁ ≠ whereabouts cwd u₂ f₂ ∧ ¬ (f₁ = f₂ ∧ SlashAlike u₁ u₂)) := by
  rw [spelledAlike_iff hf₁, ← sameEntry_iff, ← resolve_file cwd u₁ hf₁, ← resolve_file cwd u₂ hf₂]
  have hplace : filePath u₁ f₁ = filePath u₂ f₂ →
      resolve cwd (filePath u₁ f₁) = resolve cwd (filePath u₂ f₂) := congrArg _
  constructor
  · rintro ⟨hpk, hke⟩
    by_cases hkey : filePath u₁ f₁ = filePath u₂ f₂
    · exact Or.inl ⟨hkey, hke.mp hkey⟩
    · exact Or.inr ⟨mt hpk.mp hkey, mt hke.mpr hkey⟩
  · rintro (⟨hkey, hentry⟩ | ⟨hplaces, hentry⟩)
    · exact ⟨iff_of_true (hplace hkey) hkey, iff_of_true hkey hentry⟩
    · have hkey := mt hplace hplaces
      exact ⟨iff_of_false hplaces hkey, iff_of_false hkey hentry⟩

lemma normalizePath_indexDir (hu : IsName u) : normalizePath (indexDir u) = indexDir u := by
  have hmap : u.map slashed = u := (map_slashed_eq hu.noSep).mpr rfl
  have hlast : u.getLast? ≠ some slash := by
    intro h
    cases hu.noSep slash (List.mem_of_getLast? h)
  rw [normalizePath_tidy, if_neg hu.ne_nil, tidy, hmap, if_neg hlast]

/-- Names that are single components are spelled alike only when they are equal, and then only lead
to the same place. -/
lemma one_identity_of_plain {u₁ f₁ u₂ f₂ : Bytes} (cwd : Cwd) (hu₁ : IsPlain u₁) (hf₁ : IsPlain f₁)
    (hu₂ : IsPlain u₂) (hf₂ : IsPlain f₂) : OneIdentity cwd u₁ f₁ u₂ f₂ := by
  have hplace : resolve cwd (filePath u₁ f₁) = resolve cwd (filePath u₂ f₂) →
      u₁ = u₂ ∧ f₁ = f₂ := by
    intro h
    rw [resolve_file_plain cwd hu₁ hf₁, resolve_file_plain cwd hu₂ hf₂,
      List.append_cancel_left_eq] at h
    simpa using h
  have hkey : filePath u₁ f₁ = filePath u₂ f₂ ↔ u₁ = u₂ ∧ f₁ = f₂ := by
    constructor
    · exact fun h => hplace (congrArg _ h)
    · rintro ⟨rfl, rfl⟩
      rfl
  have hentry : SameEntry u₁ f₁ u₂ f₂ ↔ u₁ = u₂ ∧ f₁ = f₂ := by
    rw [SameEntry, normalizePath_indexDir hu₁.toIsName,
      normalizePath_indexDir hu₂.toIsName, indexDir, indexDir,
      List.append_cancel_left_eq]
  exact ⟨⟨fun h => hkey.mpr (hplace h), congrArg _⟩, hkey.trans hentry.symm⟩

/-- Disk, lock manager and index agree on two accepted names exactly when these are spelled alike,
or lead to different places and differ by more than slashes. Among names that are single components
that is always so. -/
theorem one_identity_iff (cwd : Cwd) (u₁ f₁ u₂ f₂ : Bytes) (hf₁ : isValidFilename f₁ = true)
    (hf₂ : isValidFilename f₂ = true) :
    (OneIdentity cwd u₁ f₁ u₂ f₂ ↔ SpelledAlike u₁ f₁ u₂ f₂ ∨
      (whereabouts cwd u₁ f₁ ≠ whereabouts cwd u₂ f₂ ∧ ¬ (f₁ = f₂ ∧ SlashAlike u₁ u₂))) ∧
    (IsPlain u₁ → IsPlain u₂ → IsPlain f₁ → IsPlain f₂ → OneIdentity cwd u₁ f₁ u₂ f₂) :=
  ⟨one_identity_iff_spelledAlike cwd hf₁ hf₂,
    fun hu₁ hu₂ hplain₁ hplain₂ => one_identity_of_plain cwd hu₁ hplain₁ hu₂ hplain₂⟩

theorem one_identity_bob :
    OneIdentity Env.atRoot.cwd (bytes "bob") (bytes "x") (bytes "bob") (bytes "y") :=
  (one_identity_iff _ _ _ _ _ (by decide) (by decide)).2 plain_bob plain_bob (by decide) (by decide)

/-- The usernames `a` and `./a` share their files and nothing else. -/
theorem not_one_identity : ¬ ∀ (env : Env) (host : Endian) (u₁ f₁ u₂ f₂ : Bytes),
    SessionUser env host u₁ → SessionUser env host u₂ → isValidFilename f₁ = true →
    isValidFilename f₂ = true → OneIdentity env.cwd u₁ f₁ u₂ f₂ := by
  intro hall
  have huser : ∀ u : Bytes, u ≠ [] → u.length + 10 < 2 ^ 31 → SessionUser .atRoot .little u :=
    fun u hu h => sessionUser_login rfl rfl .little hu h
  have hone := hall _ _ _ (bytes "x") _ (bytes "x") (huser (bytes "a") (by decide) (by decide))
    (huser (bytes "./a") (by decide) (by decide)) (by decide) (by decide)
  have hkey := hone.place_key.mp (by decide)
  exact absurd hkey (by decide)

end Mtfss.FileIdentity
