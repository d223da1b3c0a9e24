import Mathlib.Data.List.DropRight
import Mtfss.Maps.Keying
import Mtfss.Properties.FileIdentity

/-! When the metadata index does not care how a directory is spelled. -/

namespace Mtfss.IndexSpelling

open Maps Paths FileIdentity

/-- `add_file`, with the size and the time that it has read, `remove_file` or `remove_directory`. -/
abbrev Change := Edit Bytes Bytes (UInt64 × Bytes)

def change (ix : Index) : Change → Index
  | .put directory filename (size, time) => ix.addFile directory filename size time
  | .erase directory filename => ix.removeFile directory filename
  | .prune directory => ix.removeDirectory directory

def indexAfter (changes : List Change) : Index := changes.foldl change .empty

/-- The directory that a string spells: all slashes in one direction, and none at the end. -/
def spelled (directory : Bytes) : Bytes := (directory.map slashed).rdropWhile (· == slash)

/-- One flat map, in which a spelling stands for its directory. -/
def flat : Keying Bytes Bytes := ⟨spelled, Index.isRemoved⟩

/-- One flat map, keyed as the index is. -/
def normalized : Keying Bytes Bytes := ⟨normalizePath, Index.isRemoved⟩

/-- The index answers for the directory as the flat map would, and lists each file once. -/
structure Answers (ix : Index) (m : Flat Bytes Bytes (UInt64 × Bytes)) (directory : Bytes) :
    Prop where
  exist : ∀ f, ix.fileExists directory f = (m (spelled directory) f).isSome
  size : ∀ f, ix.getFileSize directory f = ((m (spelled directory) f).map Prod.fst).getD 0
  listed : ∀ r, r ∈ ix.listDirectory directory ↔
    m (spelled directory) r.filename = some (r.size, r.upload_time)
  once : ((ix.listDirectory directory).map FileMetadata.filename).Nodup

section Refinement

variable {ix : Index} {m n : Flat Bytes Bytes (UInt64 × Bytes)}

def record (f : Bytes) (v : UInt64 × Bytes) : FileMetadata := ⟨f, v.1, v.2⟩

def Holds (ix : Index) (n : Flat Bytes Bytes (UInt64 × Bytes)) : Prop :=
  ∀ key f, ix.entry key f = (n key f).map (record f)

lemma Holds.change (h : Holds ix n) (c : Change) : Holds (change ix c) (normalized.apply n c) := by
  intro key f
  cases c with
  | put directory filename value =>
    rw [IndexSpelling.change, Index.addFile, Index.entry_put, h key f]
    by_cases hk : key = normalizePath directory ∧ f = filename
    · obtain ⟨rfl, rfl⟩ := hk
      simp [Keying.apply, normalized, record]
    · simp [Keying.apply, normalized, hk]
  | erase directory filename =>
    rw [IndexSpelling.change, Index.removeFile, Index.entry_drop, h key f]
    by_cases hk : key = normalizePath directory ∧ f = filename
    · simp [Keying.apply, normalized, hk]
    · simp [Keying.apply, normalized, hk]
  | prune directory =>
    rw [IndexSpelling.change, Index.entry_removeDirectory, h key f]
    by_cases hk : Index.isRemoved (normalizePath directory) key = true
    · simp [Keying.apply, normalized, hk]
    · simp [Keying.apply, normalized, hk]

lemma holds_indexAfter (changes : List Change) :
    Holds (indexAfter changes) (normalized.run changes) := by
  induction changes using List.reverseRecOn with
  | nil => exact fun _ _ => rfl
  | append_singleton changes c ih =>
    rw [Keying.run_concat, indexAfter, List.foldl_append]
    exact ih.change c

lemma answers_iff (h : Holds ix n) (directory : Bytes) :
    Answers ix m directory ↔ ∀ f, n (normalizePath directory) f = m (spelled directory) f := by
  have hlisted : ∀ r, r ∈ ix.listDirectory directory ↔
      n (normalizePath directory) r.filename = some (r.size, r.upload_time) := by
    intro r
    rw [Index.mem_listDirectory, h]
    cases n (normalizePath directory) r.filename with
    | none => simp
    | some v =>
      obtain ⟨name, size, time⟩ := r
      obtain ⟨size', time'⟩ := v
      simp [record]
  constructor
  · intro ha f
    apply Option.ext
    rintro ⟨size, time⟩
    exact (hlisted ⟨f, size, time⟩).symm.trans (ha.listed ⟨f, size, time⟩)
  · intro heq
    refine ⟨fun f => ?_, fun f => ?_, fun r => ?_, ix.nodup_listDirectory directory⟩
    · rw [Index.fileExists, h, Option.isSome_map, heq]
    · rw [Index.getFileSize, h, Option.map_map, heq]
      rfl
    · rw [hlisted, heq]

end Refinement

section Spelling

variable {x y d e : Bytes} {c : Byte}

lemma append_replicate_inj (hx : ∀ z, x ≠ z ++ [c]) (hy : ∀ z, y ≠ z ++ [c]) {i j : ℕ} :
    x ++ List.replicate i c = y ++ List.replicate j c ↔ x = y ∧ i = j := by
  induction i generalizing j with
  | zero =>
    cases j with
    | zero => simp
    | succ j =>
      have hne := hx (y ++ List.replicate j c)
      simpa [List.replicate_succ'] using hne
  | succ i ih =>
    cases j with
    | zero =>
      have hne := hy (x ++ List.replicate i c)
      simpa [List.replicate_succ', eq_comm] using hne
    | succ j =>
      rw [List.replicate_succ', List.replicate_succ', ← List.append_assoc, ← List.append_assoc,
        List.append_left_inj, ih, Nat.add_right_cancel_iff]

lemma prefix_append_replicate (hx : ∀ z, x ≠ z ++ [c]) (hy : ∀ z, y ≠ z ++ [c]) {i j : ℕ} :
    x ++ List.replicate (i + 1) c <+: y ++ List.replicate j c ↔
      (x = y ∧ i < j) ∨ x ++ List.replicate (i + 1) c <+: y := by
  induction j with
  | zero => simp
  | succ j ih =>
    have hwhole : x ++ List.replicate (i + 1) c = y ++ List.replicate j c ++
        [c] ↔ x = y ∧ i = j := by
      rw [List.append_assoc, ← List.replicate_succ', append_replicate_inj hx hy,
        Nat.add_right_cancel_iff]
    rw [List.replicate_succ' (n := j), ← List.append_assoc, List.prefix_concat_iff, hwhole, ih,
      Nat.lt_succ_iff_lt_or_eq]
    tauto

def ends (d : Bytes) : ℕ := ((d.map slashed).rtakeWhile (· == slash)).length

/-- How many are left once one is taken off, unless it is the whole string. -/
def leftover (d : Bytes) : ℕ := if d.length = 1 then ends d else ends d - 1

lemma map_slashed_eq (d : Bytes) : d.map slashed = spelled d ++ List.replicate (ends d) slash := by
  have hends : (d.map slashed).rtakeWhile (· == slash) = List.replicate (ends d) slash :=
    List.eq_replicate_of_mem fun b hb => by simpa using List.mem_rtakeWhile_imp hb
  rw [← hends]
  exact (List.rdropWhile_append_rtakeWhile ..).symm

lemma spelled_not_slash (d z : Bytes) : spelled d ≠ z ++ [slash] := by
  intro h
  rw [spelled] at h
  have hlast := List.rdropWhile_last_not (· == slash) (d.map slashed) (by simp [h])
  simp [h] at hlast

lemma length_eq (d : Bytes) : d.length = (spelled d).length + ends d := by
  have h := congrArg List.length (map_slashed_eq d)
  simpa using h

/-- No separator but slashes is left, and as many of those at the end as there were, less one. -/
lemma normalizePath_eq (d : Bytes) :
    normalizePath d = spelled d ++ List.replicate (leftover d) slash := by
  have hnorm : normalizePath d = if 1 < (d.map slashed).length ∧
      (d.map slashed).getLast? = some slash then
    (d.map slashed).dropLast else d.map slashed := rfl
  rw [hnorm, List.length_map, leftover]
  cases hends : ends d with
  | zero =>
    have hlast : (d.map slashed).getLast? ≠ some slash := by
      intro h
      obtain ⟨z, hz⟩ := List.getLast?_eq_some_iff.mp h
      rw [map_slashed_eq, hends, List.replicate_zero, List.append_nil] at hz
      exact spelled_not_slash d z hz
    rw [if_neg fun h => hlast h.2, map_slashed_eq, hends]
    simp
  | succ k =>
    have hmap : d.map slashed = spelled d ++ List.replicate k slash ++ [slash] := by
      rw [map_slashed_eq, hends, List.replicate_succ', List.append_assoc]
    rw [hmap]
    by_cases hlen : d.length = 1
    · rw [if_neg (by omega), if_pos hlen, List.replicate_succ', List.append_assoc]
    · have hlong := length_eq d
      rw [if_pos ⟨by omega, by simp⟩, List.dropLast_concat, if_neg hlen, Nat.add_sub_cancel]

lemma normalizePath_inj : normalizePath d = normalizePath e ↔ spelled d = spelled e ∧
    leftover d = leftover e := by
  rw [normalizePath_eq, normalizePath_eq]
  exact append_replicate_inj (spelled_not_slash d) (spelled_not_slash e)

lemma below_normalizePath : normalizePath d ++ [slash] <+: normalizePath e ↔
    (spelled d = spelled e ∧ leftover d < leftover e) ∨
      spelled d ++ List.replicate (leftover d + 1) slash <+: spelled e := by
  rw [normalizePath_eq, normalizePath_eq, List.append_assoc, ← List.replicate_succ']
  exact prefix_append_replicate (spelled_not_slash d) (spelled_not_slash e)

lemma isRemoved_iff {dir key : Bytes} : Index.isRemoved dir key = true ↔
    key = dir ∨ dir ++ [slash] <+: key := by
  simp [Index.isRemoved]

lemma isRemoved_normalizePath : Index.isRemoved (normalizePath d) (normalizePath e) = true ↔
    (spelled d = spelled e ∧ leftover d ≤ leftover e) ∨
      spelled d ++ List.replicate (leftover d + 1) slash <+: spelled e := by
  rw [isRemoved_iff, normalizePath_inj, below_normalizePath, eq_comm (a := spelled e),
    Nat.le_iff_lt_or_eq]
  tauto

/-- Strings that spell one directory have as many separators left as each other, and a directory's
name goes on with the ones its string has left, and one more, in every directory below it. -/
structure Uniform (D : Set Bytes) : Prop where
  same : ∀ d ∈ D, ∀ e ∈ D, spelled d = spelled e → leftover d = leftover e
  below : ∀ d ∈ D, ∀ e ∈ D, spelled d ++ [slash] <+: spelled e →
    spelled d ++ List.replicate (leftover d + 1) slash <+: spelled e

lemma uniform_of_leftover {D : Set Bytes} (h : ∀ d ∈ D, leftover d = 0) : Uniform D where
  same d hd e he _ := (h d hd).trans (h e he).symm
  below d hd e _ hbelow := by
    rw [h d hd]
    exact hbelow

lemma spelled_ne_of_below (h : spelled d ++ [slash] <+: spelled e) : spelled d ≠ spelled e := by
  intro heq
  have hlen := h.length_le
  rw [heq, List.length_append] at hlen
  simp at hlen

lemma consistent_iff {D : Set Bytes} : Keying.Consistent normalized flat D ↔ Uniform D := by
  constructor
  · intro h
    refine ⟨fun d hd e he heq => (normalizePath_inj.mp ((h.key d hd e he).mpr heq)).2,
      fun d hd e he hbelow => ?_⟩
    have hremoved := (h.covers d hd e he).trans (isRemoved_iff.mpr (Or.inr hbelow))
    rcases isRemoved_normalizePath.mp hremoved with ⟨heq, -⟩ | hunder
    · exact (spelled_ne_of_below hbelow heq).elim
    · exact hunder
  · intro h
    refine ⟨fun d hd e he => ?_, fun d hd e he => Bool.eq_iff_iff.mpr ?_⟩
    · exact normalizePath_inj.trans ⟨And.left, fun heq => ⟨heq, h.same d hd e he heq⟩⟩
    · refine isRemoved_normalizePath.trans (Iff.trans ?_ isRemoved_iff.symm)
      constructor
      · rintro (⟨heq, -⟩ | hunder)
        · exact Or.inl heq.symm
        · rw [List.replicate_succ] at hunder
          exact Or.inr ((List.prefix_append_right_inj _).mpr (List.prefix_append [slash] _)
            |>.trans hunder)
      · rintro (heq | hbelow)
        · exact Or.inl ⟨heq.symm, (h.same d hd e he heq.symm).le⟩
        · exact Or.inr (h.below d hd e he hbelow)

lemma slashed_slashed (c : Byte) : slashed (slashed c) = slashed c := by
  by_cases h : c = backslash
  · subst h
    decide
  · have hsame : slashed c = c := if_neg h
    rw [hsame, hsame]

/-- A normalised path has only slashes, so it spells what the path did and ends in what was left. -/
lemma ends_normalizePath (p : Bytes) :
    spelled (normalizePath p) = spelled p ∧ ends (normalizePath p) = leftover p := by
  have hmap : (normalizePath p).map slashed = normalizePath p := by
    refine (List.map_congr_left (g := id) fun b hb => ?_).trans (List.map_id _)
    have hmem : b ∈ p.map slashed := by
      rw [map_slashed_eq]
      rw [normalizePath_eq] at hb
      rcases List.mem_append.mp hb with h | h
      · exact List.mem_append_left _ h
      · have hle : leftover p ≤ ends p := by
          rw [leftover]
          split <;> omega
        obtain ⟨hpos, rfl⟩ := List.mem_replicate.mp h
        exact List.mem_append_right _ (List.mem_replicate.mpr ⟨by omega, rfl⟩)
    obtain ⟨c, -, rfl⟩ := List.mem_map.mp hmem
    exact slashed_slashed c
  rw [map_slashed_eq, normalizePath_eq p] at hmap
  rw [normalizePath_eq p]
  exact (append_replicate_inj (spelled_not_slash _) (spelled_not_slash p)).mp hmap

/-- A second step takes off another separator when more than one ends a string longer than two. -/
lemma normalizePath_idem_iff (p : Bytes) : normalizePath (normalizePath p) = normalizePath p ↔
    ends p ≤ 1 ∨ p.length ≤ 2 := by
  obtain ⟨hspelled, hends⟩ := ends_normalizePath p
  have hlen := length_eq p
  have hlen' := length_eq (normalizePath p)
  rw [hspelled, hends] at hlen'
  rw [normalizePath_inj, hspelled, leftover, hends, hlen']
  simp only [leftover, hlen, true_and]
  split_ifs <;> omega

end Spelling

/-- Over the strings of `D`, the index answers every query after every run of calls as the flat map
does exactly when the strings are uniform. -/
theorem answers_iff_uniform (D : Set Bytes) :
    ((∀ changes : List Change, (∀ c ∈ changes, c.name ∈ D) →
        ∀ d ∈ D, Answers (indexAfter changes) (flat.run changes) d) ↔ Uniform D) ∧
      ((∀ d ∈ D, leftover d = 0) → Uniform D) ∧
      (∀ p, normalizePath (normalizePath p) = normalizePath p ↔ ends p ≤ 1 ∨ p.length ≤ 2) ∧
      ∀ (changes : List Change) d m, (indexAfter changes).dirs.lookup d = some m →
        m.entries ≠ [] := by
  refine ⟨?_, uniform_of_leftover, normalizePath_idem_iff, fun changes =>
    (indexAfter changes).inhabited⟩
  have hanswers : ∀ (changes : List Change) d, Answers (indexAfter changes) (flat.run changes) d ↔
      ∀ f, normalized.run changes (normalized.key d) f = flat.run changes (flat.key d) f :=
    fun changes d => answers_iff (holds_indexAfter changes) d
  simp only [hanswers]
  exact Keying.run_eq_iff.trans consistent_iff

/-- A file added under `a` is not found under `a//`. -/
theorem not_answers : ¬ ∀ (changes : List Change) d, Answers (indexAfter changes)
    (flat.run changes) d := by
  intro h
  have hexist := (h [.put (bytes "a") (bytes "x") (1, [])] (bytes "a//")).exist (bytes "x")
  revert hexist
  decide +kernel

end Mtfss.IndexSpelling
