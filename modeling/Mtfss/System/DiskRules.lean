import Mtfss.System.Disk

/-! What the operations on a disk change, place by place. -/

namespace Mtfss

open Paths

namespace Disk

variable {d d' d'' : Disk} {l m : Loc} {c : Bytes} {x y : Option Node}

/-- Only the place `l` may have changed, and it holds `x` now. -/
structure Sets (d d' : Disk) (l : Loc) (x : Option Node) : Prop where
  node : ∀ m, d'.node m = if m = l then x else d.node m
  denied : d'.denied = d.denied

lemma Sets.at (h : d.Sets d' l x) : d'.node l = x := by
  rw [h.node, if_pos rfl]

lemma Sets.off (h : d.Sets d' l x) (hm : m ≠ l) : d'.node m = d.node m := by
  rw [h.node, if_neg hm]

lemma Sets.trans (h : d.Sets d' l x) (h' : d'.Sets d'' l y) : d.Sets d'' l y where
  node m := by
    rw [h'.node]
    split
    · rfl
    · exact h.off ‹_›
  denied := h'.denied.trans h.denied

lemma Sets.content (h : d.Sets d' l x) (hm : m ≠ l) : d'.content m = d.content m := by
  rw [Disk.content, Disk.content, h.off hm]

lemma openOut_sets (h : d.openOut l = some d') : d.Sets d' l (some (.file [])) := by
  unfold openOut at h
  split at h
  · cases h
    exact ⟨fun _ => rfl, rfl⟩
  · cases h

lemma openOut_isSome_iff :
    (d.openOut l).isSome ↔ d.parentIsDir l = true ∧ d.node l ≠ some .dir ∧ d.denied l = false := by
  unfold openOut
  split <;> simp_all

lemma isRegularFile_iff :
    d.isRegularFile m = true ↔ ∃ c, d.node m = some (.file c) := by
  rw [Disk.isRegularFile, Option.isSome_iff_exists]
  simp

lemma openOut_isSome_of_file (h : d.isRegularFile m = true) :
    (d.openOut m).isSome ↔ d.denied m = false := by
  obtain ⟨c, hc⟩ := isRegularFile_iff.mp h
  have hparent : d.parentIsDir m = true := by
    rcases List.eq_nil_or_concat m with rfl | ⟨m, name, rfl⟩
    · exact (d.root_dir [] (by simp) c hc).elim
    · rw [List.concat_eq_append] at hc ⊢
      have hne : m ≠ [] := by
        rintro rfl
        exact d.root_dir [name] (by simp) c hc
      exact d.parentIsDir_of_exists hne (by simp [hc])
  rw [openOut_isSome_iff]
  simp [hparent, hc]

lemma modify_sets (h : d.node l = some (.file c)) (f : Bytes → Bytes) :
    d.Sets (d.modify l f) l (some (.file (f c))) where
  node m := by
    by_cases hm : m = l
    · subst hm
      simp [modify, h]
    · simp [modify, hm]
  denied := rfl

lemma erase_sets (h : ∀ name, d.node (l ++ [name]) = none) : d.Sets (d.erase l h) l none :=
  ⟨fun _ => rfl, rfl⟩

lemma remove_file (h : d.node l = some (.file c)) :
    ∃ d', d.remove l = some (true, d') ∧ d.Sets d' l none := by
  unfold remove
  split
  · simp_all
  · exact ⟨_, rfl, erase_sets _⟩
  · simp_all

lemma remove_none (h : d.node l = none) : d.remove l = some (false, d) := by
  unfold remove
  split <;> simp_all

lemma remove_sets (h : d.remove l = some (true, d')) : d.Sets d' l none := by
  unfold remove at h
  split at h
  · cases h
  · cases h
    exact erase_sets _
  · split at h
    · cases h
      exact erase_sets _
    · cases h

lemma remove_false (h : d.remove l = some (false, d')) : d' = d ∧ d.node l = none := by
  unfold remove at h
  split at h
  · cases h
    exact ⟨rfl, ‹_›⟩
  · cases h
  · split at h <;> cases h

/-- Directories have been added on the way to `l`, and nothing else has changed. -/
structure AddsDirs (d d' : Disk) (l : Loc) : Prop where
  node : ∀ m, d'.node m = d.node m ∨ (m ≠ [] ∧ m <+: l ∧ d.node m = none ∧ d'.node m = some .dir)
  denied : d'.denied = d.denied

lemma AddsDirs.refl (d : Disk) (l : Loc) : d.AddsDirs d l := ⟨fun _ => Or.inl rfl, rfl⟩

lemma AddsDirs.content (h : d.AddsDirs d' l) (m : Loc) : d'.content m = d.content m := by
  rcases h.node m with hm | ⟨-, -, hm, hm'⟩
  · rw [Disk.content, Disk.content, hm]
  · rw [Disk.content, Disk.content, hm, hm']

lemma AddsDirs.off (h : d.AddsDirs d' l) (hm : ¬ m <+: l) : d'.node m = d.node m := by
  rcases h.node m with hm' | ⟨-, hpre, -⟩
  · exact hm'
  · exact (hm hpre).elim

lemma createDirectories_adds (h : d.createDirectories l = some d') : d.AddsDirs d' l := by
  unfold createDirectories at h
  split at h
  · rename_i hfree
    cases h
    refine ⟨fun m => ?_, rfl⟩
    by_cases hm : m ≠ [] ∧ m <+: l
    · cases hn : d.node m with
      | none => exact Or.inr ⟨hm.1, hm.2, rfl, if_pos hm⟩
      | some n =>
        cases n with
        | dir => exact Or.inl (if_pos hm)
        | file c =>
          have hlen : m = l.take m.length := List.prefix_iff_eq_take.mp hm.2
          have hreg := hfree.2.1 m.length hm.2.length_le
          rw [← hlen] at hreg
          simp [isRegularFile, Disk.content, hn] at hreg
    · exact Or.inl (if_neg hm)
  · cases h

/-- `fs::create_directories` throws when a file, or no root, is in the way, or a name is not
proper. -/
lemma createDirectories_none_iff : d.createDirectories l = none ↔ d.node (l.take 1) ≠ some .dir ∨
    (∃ n ≤ l.length, d.isRegularFile (l.take n) = true) ∨ ∃ name ∈ l.tail, ¬ IsName name := by
  unfold createDirectories
  split
  · rename_i h
    simp only [reduceCtorEq, false_iff, not_or, not_not, not_exists, not_and]
    exact ⟨h.1, fun n hn => by simp [h.2.1 n hn], h.2.2⟩
  · rename_i h
    simp only [true_iff]
    by_contra hno
    simp only [not_or, not_not, not_exists, not_and, Bool.not_eq_true] at hno
    exact h hno

/-- What was at `p` is at `q`. -/
structure Moves (d d' : Disk) (p q : Loc) : Prop where
  node : ∀ m, d'.node m = d.movedNode p q m
  denied : d'.denied = d.denied

lemma rename_moves {p q : Loc} (hpq : p ≠ q) (h : d.rename p q = some d') :
    d.CanMove p q ∧ d.Moves d' p q := by
  unfold rename at h
  rw [if_neg (by simp [hpq])] at h
  split at h
  · cases h
    exact ⟨‹_›, fun _ => rfl, rfl⟩
  · cases h

end Disk

end Mtfss
