import Mathlib.Data.Set.Basic

/-! Resources that are changed under locks, in several steps between which they are not in order. -/

namespace Mtfss.Effects

variable {ι R : Type}

/-- `held` are the resources that a thread has locked, and `busy` those that it is in the middle of
changing. -/
structure Custody (held busy : ι → Set R) (good : R → Prop) (midway : ι → Prop) : Prop where
  locked : ∀ i, busy i ⊆ held i
  midway : ∀ i, midway i
  rest : ∀ x, (∀ i, x ∉ busy i) → good x

variable {held held' busy busy' : ι → Set R} {good good' : R → Prop} {midway midway' : ι → Prop}

/-- Thread `i` changes resources in `T`, all of which it has locked. -/
lemma Custody.step (h : Custody held busy good midway) {i : ι} {T : Set R} (hT : T ⊆ held i)
    (hexcl : ∀ j, j ≠ i → ∀ x ∈ held j, x ∉ held i)
    (hothers : ∀ j, j ≠ i → held' j = held j ∧ busy' j = busy j) (hlocked : busy' i ⊆ held' i)
    (hmid : ∀ j, j ≠ i → (∀ x ∈ busy j, x ∉ T) → midway j → midway' j) (hown : midway' i)
    (hgood : ∀ x, x ∉ T → good x → good' x)
    (hdone : ∀ x, x ∈ busy i ∨ x ∈ T → x ∉ busy' i → good' x) :
    Custody held' busy' good' midway' where
  locked j := by
    by_cases hj : j = i
    · subst hj
      exact hlocked
    · rw [(hothers j hj).1, (hothers j hj).2]
      exact h.locked j
  midway j := by
    by_cases hj : j = i
    · subst hj
      exact hown
    · exact hmid j hj (fun x hx hxT => hexcl j hj x (h.locked j hx) (hT hxT)) (h.midway j)
  rest x hx := by
    by_cases hmine : x ∈ busy i ∨ x ∈ T
    · exact hdone x hmine (hx i)
    · obtain ⟨hbusy, hxT⟩ := not_or.mp hmine
      refine hgood x hxT (h.rest x fun j => ?_)
      by_cases hj : j = i
      · rwa [hj]
      · rw [← (hothers j hj).2]
        exact hx j

end Mtfss.Effects
