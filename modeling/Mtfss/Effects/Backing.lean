import Mathlib.Data.Set.Card

/-! Debts each of which is backed by a token of its own. -/

namespace Mtfss.Effects

variable {τ : Type} {k k' : ℕ} {H H' : Set τ}

/-- There are at least `k` tokens. -/
def Backed (k : ℕ) (H : Set τ) : Prop := (k : ℕ∞) ≤ H.encard

/-- A change of the debt that the change of the tokens makes up for. -/
inductive Repays (k k' : ℕ) (H H' : Set τ) : Prop
  | keep : k' ≤ k → H ⊆ H' → Repays k k' H H'
  | gain (b : τ) : k' ≤ k + 1 → H ⊆ H' → b ∈ H' → b ∉ H → Repays k k' H H'
  | spend (a : τ) : k' + 1 ≤ k → H \ {a} ⊆ H' → Repays k k' H H'
  | pass (a b : τ) : k' ≤ k → H \ {a} ⊆ H' → b ∈ H' → b ∉ H → Repays k k' H H'

lemma backed_zero (H : Set τ) : Backed 0 H := zero_le

lemma Backed.mono (h : Backed k H) (hk : k' ≤ k) (hH : H ⊆ H') : Backed k' H' :=
  (Nat.cast_le.mpr hk).trans (h.trans (Set.encard_le_encard hH))

lemma Backed.add_token {b : τ} (h : Backed k H) (hb : b ∉ H) : Backed (k + 1) (insert b H) := by
  rw [Backed, Set.encard_insert_of_notMem hb, Nat.cast_add, Nat.cast_one]
  exact add_le_add_left h 1

lemma Backed.drop_token (a : τ) (h : Backed (k + 1) H) : Backed k (H \ {a}) := by
  have hone : H.encard ≤ (H \ {a}).encard + 1 := by
    rw [← Set.encard_singleton a]
    exact Set.encard_le_encard_sdiff_add_encard H {a}
  have hle : ((k : ℕ∞) + 1) ≤ (H \ {a}).encard + 1 := by
    refine le_trans ?_ hone
    exact_mod_cast h
  exact (ENat.add_le_add_iff_right ENat.one_ne_top).mp hle

lemma Backed.repay (h : Backed k H) (hs : Repays k k' H H') : Backed k' H' := by
  cases hs with
  | keep hk hH => exact h.mono hk hH
  | gain b hk hH hb hnew => exact (h.add_token hnew).mono hk (Set.insert_subset hb hH)
  | spend a hk hH => exact ((h.mono hk subset_rfl).drop_token a).mono le_rfl hH
  | pass a b hk hH hb hnew =>
    cases k with
    | zero => exact (backed_zero H').mono hk subset_rfl
    | succ k =>
      have hout : b ∉ H \ {a} := fun hin => hnew hin.1
      exact ((h.drop_token a).add_token hout).mono hk (Set.insert_subset hb hH)

end Mtfss.Effects
