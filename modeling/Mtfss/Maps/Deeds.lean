import Mathlib.Logic.Function.Basic

/-! A map that is changed one key at a time. -/

namespace Mtfss

inductive Deed (K V : Type)
  | put (k : K) (v : V)
  | drop (k : K)
  /-- the value of `k` becomes that of `l` -/
  | move (k l : K)

namespace Deed

variable {K V : Type} [DecidableEq K]

def apply : Deed K V → (K → Option V) → K → Option V
  | put k v, m => Function.update m k (some v)
  | drop k, m => Function.update m k none
  | move k l, m => Function.update (Function.update m k none) l (m k)

/-- What is dropped or moved is there, and a move overwrites nothing. -/
def Legal : Deed K V → (K → Option V) → Prop
  | put _ _, _ => True
  | drop k, m => m k ≠ none
  | move k l, m => m k ≠ none ∧ m l = none

def keys : Deed K V → List K
  | put k _ | drop k => [k]
  | move k l => [k, l]

/-- The deeds lead from the one map to the other, each legal where it is made. -/
inductive Plays (m : K → Option V) : List (Deed K V) → (K → Option V) → Prop
  | nil : Plays m [] m
  | concat {es : List (Deed K V)} {m' : K → Option V} (e : Deed K V) :
      Plays m es m' → e.Legal m' → Plays m (es ++ [e]) (e.apply m')

variable {e : Deed K V} {m : K → Option V} {k l : K}

lemma apply_of_notMem (h : k ∉ e.keys) : e.apply m k = m k := by
  cases e with
  | put j v => exact Function.update_of_ne (by simpa [keys] using h) _ _
  | drop j => exact Function.update_of_ne (by simpa [keys] using h) _ _
  | move j l =>
    obtain ⟨hj, hl⟩ : k ≠ j ∧ k ≠ l := by simpa [keys] using h
    rw [apply, Function.update_of_ne hl, Function.update_of_ne hj]

lemma apply_put (v : V) : (put k v).apply m k = some v := Function.update_self _ _ _

lemma apply_drop : (drop k : Deed K V).apply m k = none := Function.update_self _ _ _

lemma apply_move_target : (move k l : Deed K V).apply m l = m k := Function.update_self _ _ _

lemma apply_move_source (h : k ≠ l) : (move k l : Deed K V).apply m k = none := by
  rw [apply, Function.update_of_ne h, Function.update_self]

end Deed

end Mtfss
