import Mtfss.Effects.Safety
import Mathlib.Algebra.BigOperators.Group.Finset.Basic
import Mathlib.Data.DFinsupp.WellFounded

/-! Loops whose rounds use something up come to an end, whatever the answers. -/

namespace Mtfss.Effects

section Orders

variable {α ι : Type}

/-- A step from nothing to anything, or on. -/
def Onward (r : α → α → Prop) (x y : Option α) : Prop := ∃ a, x = some a ∧ ∀ b, y = some b → r a b

lemma onward_wellFounded {r : α → α → Prop} (hr : WellFounded r) : WellFounded (Onward r) := by
  have hsome : ∀ a, Acc (Onward r) (some a) := by
    intro a
    induction a using hr.induction with
    | _ a ih =>
      constructor
      rintro _ ⟨b, rfl, hb⟩
      exact ih b (hb a rfl)
  constructor
  rintro (_ | a)
  · constructor
    rintro _ ⟨b, rfl, -⟩
    exact hsome b
  · exact hsome a

/-- A step of one of several. -/
def OneOf (r : α → α → Prop) (f g : ι → α) : Prop := ∃ i, r (f i) (g i) ∧ ∀ j ≠ i, f j = g j

lemma oneOf_wellFounded (n : ℕ) {r : α → α → Prop} (hr : WellFounded r) :
    WellFounded (fun f g : Fin n → α => OneOf r f g) := by
  refine Subrelation.wf ?_ (Pi.Lex.wellFounded (· < ·) fun _ : Fin n => hr)
  rintro f g ⟨i, hi, hothers⟩
  exact ⟨i, fun j hj => hothers j hj.ne, hi⟩

lemma sum_update_add (f : α → ℕ) (g : ℕ → α) {n i : ℕ} (hi : i < n) (x : α) :
    ∑ j ∈ Finset.range n, f (Function.update g i x j) + f (g i) =
      ∑ j ∈ Finset.range n, f (g j) + f x := by
  have hmem : i ∈ Finset.range n := Finset.mem_range.mpr hi
  rw [← Finset.add_sum_erase _ _ hmem, ← Finset.add_sum_erase _ (fun j => f (g j)) hmem,
    Function.update_self]
  have hothers : ∑ j ∈ (Finset.range n).erase i, f (Function.update g i x j) =
      ∑ j ∈ (Finset.range n).erase i, f (g j) := by
    apply Finset.sum_congr rfl
    intro j hj
    rw [Function.update_of_ne (Finset.ne_of_mem_erase hj)]
  omega

variable {σ : Type} {R : σ → σ → Prop}

/-- Steps that make something smaller, as long as `P` holds, which they keep. -/
lemma acc_of_lt {lt : α → α → Prop} (hlt : WellFounded lt) {f : σ → α} {P : σ → Prop}
    (hkeep : ∀ s s', P s → R s s' → P s') (hstep : ∀ s s', P s → R s s' → lt (f s') (f s)) {s : σ}
    (hs : P s) : Acc (fun s' s => R s s') s := by
  generalize ha : f s = a
  induction a using hlt.induction generalizing s with
  | _ a ih =>
    constructor
    intro s' hr
    exact ih (f s') (ha ▸ hstep s s' hs hr) (hkeep s s' hs hr) rfl

lemma exists_last {s : σ} (h : Acc (fun s' s => R s s') s) :
    ∃ t, Relation.ReflTransGen R s t ∧ ∀ t', ¬ R t t' := by
  induction h with
  | intro s _ ih =>
    by_cases hstep : ∃ s', R s s'
    · obtain ⟨s', hr⟩ := hstep
      obtain ⟨t, hrun, hlast⟩ := ih s' hr
      exact ⟨t, .head hr hrun, hlast⟩
    · exact ⟨s, .refl, not_exists.mp hstep⟩

end Orders

variable {Op : Type} {Ret : Op → Type} {ε α σ S R : Type} {next : Next Op Ret σ}

/-- When no call makes `size` larger, and each round that goes on makes it smaller, there is no
infinite execution of a loop. -/
lemma loopStep_wellFounded {body : S → Prog Op Ret ε (R ⊕ S)} (size : σ → ℕ)
    (hsize : ∀ o s r s', next o s r = some s' → size s' ≤ size s)
    (hbody : ∀ x s, Safe next (fun _ _ => True) (body x)
      (fun r t => ∀ y, r = .ok (.inr y) → size t < size s) s) :
    WellFounded fun d c : Prog.Running Op Ret ε (R ⊕ S) σ => LoopStep next body c d := by
  -- from below a bound on the size, a program that ends below it ends, and so does what follows
  have hprog : ∀ n, (∀ x s, size s < n → Acc (fun d c => LoopStep next body c d) (body x, s)) →
      ∀ p s, Safe next (fun _ _ => True) p (fun r t => ∀ y, r = .ok (.inr y) → size t < n) s →
        Acc (fun d c => LoopStep next body c d) (p, s) := by
    intro n hn p
    induction p with
    | pure a =>
      intro s hs
      constructor
      rintro _ (hstep | _)
      · cases hstep
      · exact hn _ _ (hs _ rfl)
    | throw e =>
      intro s hs
      constructor
      rintro _ (hstep | _)
      cases hstep
    | op o k ih =>
      intro s hs
      constructor
      rintro _ (hstep | _)
      cases hstep with
      | call r hr => exact ih r _ (hs.2 r _ hr)
  have hbodies : ∀ n, ∀ x s, size s < n → Acc (fun d c => LoopStep next body c d) (body x, s) := by
    intro n
    induction n with
    | zero => exact fun x s hs => (Nat.not_lt_zero _ hs).elim
    | succ n ih =>
      intro x s hs
      apply hprog n ih
      exact safe_mono (hbody x s) fun r t h y hy => (h y hy).trans_le (Nat.le_of_lt_succ hs)
  constructor
  rintro ⟨p, s⟩
  apply hprog (size s + 1) (hbodies _)
  refine safe_mono (safe_invariant (Q := fun _ _ => True) (I := fun t => size t ≤ size s)
    ?_ ?_ le_rfl) ?_
  · exact fun o t r t' hr ht => (hsize o t r t' hr).trans ht
  · exact safe_of_forall (fun _ _ => trivial) fun _ _ => trivial
  · exact fun r t h y _ => Nat.lt_succ_of_le h.2

end Mtfss.Effects
