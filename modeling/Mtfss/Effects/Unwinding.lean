import Mathlib.Logic.Relation
import Mathlib.Tactic.Common

/-! Any number of parties that act on a shared state, and when some of them go unnoticed. -/

namespace Mtfss.Effects

open Relation

variable {ι X σ : Type} [DecidableEq ι]

/-- A party has a state of its own. `none` is a party that has not begun. -/
structure Parties (ι X σ : Type) where
  party : ι → Option X
  shared : σ

namespace Parties

def idle (s : σ) : Parties ι X σ := ⟨fun _ => none, s⟩

def set (c : Parties ι X σ) (i : ι) (x : X) (s : σ) : Parties ι X σ :=
  ⟨Function.update c.party i (some x), s⟩

/-- A party begins, or makes one of its moves. -/
inductive Step (Start : ι → X → Prop) (Move : ι → X × σ → X × σ → Prop) :
    Parties ι X σ → Parties ι X σ → Prop
  | start {c i x} : c.party i = none → Start i x → Step Start Move c (c.set i x c.shared)
  | move {c i x x' s'} : c.party i = some x → Move i (x, c.shared) (x', s') →
      Step Start Move c (c.set i x' s')

abbrev Run (Start : ι → X → Prop) (Move : ι → X × σ → X × σ → Prop) :
    Parties ι X σ → Parties ι X σ → Prop :=
  ReflTransGen (Step Start Move)

variable {Start : ι → X → Prop} {Move : ι → X × σ → X × σ → Prop} {c d : Parties ι X σ}
variable {i j : ι} {x : X} {s : σ}

@[simp] lemma set_party_self (i : ι) (x : X) (s : σ) : (c.set i x s).party i = some x :=
  Function.update_self ..

lemma set_party_ne (h : j ≠ i) (x : X) (s : σ) : (c.set i x s).party j = c.party j :=
  Function.update_of_ne h ..

@[simp] lemma set_shared (i : ι) (x : X) (s : σ) : (c.set i x s).shared = s := rfl

@[simp] lemma set_set (i : ι) (x x' : X) (s s' : σ) :
    (c.set i x s).set i x' s' = c.set i x' s' := by
  simp [set]

lemma run_moves {m m' : X × σ} (h : ReflTransGen (Move i) m m') :
    Run Start Move (c.set i m.1 m.2) (c.set i m'.1 m'.2) := by
  induction h with
  | refl => exact .refl
  | @tail m₁ m₂ _ hm ih =>
    have hstep : Step Start Move (c.set i m₁.1 m₁.2) ((c.set i m₁.1 m₁.2).set i m₂.1 m₂.2) :=
      .move (set_party_self ..) hm
    rw [set_set] at hstep
    exact ih.tail hstep

lemma run_party {m : X × σ} (hi : c.party i = none) (hx : Start i x)
    (h : ReflTransGen (Move i) (x, c.shared) m) : Run Start Move c (c.set i m.1 m.2) :=
  .head (.start hi hx) (run_moves h)

lemma Step.none (h : Step Start Move c d) (hj : d.party j = none) : c.party j = none := by
  cases h with
  | @start i x hnone hx =>
    by_cases hji : j = i
    · exact hji ▸ hnone
    · rwa [set_party_ne hji] at hj
  | @move i x x' s' hparty hmove =>
    by_cases hji : j = i
    · subst hji
      cases (set_party_self ..).symm.trans hj
    · rwa [set_party_ne hji] at hj

lemma run_alone (h : Run Start Move (idle s) c) (honly : ∀ j ≠ i, c.party j = none) :
    (c.party i = none ∧ c.shared = s) ∨
      ∃ x x', Start i x ∧ c.party i = some x' ∧ ReflTransGen (Move i) (x, s) (x', c.shared) := by
  induction h with
  | refl => exact .inl ⟨rfl, rfl⟩
  | @tail c c' _ hs ih =>
    have hbefore := ih fun j hj => hs.none (honly j hj)
    cases hs with
    | @start j x hnone hx =>
      have hji : j = i := by
        by_contra hji
        cases (set_party_self ..).symm.trans (honly j hji)
      subst hji
      rcases hbefore with ⟨-, hshared⟩ | ⟨_, x', -, hx', -⟩
      · exact .inr ⟨x, x, hx, set_party_self .., by rw [set_shared, hshared]⟩
      · cases hnone.symm.trans hx'
    | @move j x x' s' hparty hmove =>
      have hji : j = i := by
        by_contra hji
        cases (set_party_self ..).symm.trans (honly j hji)
      subst hji
      rcases hbefore with ⟨hnone, -⟩ | ⟨x₀, x₁, hx₀, hx₁, hmoves⟩
      · cases hnone.symm.trans hparty
      · cases hparty.symm.trans hx₁
        exact .inr ⟨x₀, x', hx₀, set_party_self .., hmoves.tail hmove⟩

section Unwinding

variable {I : ι → X → Prop} {hidden : Set ι} {Agree : σ → σ → Prop}

/-- The moves of the hidden parties keep a shared state in agreement with one that they do not
touch, and those of the others can be made alike on states that agree. -/
structure Unnoticed (Move : ι → X × σ → X × σ → Prop) (I : ι → X → Prop) (hidden : Set ι)
    (Agree : σ → σ → Prop) : Prop where
  keep : ∀ {i x s x' s'}, I i x → Move i (x, s) (x', s') → I i x'
  aside : ∀ {i x s x' s' t}, i ∈ hidden → I i x → Agree s t → Move i (x, s) (x', s') → Agree s' t
  alike : ∀ {i x s x' s' t}, i ∉ hidden → I i x → Agree s t → Move i (x, s) (x', s') →
    ∃ t', Move i (x, t) (x', t') ∧ Agree s' t'

/-- The second configuration has the parties of the first that are not hidden. -/
structure Hides (I : ι → X → Prop) (hidden : Set ι) (Agree : σ → σ → Prop) (c d : Parties ι X σ) :
    Prop where
  inv : ∀ i x, c.party i = some x → I i x
  shown : ∀ i ∉ hidden, d.party i = c.party i
  absent : ∀ i ∈ hidden, d.party i = none
  shared : Agree c.shared d.shared

omit [DecidableEq ι] in
lemma hides_idle {s t : σ} (h : Agree s t) : Hides (X := X) I hidden Agree (idle s) (idle t) :=
  ⟨nofun, fun _ _ => rfl, fun _ _ => rfl, h⟩

lemma inv_set (h : ∀ i x, c.party i = some x → I i x) (hx : I i x) :
    ∀ j y, (c.set i x s).party j = some y → I j y := by
  intro j y hj
  by_cases hji : j = i
  · subst hji
    cases (set_party_self ..).symm.trans hj
    exact hx
  · exact h j y ((set_party_ne hji ..).symm.trans hj)

lemma Hides.set {t : σ} (h : Hides I hidden Agree c d) (hx : I i x) (hi : i ∉ hidden)
    (hst : Agree s t) : Hides I hidden Agree (c.set i x s) (d.set i x t) where
  inv := inv_set h.inv hx
  shown j hj := by
    by_cases hji : j = i
    · subst hji
      rw [set_party_self, set_party_self]
    · rw [set_party_ne hji, set_party_ne hji, h.shown j hj]
  absent j hj := by
    have hji : j ≠ i := by
      rintro rfl
      exact hi hj
    rw [set_party_ne hji, h.absent j hj]
  shared := hst

lemma Hides.aside (h : Hides I hidden Agree c d) (hx : I i x) (hi : i ∈ hidden)
    (hs : Agree s d.shared) : Hides I hidden Agree (c.set i x s) d where
  inv := inv_set h.inv hx
  shown j hj := by
    have hji : j ≠ i := by
      rintro rfl
      exact hj hi
    rw [set_party_ne hji, h.shown j hj]
  absent := h.absent
  shared := hs

lemma Hides.step {c' : Parties ι X σ} (hU : Unnoticed Move I hidden Agree)
    (hstart : ∀ i x, Start i x → I i x) (h : Hides I hidden Agree c d) (hs : Step Start Move c c') :
    ∃ d', Run Start Move d d' ∧ Hides I hidden Agree c' d' := by
  cases hs with
  | @start i x hnone hx =>
    by_cases hi : i ∈ hidden
    · exact ⟨d, .refl, h.aside (hstart i x hx) hi h.shared⟩
    · exact ⟨_, .single (.start ((h.shown i hi).trans hnone) hx), h.set (hstart i x hx) hi h.shared⟩
  | @move i x x' s' hparty hmove =>
    have hx := h.inv i x hparty
    have hx' := hU.keep hx hmove
    by_cases hi : i ∈ hidden
    · exact ⟨d, .refl, h.aside hx' hi (hU.aside hi hx h.shared hmove)⟩
    · obtain ⟨t', hmove', hagree⟩ := hU.alike hi hx h.shared hmove
      exact ⟨_, .single (.move ((h.shown i hi).trans hparty) hmove'), h.set hx' hi hagree⟩

/-- Without the hidden parties the others can act as they do with them. -/
theorem unwind (hU : Unnoticed Move I hidden Agree) (hstart : ∀ i x, Start i x → I i x) {s t : σ}
    (hst : Agree s t) (hrun : Run Start Move (idle s) c) :
    ∃ d, Run Start Move (idle t) d ∧ Hides I hidden Agree c d := by
  induction hrun with
  | refl => exact ⟨idle t, .refl, hides_idle hst⟩
  | tail _ hs ih =>
    obtain ⟨d, hd, hides⟩ := ih
    obtain ⟨d', hd', hides'⟩ := hides.step hU hstart hs
    exact ⟨d', hd.trans hd', hides'⟩

end Unwinding

end Parties

end Mtfss.Effects
