import Mathlib.Data.Set.Basic
import Mathlib.Data.List.Induction

/-! Maps whose keys are made from names, and when two ways to make the keys cannot be told apart. -/

namespace Mtfss.Maps

variable {N K L F V : Type}

/-- How a name is made into a key, and which keys go with a key when it is pruned. -/
structure Keying (N K : Type) where
  key : N → K
  covers : K → K → Bool

inductive Edit (N F V : Type)
  | put (name : N) (field : F) (value : V)
  | erase (name : N) (field : F)
  | prune (name : N)

def Edit.name : Edit N F V → N
  | .put name _ _ | .erase name _ | .prune name => name

abbrev Flat (K F V : Type) := K → F → Option V

namespace Keying

variable [DecidableEq K] [DecidableEq L] [DecidableEq F] (κ : Keying N K) (ρ : Keying N L)

def apply (m : Flat K F V) : Edit N F V → Flat K F V
  | .put name field value => fun k f => if k = κ.key name ∧ f = field then some value else m k f
  | .erase name field => fun k f => if k = κ.key name ∧ f = field then none else m k f
  | .prune name => fun k f => if κ.covers (κ.key name) k = true then none else m k f

def run (edits : List (Edit N F V)) : Flat K F V := edits.foldl κ.apply (fun _ _ => none)

@[simp] lemma run_nil : κ.run ([] : List (Edit N F V)) = fun _ _ => none := rfl

@[simp] lemma run_concat (edits : List (Edit N F V)) (edit : Edit N F V) :
    κ.run (edits ++ [edit]) = κ.apply (κ.run edits) edit := by
  simp [run]

variable {κ ρ} {D : Set N}

/-- The two make the same keys equal and prune the same keys, of names in `D`. -/
structure Consistent (κ : Keying N K) (ρ : Keying N L) (D : Set N) : Prop where
  key : ∀ d ∈ D, ∀ e ∈ D, κ.key d = κ.key e ↔ ρ.key d = ρ.key e
  covers : ∀ d ∈ D, ∀ e ∈ D, κ.covers (κ.key d) (κ.key e) = ρ.covers (ρ.key d) (ρ.key e)

lemma Consistent.apply (h : Consistent κ ρ D) {m : Flat K F V} {n : Flat L F V}
    (hmn : ∀ d ∈ D, ∀ f, m (κ.key d) f = n (ρ.key d) f) {edit : Edit N F V}
    (hedit : edit.name ∈ D) :
    ∀ d ∈ D, ∀ f, κ.apply m edit (κ.key d) f = ρ.apply n edit (ρ.key d) f := by
  intro d hd f
  cases edit with
  | put name field value => simp only [Keying.apply, h.key d hd name hedit, hmn d hd f]
  | erase name field => simp only [Keying.apply, h.key d hd name hedit, hmn d hd f]
  | prune name => simp only [Keying.apply, h.covers name hedit d hd, hmn d hd f]

lemma Consistent.run (h : Consistent κ ρ D) {edits : List (Edit N F V)}
    (hedits : ∀ edit ∈ edits, edit.name ∈ D) :
    ∀ d ∈ D, ∀ f, κ.run edits (κ.key d) f = ρ.run edits (ρ.key d) f := by
  induction edits using List.reverseRecOn with
  | nil => intros; rfl
  | append_singleton edits edit ih =>
    rw [run_concat, run_concat]
    exact h.apply (ih fun e he => hedits e (List.mem_append_left _ he)) (hedits edit (by simp))

/-- One value put and looked up again tells two keys apart, and one value put and pruned tells
whether its key is covered. -/
lemma consistent_of_run [Nonempty F] [Nonempty V] (h : ∀ edits : List (Edit N F V),
    (∀ edit ∈ edits, edit.name ∈ D) →
    ∀ d ∈ D, ∀ f, κ.run edits (κ.key d) f = ρ.run edits (ρ.key d) f) :
    Consistent κ ρ D := by
  obtain ⟨f⟩ := ‹Nonempty F›
  obtain ⟨v⟩ := ‹Nonempty V›
  constructor
  · intro d hd e he
    have hput := h [.put e f v] (by simpa [Edit.name] using he) d hd f
    by_cases hκ : κ.key d = κ.key e <;> by_cases hρ : ρ.key d = ρ.key e <;>
      simp_all [Keying.run, Keying.apply]
  · intro d hd e he
    have hprune := h [.put e f v, .prune d] (by simpa [Edit.name] using ⟨he, hd⟩) e he f
    cases hκ : κ.covers (κ.key d) (κ.key e) <;> cases hρ : ρ.covers (ρ.key d) (ρ.key e) <;>
      simp_all [Keying.run, Keying.apply]

/-- Two keyings cannot be told apart on some names exactly when they are consistent there. -/
theorem run_eq_iff [Nonempty F] [Nonempty V] : (∀ edits : List (Edit N F V),
    (∀ edit ∈ edits, edit.name ∈ D) →
    ∀ d ∈ D, ∀ f, κ.run edits (κ.key d) f = ρ.run edits (ρ.key d) f) ↔
      Consistent κ ρ D :=
  ⟨consistent_of_run, fun h _ => h.run⟩

end Keying

end Mtfss.Maps
