import Mtfss.Effects.Safety

/-! Any number of programs running at once on a shared state. -/

namespace Mtfss.Effects

open Relation

variable {ι Op : Type} {Ret : Op → Type} {ε α σ L : Type} [DecidableEq ι]

/-- A thread has a program and what belongs to it alone. `none` is a thread that has not begun. -/
structure Threads (ι Op : Type) (Ret : Op → Type) (ε α L σ : Type) where
  thread : ι → Option (Prog Op Ret ε α × L)
  shared : σ

namespace Threads

def idle (s : σ) : Threads ι Op Ret ε α L σ := ⟨fun _ => none, s⟩

def set (c : Threads ι Op Ret ε α L σ) (i : ι) (t : Prog Op Ret ε α × L) (s : σ) :
    Threads ι Op Ret ε α L σ := ⟨Function.update c.thread i (some t), s⟩

/-- A thread begins with anything that `Start` allows it, or makes its next call. -/
inductive Step (Start : ι → Prog Op Ret ε α × L → Prop) (next : Next Op Ret (L × σ)) :
    Threads ι Op Ret ε α L σ → Threads ι Op Ret ε α L σ → Prop
  | start {c i t} : c.thread i = none → Start i t → Step Start next c (c.set i t c.shared)
  | call {c i o k l l' s'} (r : Ret o) : c.thread i = some (.op o k, l) →
      next o (l, c.shared) r = some (l', s') → Step Start next c (c.set i (k r, l') s')

abbrev Run (Start : ι → Prog Op Ret ε α × L → Prop) (next : Next Op Ret (L × σ)) :
    Threads ι Op Ret ε α L σ → Threads ι Op Ret ε α L σ → Prop :=
  ReflTransGen (Step Start next)

/-- No thread is between its beginning and its end. -/
def Quiescent (c : Threads ι Op Ret ε α L σ) : Prop :=
  ∀ i p l, c.thread i = some (p, l) → ∃ r, p = .ofExcept r

variable {c : Threads ι Op Ret ε α L σ} {Start : ι → Prog Op Ret ε α × L → Prop}
variable {next : Next Op Ret (L × σ)}

@[simp] lemma set_thread_self (i : ι) (t : Prog Op Ret ε α × L) (s : σ) :
    (c.set i t s).thread i = some t := Function.update_self ..

lemma set_thread_ne {i j : ι} (h : j ≠ i) (t : Prog Op Ret ε α × L) (s : σ) :
    (c.set i t s).thread j = c.thread j := Function.update_of_ne h ..

@[simp] lemma set_shared (i : ι) (t : Prog Op Ret ε α × L) (s : σ) : (c.set i t s).shared = s := rfl

@[simp] lemma set_set (i : ι) (t t' : Prog Op Ret ε α × L) (s s' : σ) :
    (c.set i t s).set i t' s' = c.set i t' s' := by
  simp [set]

lemma step_of_step {i : ι} {p q : Prog Op Ret ε α} {l l' : L} {s s' : σ}
    (h : Effects.Step next (p, (l, s)) (q, (l', s'))) :
    Step Start next (c.set i (p, l) s) (c.set i (q, l') s') := by
  cases h with
  | @call o k _ _ r hr =>
    have hstep : Step Start next (c.set i (.op o k, l) s) _ := .call r (set_thread_self ..) hr
    rwa [set_set] at hstep

lemma run_of_steps {i : ι} {p q : Prog Op Ret ε α} {l l' : L} {s s' : σ}
    (h : Steps next (p, (l, s)) (q, (l', s'))) :
    Run Start next (c.set i (p, l) s) (c.set i (q, l') s') := by
  generalize ha : (p, (l, s)) = a at h
  generalize hb : (q, (l', s')) = b at h
  induction h generalizing q l' s' with
  | refl => cases ha; cases hb; exact .refl
  | @tail d _ _ hs ih =>
    obtain ⟨q₁, l₁, s₁⟩ := d
    cases hb
    exact (ih rfl).tail (step_of_step hs)

@[simp] lemma set_eq_self {i : ι} {t : Prog Op Ret ε α × L} (h : c.thread i = some t) :
    c.set i t c.shared = c := by
  obtain ⟨thread, shared⟩ := c
  simp only [set]
  congr
  exact Function.update_eq_self_iff.mpr h.symm

lemma run_on {i : ι} {p q : Prog Op Ret ε α} {l l' : L} {s' : σ} (hi : c.thread i = some (p, l))
    (h : Steps next (p, (l, c.shared)) (q, (l', s'))) : Run Start next c (c.set i (q, l') s') := by
  have hrun : Run Start next (c.set i (p, l) c.shared) (c.set i (q, l') s') := run_of_steps h
  rwa [set_eq_self hi] at hrun

lemma run_thread {i : ι} {p q : Prog Op Ret ε α} {l l' : L} {s' : σ} (hi : c.thread i = none)
    (hstart : Start i (p, l)) (h : Steps next (p, (l, c.shared)) (q, (l', s'))) :
    Run Start next c (c.set i (q, l') s') :=
  .head (.start hi hstart) (run_of_steps h)

omit [DecidableEq ι] in
lemma quiescent_idle (s : σ) : (idle s : Threads ι Op Ret ε α L σ).Quiescent := nofun

lemma Quiescent.set (h : c.Quiescent) (i : ι) (r : Except ε α) (l : L) (s : σ) :
    (c.set i (.ofExcept r, l) s).Quiescent := by
  intro j p l' hj
  by_cases hji : j = i
  · subst hji
    cases (set_thread_self ..).symm.trans hj
    exact ⟨r, rfl⟩
  · exact h j p l' ((set_thread_ne hji ..).symm.trans hj)

/-- What is true of a thread at its beginning and stays true over its own calls stays true of it,
whatever the others do to the shared state. -/
lemma thread_invariant {I : Prog Op Ret ε α → L → Prop} {c₀ : Threads ι Op Ret ε α L σ} {i : ι}
    (h₀ : ∀ p l, c₀.thread i = some (p, l) → I p l) (hstart : ∀ p l, Start i (p, l) → I p l)
    (hcall : ∀ o k l s r l' s', I (.op o k) l → next o (l, s) r = some (l', s') → I (k r) l')
    (h : Run Start next c₀ c) {p : Prog Op Ret ε α} {l : L} (hi : c.thread i = some (p, l)) :
    I p l := by
  induction h generalizing p l with
  | refl => exact h₀ p l hi
  | tail _ hs ih =>
    cases hs with
    | @start j t hj ht =>
      by_cases hij : i = j
      · subst hij
        cases (set_thread_self ..).symm.trans hi
        exact hstart _ _ ht
      · exact ih ((set_thread_ne hij ..).symm.trans hi)
    | @call j o k l₁ l₂ s r hj hr =>
      by_cases hij : i = j
      · subst hij
        cases (set_thread_self ..).symm.trans hi
        exact hcall _ _ _ _ _ _ _ (ih hj) hr
      · exact ih ((set_thread_ne hij ..).symm.trans hi)

/-- An environment seen from one thread, whose own part `R` relates to a state of `view`. -/
def Views {V : Type} (next : Next Op Ret (L × σ)) (view : Next Op Ret V) (R : L → V → Prop) :
    Prop :=
  ∀ o l s r l' s' v, R l v → next o (l, s) r = some (l', s') → ∃ v', view o v r = some v' ∧ R l' v'

/-- A thread that begins with a program that is safe in its own view keeps being so. -/
lemma safe_thread {V : Type} {view : Next Op Ret V} {R : L → V → Prop} {allow : Op → V → Prop}
    {Q : Except ε α → V → Prop} (hview : Views next view R) {s₀ : σ} {i : ι}
    (hstart : ∀ p l, Start i (p, l) → ∃ v, R l v ∧ Safe view allow p Q v)
    (h : Run Start next (idle s₀) c) {p : Prog Op Ret ε α} {l : L}
    (hi : c.thread i = some (p, l)) : ∃ v, R l v ∧ Safe view allow p Q v := by
  refine thread_invariant (I := fun p l => ∃ v, R l v ∧ Safe view allow p Q v) ?_ hstart ?_ h hi
  · intro p l h
    cases h
  rintro o k l s r l' s' ⟨v, hv, hsafe⟩ hr
  obtain ⟨v', hr', hv'⟩ := hview o l s r l' s' v hv hr
  exact ⟨v', hv', hsafe.2 r v' hr'⟩

end Threads

section Following

variable {next : Next Op Ret σ}

/-- At most `n` calls of a program, answered as `pick` says. -/
def follow (pick : (o : Op) → σ → Ret o) (next : Next Op Ret σ) :
    ℕ → Prog Op Ret ε α → σ → Option (Prog.Running Op Ret ε α σ)
  | n + 1, .op o k, s => (next o s (pick o s)).bind (follow pick next n (k (pick o s)))
  | _, p, s => some (p, s)

lemma steps_of_follow {pick : (o : Op) → σ → Ret o} {n : ℕ} {p : Prog Op Ret ε α} {s : σ}
    {c : Prog.Running Op Ret ε α σ} (h : follow pick next n p s = some c) :
    Steps next (p, s) c := by
  induction n generalizing p s with
  | zero =>
    cases p <;> cases h <;> exact .refl
  | succ n ih =>
    cases p with
    | pure a => cases h; exact .refl
    | throw e => cases h; exact .refl
    | op o k =>
      obtain ⟨s', hs, hrest⟩ := Option.bind_eq_some_iff.mp h
      exact .head (.call _ hs) (ih hrest)

def Prog.isOver : Prog Op Ret ε α → Bool
  | .op _ _ => false
  | _ => true

lemma Prog.exists_of_isOver {p : Prog Op Ret ε α} (h : p.isOver = true) : ∃ r, p = .ofExcept r := by
  cases p with
  | pure a => exact ⟨.ok a, rfl⟩
  | throw e => exact ⟨.error e, rfl⟩
  | op o k => cases h

end Following

end Mtfss.Effects
