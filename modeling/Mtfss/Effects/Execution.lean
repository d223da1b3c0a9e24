import Mtfss.Effects.Program

/-! Executions of a program against an environment that answers its calls, and the
weakest-precondition rules for them. -/

namespace Mtfss.Effects

open Relation

variable {Op : Type} {Ret : Op → Type} {ε α β σ : Type}

/-- `next o s r` is the state after the call `o` is answered with `r` in state `s`, and `none`
when the environment cannot give that answer there. -/
abbrev Next (Op : Type) (Ret : Op → Type) (σ : Type) := (o : Op) → σ → Ret o → Option σ

abbrev Prog.Running (Op : Type) (Ret : Op → Type) (ε α σ : Type) := Prog Op Ret ε α × σ

inductive Step (next : Next Op Ret σ) :
    Prog.Running Op Ret ε α σ → Prog.Running Op Ret ε α σ → Prop
  | call {o : Op} {k : Ret o → Prog Op Ret ε α} {s s' : σ} (r : Ret o) :
      next o s r = some s' → Step next (.op o k, s) (k r, s')

abbrev Steps (next : Next Op Ret σ) :
    Prog.Running Op Ret ε α σ → Prog.Running Op Ret ε α σ → Prop :=
  ReflTransGen (Step next)

/-- Total correctness: from `s` the program never waits for ever on a call, and however its calls
are answered it ends with a result and a state that satisfy `Q`. -/
def wp (next : Next Op Ret σ) : Prog Op Ret ε α → (Except ε α → σ → Prop) → σ → Prop
  | .pure a, Q, s => Q (.ok a) s
  | .throw e, Q, s => Q (.error e) s
  | .op o k, Q, s => (∃ r s', next o s r = some s') ∧
      ∀ r s', next o s r = some s' → wp next (k r) Q s'

section Rules

variable {next : Next Op Ret σ} {Q R : Except ε α → σ → Prop} {s s' : σ}

@[simp] lemma wp_pure (a : α) : wp next (.pure a) Q s ↔ Q (.ok a) s := Iff.rfl

@[simp] lemma wp_throw (e : ε) : wp next (.throw e) Q s ↔ Q (.error e) s := Iff.rfl

lemma wp_op {o : Op} {k : Ret o → Prog Op Ret ε α} : wp next (.op o k) Q s ↔
    (∃ r s', next o s r = some s') ∧ ∀ r s', next o s r = some s' → wp next (k r) Q s' := Iff.rfl

lemma wp_op_unique {o : Op} {k : Ret o → Prog Op Ret ε α} (r₀ : Ret o) (s₀ : σ)
    (h : ∀ r t, next o s r = some t ↔ r = r₀ ∧ t = s₀) :
    wp next (.op o k) Q s ↔ wp next (k r₀) Q s₀ := by
  simp only [wp_op, h]
  constructor
  · rintro ⟨_, hall⟩
    exact hall r₀ s₀ ⟨rfl, rfl⟩
  · intro hw
    refine ⟨⟨r₀, s₀, rfl, rfl⟩, ?_⟩
    rintro r t ⟨rfl, rfl⟩
    exact hw

lemma wp_mono {p : Prog Op Ret ε α} (h : wp next p Q s) (hQ : ∀ r t, Q r t → R r t) :
    wp next p R s := by
  induction p generalizing s with
  | pure a => exact hQ _ _ h
  | throw e => exact hQ _ _ h
  | op o k ih => exact ⟨h.1, fun r t ht => ih r (h.2 r t ht)⟩

lemma wp_and {p : Prog Op Ret ε α} (hQ : wp next p Q s) (hR : wp next p R s) :
    wp next p (fun r t => Q r t ∧ R r t) s := by
  induction p generalizing s with
  | pure a => exact ⟨hQ, hR⟩
  | throw e => exact ⟨hQ, hR⟩
  | op o k ih => exact ⟨hQ.1, fun r t ht => ih r (hQ.2 r t ht) (hR.2 r t ht)⟩

/-- What the rest of a sequence has to achieve, given how its first part ended. -/
def afterBind (next : Next Op Ret σ) (f : α → Prog Op Ret ε β) (Q : Except ε β → σ → Prop) :
    Except ε α → σ → Prop
  | .ok a, t => wp next (f a) Q t
  | .error e, t => Q (.error e) t

lemma wp_bind {p : Prog Op Ret ε α} {f : α → Prog Op Ret ε β} {Q : Except ε β → σ → Prop} :
    wp next (p.bind f) Q s ↔ wp next p (afterBind next f Q) s := by
  induction p generalizing s with
  | pure a => rfl
  | throw e => rfl
  | op o k ih => simp only [Prog.bind_op, wp_op, ih]

def afterTry (next : Next Op Ret σ) (h : ε → Prog Op Ret ε α) (Q : Except ε α → σ → Prop) :
    Except ε α → σ → Prop
  | .ok a, t => Q (.ok a) t
  | .error e, t => wp next (h e) Q t

lemma wp_tryCatch {p : Prog Op Ret ε α} {h : ε → Prog Op Ret ε α} :
    wp next (p.tryCatch h) Q s ↔ wp next p (afterTry next h Q) s := by
  induction p generalizing s with
  | pure a => rfl
  | throw e => rfl
  | op o k ih => simp only [Prog.tryCatch_op, wp_op, ih]

@[simp] lemma afterBind_ok {f : α → Prog Op Ret ε β} {Q : Except ε β → σ → Prop} (a : α) :
    afterBind next f Q (.ok a) s = wp next (f a) Q s := rfl

@[simp] lemma afterBind_error {f : α → Prog Op Ret ε β} {Q : Except ε β → σ → Prop} (e : ε) :
    afterBind next f Q (.error e) s = Q (.error e) s := rfl

@[simp] lemma afterTry_ok {h : ε → Prog Op Ret ε α} (a : α) :
    afterTry next h Q (.ok a) s = Q (.ok a) s := rfl

@[simp] lemma afterTry_error {h : ε → Prog Op Ret ε α} (e : ε) :
    afterTry next h Q (.error e) s = wp next (h e) Q s := rfl

lemma wp_bind_of {p : Prog Op Ret ε α} {f : α → Prog Op Ret ε β} {Q : Except ε β → σ → Prop}
    (hp : wp next p R s) (hR : ∀ r t, R r t → afterBind next f Q r t) :
    wp next (p.bind f) Q s := wp_bind.mpr (wp_mono hp hR)

lemma wp_tryCatch_of {p : Prog Op Ret ε α} {h : ε → Prog Op Ret ε α}
    (hp : wp next p R s) (hR : ∀ r t, R r t → afterTry next h Q r t) :
    wp next (p.tryCatch h) Q s := wp_tryCatch.mpr (wp_mono hp hR)

end Rules

section Runs

variable {next : Next Op Ret σ} {Q : Except ε α → σ → Prop} {s s' : σ}
variable {p q : Prog Op Ret ε α}

lemma step_iff {o : Op} {k : Ret o → Prog Op Ret ε α} {c : Prog.Running Op Ret ε α σ} :
    Step next (.op o k, s) c ↔ ∃ r, next o s r = some c.2 ∧ c.1 = k r := by
  constructor
  · rintro ⟨r, h⟩
    exact ⟨r, h, rfl⟩
  · rintro ⟨r, h, hc⟩
    obtain ⟨_, _⟩ := c
    cases hc
    exact .call r h

lemma no_step_ofExcept (r : Except ε α) (c : Prog.Running Op Ret ε α σ) :
    ¬ Step next (Prog.ofExcept r, s) c := by
  cases r <;> intro h <;> cases h

lemma wp_ofExcept (r : Except ε α) : wp next (Prog.ofExcept r) Q s ↔ Q r s := by
  cases r <;> rfl

lemma wp_step (hw : wp next p Q s) (h : Step next (p, s) (q, s')) : wp next q Q s' := by
  cases h with
  | call r hr => exact hw.2 r s' hr

lemma wp_steps (hw : wp next p Q s) (h : Steps next (p, s) (q, s')) : wp next q Q s' := by
  generalize hc : (p, s) = c at h
  generalize hd : (q, s') = d at h
  induction h generalizing q s' with
  | refl => cases hc; cases hd; exact hw
  | @tail b _ _ hs ih =>
    obtain ⟨q₁, s₁⟩ := b
    cases hd
    exact wp_step (ih rfl) hs

lemma wp_result {r : Except ε α} (hw : wp next p Q s)
    (h : Steps next (p, s) (Prog.ofExcept r, s')) : Q r s' :=
  (wp_ofExcept r).mp (wp_steps hw h)

lemma wp_completes (hw : wp next p Q s) :
    ∃ r t, Steps next (p, s) (Prog.ofExcept r, t) ∧ Q r t := by
  induction p generalizing s with
  | pure a => exact ⟨.ok a, s, .refl, hw⟩
  | throw e => exact ⟨.error e, s, .refl, hw⟩
  | op o k ih =>
    obtain ⟨r, t, hr⟩ := hw.1
    obtain ⟨res, u, hu, hQ⟩ := ih r (hw.2 r t hr)
    exact ⟨res, u, .head (.call r hr) hu, hQ⟩

lemma steps_invariant {I : σ → Prop} (hI : ∀ o s r s', next o s r = some s' → I s → I s')
    (h : Steps next (p, s) (q, s')) (hs : I s) : I s' := by
  generalize hc : (p, s) = c at h
  generalize hd : (q, s') = d at h
  induction h generalizing q s' with
  | refl => cases hc; cases hd; exact hs
  | @tail b _ _ hb ih =>
    obtain ⟨q₁, s₁⟩ := b
    cases hd
    cases hb with
    | call r hr => exact hI _ _ _ _ hr (ih rfl)

end Runs

/-- Every step of one environment is one of another, on related states. -/
def Simulates {τ : Type} (next : Next Op Ret σ) (next' : Next Op Ret τ) (R : σ → τ → Prop) : Prop :=
  ∀ o s r s' t, R s t → next o s r = some s' → ∃ t', next' o t r = some t' ∧ R s' t'

lemma Simulates.step {τ : Type} {next : Next Op Ret σ} {next' : Next Op Ret τ} {R : σ → τ → Prop}
    (hR : Simulates next next' R) {p q : Prog Op Ret ε α} {s s' : σ} {t : τ} (hst : R s t)
    (h : Step next (p, s) (q, s')) : ∃ t', Step next' (p, t) (q, t') ∧ R s' t' := by
  cases h with
  | call r hr =>
    obtain ⟨t', ht', hR'⟩ := hR _ _ _ _ _ hst hr
    exact ⟨t', .call r ht', hR'⟩

lemma Simulates.steps {τ : Type} {next : Next Op Ret σ} {next' : Next Op Ret τ} {R : σ → τ → Prop}
    (hR : Simulates next next' R) {p q : Prog Op Ret ε α} {s s' : σ} {t : τ} (hst : R s t)
    (h : Steps next (p, s) (q, s')) : ∃ t', Steps next' (p, t) (q, t') ∧ R s' t' := by
  generalize hc : (p, s) = c at h
  generalize hd : (q, s') = d at h
  induction h generalizing q s' with
  | refl => cases hc; cases hd; exact ⟨t, .refl, hst⟩
  | @tail b _ _ hs ih =>
    obtain ⟨q₁, s₁⟩ := b
    cases hd
    obtain ⟨t₁, hsteps, hR₁⟩ := ih rfl
    obtain ⟨t', hstep, hR'⟩ := hR.step hR₁ hs
    exact ⟨t', hsteps.tail hstep, hR'⟩

section Calls

variable {A : (o : Op) → Ret o → Prop} {C D : Op → Prop}

/-- All calls that the program can make satisfy `C`, provided that answers satisfy `A`. -/
def Prog.Calls (A : (o : Op) → Ret o → Prop) (C : Op → Prop) : Prog Op Ret ε α → Prop
  | .pure _ => True
  | .throw _ => True
  | .op o k => C o ∧ ∀ r, A o r → (k r).Calls A C

namespace Prog

@[simp] lemma calls_pure (a : α) : (Prog.pure a : Prog Op Ret ε α).Calls A C := trivial

@[simp] lemma calls_throw (e : ε) : (Prog.throw e : Prog Op Ret ε α).Calls A C := trivial

@[simp] lemma calls_op {o : Op} {k : Ret o → Prog Op Ret ε α} :
    (Prog.op o k).Calls A C ↔ C o ∧ ∀ r, A o r → (k r).Calls A C := Iff.rfl

@[simp] lemma calls_ofExcept (r : Except ε α) : (Prog.ofExcept r : Prog Op Ret ε α).Calls A C := by
  cases r <;> trivial

lemma Calls.bind {p : Prog Op Ret ε α} {f : α → Prog Op Ret ε β} (hp : p.Calls A C)
    (hf : ∀ a, (f a).Calls A C) : (p.bind f).Calls A C := by
  induction p with
  | pure a => exact hf a
  | throw e => trivial
  | op o k ih => exact ⟨hp.1, fun r hr => ih r (hp.2 r hr)⟩

lemma Calls.tryCatch {p : Prog Op Ret ε α} {h : ε → Prog Op Ret ε α} (hp : p.Calls A C)
    (hh : ∀ e, (h e).Calls A C) : (p.tryCatch h).Calls A C := by
  induction p with
  | pure a => trivial
  | throw e => exact hh e
  | op o k ih => exact ⟨hp.1, fun r hr => ih r (hp.2 r hr)⟩

lemma Calls.onThrow {p : Prog Op Ret ε α} {cleanup : Prog Op Ret ε Unit} (hp : p.Calls A C)
    (hc : cleanup.Calls A C) : (p.onThrow cleanup).Calls A C :=
  hp.tryCatch (fun _ => hc.bind (fun _ => trivial))

lemma Calls.mono {p : Prog Op Ret ε α} (hp : p.Calls A C) (hCD : ∀ o, C o → D o) :
    p.Calls A D := by
  induction p with
  | pure a => trivial
  | throw e => trivial
  | op o k ih => exact ⟨hCD o hp.1, fun r hr => ih r (hp.2 r hr)⟩

end Prog

lemma calls_step {next : Next Op Ret σ} {p q : Prog Op Ret ε α} {s s' : σ} (hp : p.Calls A C)
    (hA : ∀ o s r s', next o s r = some s' → A o r) (h : Step next (p, s) (q, s')) :
    q.Calls A C := by
  cases h with
  | call r hr => exact hp.2 r (hA _ _ _ _ hr)

end Calls

section Loops

variable {S R : Type}

/-- Executions of `while`: the body ends with the loop variable of the next round, or with how the
loop was left. -/
inductive LoopStep (next : Next Op Ret σ) (body : S → Prog Op Ret ε (R ⊕ S)) :
    Prog.Running Op Ret ε (R ⊕ S) σ → Prog.Running Op Ret ε (R ⊕ S) σ → Prop
  | inside {c d} : Step next c d → LoopStep next body c d
  | again {x : S} {s : σ} : LoopStep next body (.pure (.inr x), s) (body x, s)

end Loops

end Mtfss.Effects
