import Mtfss.Effects.Execution

/-! Partial correctness with a condition on the calls made, and monitors, which follow a program by
its calls and their answers. -/

namespace Mtfss.Effects

variable {Op : Type} {Ret : Op → Type} {ε α β σ τ L : Type}

/-- However the calls are answered, each call made satisfies `allow`, and when the program ends it
ends with a result and a state that satisfy `Q`. -/
def Safe (next : Next Op Ret σ) (allow : Op → σ → Prop) :
    Prog Op Ret ε α → (Except ε α → σ → Prop) → σ → Prop
  | .pure a, Q, s => Q (.ok a) s
  | .throw e, Q, s => Q (.error e) s
  | .op o k, Q, s => allow o s ∧ ∀ r s', next o s r = some s' → Safe next allow (k r) Q s'

section Rules

variable {next : Next Op Ret σ} {allow : Op → σ → Prop} {Q R : Except ε α → σ → Prop} {s s' : σ}

@[simp] lemma safe_pure (a : α) : Safe next allow (.pure a) Q s ↔ Q (.ok a) s := Iff.rfl

@[simp] lemma safe_throw (e : ε) : Safe next allow (.throw e) Q s ↔ Q (.error e) s := Iff.rfl

lemma safe_op {o : Op} {k : Ret o → Prog Op Ret ε α} : Safe next allow (.op o k) Q s ↔
    allow o s ∧ ∀ r s', next o s r = some s' → Safe next allow (k r) Q s' := Iff.rfl

lemma safe_ofExcept (r : Except ε α) : Safe next allow (Prog.ofExcept r) Q s ↔ Q r s := by
  cases r <;> rfl

lemma safe_mono {p : Prog Op Ret ε α} (h : Safe next allow p Q s) (hQ : ∀ r t, Q r t → R r t) :
    Safe next allow p R s := by
  induction p generalizing s with
  | pure a => exact hQ _ _ h
  | throw e => exact hQ _ _ h
  | op o k ih => exact ⟨h.1, fun r t ht => ih r (h.2 r t ht)⟩

/-- Nothing is asked of a program whose calls are all allowed and whose ends are all good. -/
lemma safe_of_forall {p : Prog Op Ret ε α} (ha : ∀ o t, allow o t) (h : ∀ r t, Q r t) :
    Safe next allow p Q s := by
  induction p generalizing s with
  | pure a => exact h _ _
  | throw e => exact h _ _
  | op o k ih => exact ⟨ha o s, fun r t _ => ih r⟩

lemma safe_allow {allow' : Op → σ → Prop} {p : Prog Op Ret ε α} (h : Safe next allow p Q s)
    (ha : ∀ o t, allow o t → allow' o t) : Safe next allow' p Q s := by
  induction p generalizing s with
  | pure a => exact h
  | throw e => exact h
  | op o k ih => exact ⟨ha o s h.1, fun r t ht => ih r (h.2 r t ht)⟩

lemma safe_allow_of_calls {allow' : Op → σ → Prop} {C : Op → Prop} {p : Prog Op Ret ε α}
    (h : Safe next allow p Q s) (hp : p.Calls (fun _ _ => True) C) (ha : ∀ o t, C o → allow' o t) :
    Safe next allow' p Q s := by
  induction p generalizing s with
  | pure a => exact h
  | throw e => exact h
  | op o k ih => exact ⟨ha o s hp.1, fun r t ht => ih r (h.2 r t ht) (hp.2 r trivial)⟩

lemma safe_and {p : Prog Op Ret ε α} (hQ : Safe next allow p Q s) (hR : Safe next allow p R s) :
    Safe next allow p (fun r t => Q r t ∧ R r t) s := by
  induction p generalizing s with
  | pure a => exact ⟨hQ, hR⟩
  | throw e => exact ⟨hQ, hR⟩
  | op o k ih => exact ⟨hQ.1, fun r t ht => ih r (hQ.2 r t ht) (hR.2 r t ht)⟩

def safeBind (next : Next Op Ret σ) (allow : Op → σ → Prop) (f : α → Prog Op Ret ε β)
    (Q : Except ε β → σ → Prop) : Except ε α → σ → Prop
  | .ok a, t => Safe next allow (f a) Q t
  | .error e, t => Q (.error e) t

lemma safe_bind {p : Prog Op Ret ε α} {f : α → Prog Op Ret ε β} {Q : Except ε β → σ → Prop} :
    Safe next allow (p.bind f) Q s ↔ Safe next allow p (safeBind next allow f Q) s := by
  induction p generalizing s with
  | pure a => rfl
  | throw e => rfl
  | op o k ih => simp only [Prog.bind_op, safe_op, ih]

lemma safe_bind_of {p : Prog Op Ret ε α} {f : α → Prog Op Ret ε β} {Q : Except ε β → σ → Prop}
    (hp : Safe next allow p R s) (hR : ∀ r t, R r t → safeBind next allow f Q r t) :
    Safe next allow (p.bind f) Q s := safe_bind.mpr (safe_mono hp hR)

def safeTry (next : Next Op Ret σ) (allow : Op → σ → Prop) (h : ε → Prog Op Ret ε α)
    (Q : Except ε α → σ → Prop) : Except ε α → σ → Prop
  | .ok a, t => Q (.ok a) t
  | .error e, t => Safe next allow (h e) Q t

lemma safe_tryCatch {p : Prog Op Ret ε α} {h : ε → Prog Op Ret ε α} :
    Safe next allow (p.tryCatch h) Q s ↔ Safe next allow p (safeTry next allow h Q) s := by
  induction p generalizing s with
  | pure a => rfl
  | throw e => rfl
  | op o k ih => simp only [Prog.tryCatch_op, safe_op, ih]

@[simp] lemma safeBind_ok {f : α → Prog Op Ret ε β} {Q : Except ε β → σ → Prop} (a : α) :
    safeBind next allow f Q (.ok a) s = Safe next allow (f a) Q s := rfl

@[simp] lemma safeBind_error {f : α → Prog Op Ret ε β} {Q : Except ε β → σ → Prop} (e : ε) :
    safeBind next allow f Q (.error e) s = Q (.error e) s := rfl

@[simp] lemma safeTry_ok {h : ε → Prog Op Ret ε α} (a : α) :
    safeTry next allow h Q (.ok a) s = Q (.ok a) s := rfl

@[simp] lemma safeTry_error {h : ε → Prog Op Ret ε α} (e : ε) :
    safeTry next allow h Q (.error e) s = Safe next allow (h e) Q s := rfl

lemma safe_step {p q : Prog Op Ret ε α} (h : Safe next allow p Q s)
    (hs : Step next (p, s) (q, s')) : Safe next allow q Q s' := by
  cases hs with
  | call r hr => exact h.2 r s' hr

lemma safe_steps {p q : Prog Op Ret ε α} (h : Safe next allow p Q s)
    (hs : Steps next (p, s) (q, s')) : Safe next allow q Q s' := by
  generalize hc : (p, s) = c at hs
  generalize hd : (q, s') = d at hs
  induction hs generalizing q s' with
  | refl => cases hc; cases hd; exact h
  | @tail b _ _ hb ih =>
    obtain ⟨q₁, s₁⟩ := b
    cases hd
    exact safe_step (ih rfl) hb

lemma safe_result {p : Prog Op Ret ε α} {r : Except ε α} (h : Safe next allow p Q s)
    (hs : Steps next (p, s) (Prog.ofExcept r, s')) : Q r s' :=
  (safe_ofExcept r).mp (safe_steps h hs)

lemma safe_invariant {I : σ → Prop} (hI : ∀ o s r s', next o s r = some s' → I s → I s')
    {p : Prog Op Ret ε α} (h : Safe next allow p Q s) (hs : I s) :
    Safe next allow p (fun r t => Q r t ∧ I t) s := by
  induction p generalizing s with
  | pure a => exact ⟨h, hs⟩
  | throw e => exact ⟨h, hs⟩
  | op o k ih => exact ⟨h.1, fun r t ht => ih r (h.2 r t ht) (hI _ _ _ _ ht hs)⟩

/-- A program whose calls are all of a kind that keeps `I`, and is allowed under it, keeps it. -/
lemma safe_of_calls {I : σ → Prop} {A : (o : Op) → Ret o → Prop} {C : Op → Prop}
    {p : Prog Op Ret ε α} (hp : p.Calls A C) (hA : ∀ o s r s', next o s r = some s' → A o r)
    (hallow : ∀ o s, C o → I s → allow o s)
    (hI : ∀ o s r s', C o → next o s r = some s' → I s → I s') (hs : I s) :
    Safe next allow p (fun _ => I) s := by
  induction p generalizing s with
  | pure a => exact hs
  | throw e => exact hs
  | op o k ih =>
    exact ⟨hallow o s hp.1 hs,
      fun r s' hr => ih r (hp.2 r (hA o s r s' hr)) (hI o s r s' hp.1 hr hs)⟩

end Rules

/-- A monitor follows a program through the states that `after` gives it, whatever the answers. -/
abbrev Monitor (Op : Type) (Ret : Op → Type) (τ : Type) := (o : Op) → τ → Ret o → τ

/-- The environment that answers everything, seen by a monitor. -/
def Monitor.next (after : Monitor Op Ret τ) : Next Op Ret τ := fun o t r => some (after o t r)

def Monitor.watch (after : Monitor Op Ret τ) (next : Next Op Ret (L × σ)) :
    Next Op Ret ((L × τ) × σ) :=
  fun o m r => (next o (m.1.1, m.2) r).map (fun m' => ((m'.1, after o m.1.2 r), m'.2))

noncomputable def Next.only (C : (o : Op) → σ → Ret o → Prop) (next : Next Op Ret σ) :
    Next Op Ret σ := by
  classical exact fun o s r => if C o s r then next o s r else none

section Monitors

variable {after : Monitor Op Ret τ} {allow : Op → τ → Prop} {next : Next Op Ret (L × σ)}

lemma Monitor.safe_op {o : Op} {k : Ret o → Prog Op Ret ε α} {Q : Except ε α → τ → Prop} {t : τ} :
    Safe after.next allow (.op o k) Q t ↔
      allow o t ∧ ∀ r, Safe after.next allow (k r) Q (after o t r) := by
  constructor
  · rintro ⟨ha, h⟩
    exact ⟨ha, fun r => h r _ rfl⟩
  · rintro ⟨ha, h⟩
    refine ⟨ha, ?_⟩
    rintro r _ ⟨⟩
    exact h r

lemma Monitor.watch_eq_some {o : Op} {l l' : L} {t t' : τ} {s s' : σ} {r : Ret o} :
    after.watch next o ((l, t), s) r = some ((l', t'), s') ↔
      next o (l, s) r = some (l', s') ∧ t' = after o t r := by
  simp only [Monitor.watch, Option.map_eq_some_iff, Prod.mk.injEq, Prod.exists]
  constructor
  · rintro ⟨l₁, s₁, h, ⟨rfl, rfl⟩, rfl⟩
    exact ⟨h, rfl⟩
  · rintro ⟨h, rfl⟩
    exact ⟨l', s', h, ⟨rfl, rfl⟩, rfl⟩

lemma Monitor.simulates_watch (after : Monitor Op Ret τ) (next : Next Op Ret (L × σ)) :
    Simulates next (after.watch next) (fun m m' => m = (m'.1.1, m'.2)) := by
  rintro o _ r ⟨l', s'⟩ ⟨⟨l, t⟩, s⟩ rfl h
  exact ⟨((l', after o t r), s'), watch_eq_some.mpr ⟨h, rfl⟩, rfl⟩

lemma Next.only_eq_some {C : (o : Op) → σ → Ret o → Prop} {next : Next Op Ret σ} {o : Op} {s s' : σ}
    {r : Ret o} : Next.only C next o s r = some s' ↔ C o s r ∧ next o s r = some s' := by
  unfold Next.only
  split <;> simp_all

end Monitors

end Mtfss.Effects
