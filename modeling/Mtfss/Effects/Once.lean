import Mtfss.Effects.Execution

/-! Programs that make a call of some kind at most once. -/

namespace Mtfss.Effects.Prog

variable {Op : Type} {Ret : Op → Type} {ε α β : Type} {C : Op → Prop}

/-- No call that the program can make is of the kind `C`. -/
abbrev Never (C : Op → Prop) (p : Prog Op Ret ε α) : Prop :=
  p.Calls (fun _ _ => True) (fun o => ¬ C o)

/-- Whatever the answers, at most one call that the program makes is of the kind `C`. -/
def Once (C : Op → Prop) : Prog Op Ret ε α → Prop
  | .pure _ => True
  | .throw _ => True
  | .op o k => (C o → ∀ r, (k r).Never C) ∧ ∀ r, (k r).Once C

lemma Never.once {p : Prog Op Ret ε α} (h : p.Never C) : p.Once C := by
  induction p with
  | pure a => trivial
  | throw e => trivial
  | op o k ih => exact ⟨fun ho => (h.1 ho).elim, fun r => ih r (h.2 r trivial)⟩

lemma Once.bind {p : Prog Op Ret ε α} {f : α → Prog Op Ret ε β} (hp : p.Once C)
    (hf : ∀ a, (f a).Never C) : (p.bind f).Once C := by
  induction p with
  | pure a => exact (hf a).once
  | throw e => trivial
  | op o k ih => exact ⟨fun ho r => (hp.1 ho r).bind hf, fun r => ih r (hp.2 r)⟩

lemma Never.bind_once {p : Prog Op Ret ε α} {f : α → Prog Op Ret ε β} (hp : p.Never C)
    (hf : ∀ a, (f a).Once C) : (p.bind f).Once C := by
  induction p with
  | pure a => exact hf a
  | throw e => trivial
  | op o k ih => exact ⟨fun ho => (hp.1 ho).elim, fun r => ih r (hp.2 r trivial)⟩

lemma Once.tryCatch {p : Prog Op Ret ε α} {h : ε → Prog Op Ret ε α} (hp : p.Once C)
    (hh : ∀ e, (h e).Never C) : (p.tryCatch h).Once C := by
  induction p with
  | pure a => trivial
  | throw e => exact (hh e).once
  | op o k ih => exact ⟨fun ho r => (hp.1 ho r).tryCatch hh, fun r => ih r (hp.2 r)⟩

/-- A call of the kind `C` that nothing of that kind follows. -/
lemma once_call {o : Op} {k : Ret o → Prog Op Ret ε α} (h : ∀ r, (k r).Never C) :
    (Prog.op o k).Once C := ⟨fun _ => h, fun r => (h r).once⟩

end Mtfss.Effects.Prog
