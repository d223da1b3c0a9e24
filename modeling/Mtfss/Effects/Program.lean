import Mathlib.Logic.Relation
import Mathlib.Tactic.Common

/-! Programs over a signature of calls: a call tree with results and exceptions. -/

namespace Mtfss.Effects

/-- A program makes calls `o : Op`, each answered by its environment with a value of `Ret o`,
until it returns a value or throws. -/
inductive Prog (Op : Type) (Ret : Op → Type) (ε α : Type) : Type
  | pure (a : α)
  | throw (e : ε)
  | op (o : Op) (k : Ret o → Prog Op Ret ε α)

namespace Prog

variable {Op : Type} {Ret : Op → Type} {ε α β γ : Type}

def bind : Prog Op Ret ε α → (α → Prog Op Ret ε β) → Prog Op Ret ε β
  | .pure a, f => f a
  | .throw e, _ => .throw e
  | .op o k, f => .op o (fun r => bind (k r) f)

/-- `try p catch e => h e`. -/
def tryCatch : Prog Op Ret ε α → (ε → Prog Op Ret ε α) → Prog Op Ret ε α
  | .pure a, _ => .pure a
  | .throw e, h => h e
  | .op o k, h => .op o (fun r => tryCatch (k r) h)

/-- The two ways a program ends. -/
def ofExcept : Except ε α → Prog Op Ret ε α
  | .ok a => .pure a
  | .error e => .throw e

instance : Monad (Prog Op Ret ε) where
  pure := .pure
  bind := bind

@[simp] lemma pure_eq (a : α) : (Pure.pure a : Prog Op Ret ε α) = .pure a := rfl

@[simp] lemma bind_eq (p : Prog Op Ret ε α) (f : α → Prog Op Ret ε β) : p >>= f = p.bind f := rfl

@[simp] lemma bind_pure_left (a : α) (f : α → Prog Op Ret ε β) : (Prog.pure a).bind f = f a := rfl

@[simp] lemma bind_throw (e : ε) (f : α → Prog Op Ret ε β) :
    (Prog.throw e : Prog Op Ret ε α).bind f = .throw e := rfl

@[simp] lemma bind_op (o : Op) (k : Ret o → Prog Op Ret ε α) (f : α → Prog Op Ret ε β) :
    (Prog.op o k).bind f = .op o (fun r => (k r).bind f) := rfl

lemma bind_assoc (p : Prog Op Ret ε α) (f : α → Prog Op Ret ε β) (g : β → Prog Op Ret ε γ) :
    (p.bind f).bind g = p.bind (fun a => (f a).bind g) := by
  induction p with
  | pure a => rfl
  | throw e => rfl
  | op o k ih => simp only [bind_op, ih]

lemma bind_pure_right (p : Prog Op Ret ε α) : p.bind .pure = p := by
  induction p with
  | pure a => rfl
  | throw e => rfl
  | op o k ih => simp only [bind_op, ih]

@[simp] lemma tryCatch_pure (a : α) (h : ε → Prog Op Ret ε α) :
    (Prog.pure a).tryCatch h = .pure a := rfl

@[simp] lemma tryCatch_throw (e : ε) (h : ε → Prog Op Ret ε α) :
    (Prog.throw e).tryCatch h = h e := rfl

@[simp] lemma tryCatch_op (o : Op) (k : Ret o → Prog Op Ret ε α) (h : ε → Prog Op Ret ε α) :
    (Prog.op o k).tryCatch h = .op o (fun r => (k r).tryCatch h) := rfl

/-- Runs `cleanup` when `p` throws, and throws on: what a destructor does while the stack
unwinds. -/
def onThrow (p : Prog Op Ret ε α) (cleanup : Prog Op Ret ε Unit) : Prog Op Ret ε α :=
  p.tryCatch (fun e => cleanup.bind (fun _ => .throw e))

end Prog

end Mtfss.Effects
