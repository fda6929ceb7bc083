import Mathlib.Tactic

/-!
# Programs as trees of atomic actions

A thread is written once, as a monadic program over a signature of atomic
actions, and is then run by whatever machine gives those actions a meaning.
`Prog.act o k` performs the action `o` and goes on with `k r`, where `r` is the
answer the machine gave. The tree is well founded: a program performs finitely
many actions on every path, so an inner loop of the source is bounded by its
data; the endless outer loop of a thread is left to the system that runs it.
-/

namespace Interleave

/-- The atomic actions of a machine, each with the type of its answer. -/
structure Sig where
  Op : Type
  Res : Op → Type

inductive Prog (σ : Sig) (α : Type) : Type
  | ret : α → Prog σ α
  | act : (o : σ.Op) → (σ.Res o → Prog σ α) → Prog σ α

namespace Prog

variable {σ : Sig} {α β γ : Type}

def bind : Prog σ α → (α → Prog σ β) → Prog σ β
  | ret a, f => f a
  | act o k, f => act o fun r => bind (k r) f

instance : Monad (Prog σ) where
  pure := ret
  bind := bind

/-- One action, returning the machine's answer. -/
def call (o : σ.Op) : Prog σ (σ.Res o) := act o ret

@[simp] theorem pure_eq (a : α) : (pure a : Prog σ α) = ret a := rfl

@[simp] theorem ret_bind (a : α) (f : α → Prog σ β) : (ret a >>= f) = f a := rfl

@[simp] theorem act_bind (o : σ.Op) (k : σ.Res o → Prog σ α) (f : α → Prog σ β) :
    (act o k >>= f) = act o fun r => k r >>= f := rfl

@[simp] theorem call_bind (o : σ.Op) (f : σ.Res o → Prog σ β) :
    (call o >>= f) = act o f := rfl

@[simp] theorem bind_ret (p : Prog σ α) : (p >>= ret) = p := by
  induction p with
  | ret a => rfl
  | act o k ih =>
      rw [act_bind]
      congr 1
      funext r
      exact ih r

@[simp] theorem bind_assoc (p : Prog σ α) (f : α → Prog σ β) (g : β → Prog σ γ) :
    ((p >>= f) >>= g) = p >>= fun a => f a >>= g := by
  induction p with
  | ret a => rfl
  | act o k ih =>
      simp only [act_bind]
      congr 1
      funext r
      exact ih r

/-- `k` iterations of a counting loop, starting at `i`. -/
def loopFrom (body : ℕ → β → Prog σ β) : ℕ → ℕ → β → Prog σ β
  | 0, _, x => ret x
  | k + 1, i, x => body i x >>= loopFrom body k (i + 1)

/-- `for (i = 0; i < n; i++)`, threading the loop's mutable variables `x`. -/
def forRange (n : ℕ) (body : ℕ → β → Prog σ β) (x : β) : Prog σ β := loopFrom body n 0 x

end Prog

end Interleave
