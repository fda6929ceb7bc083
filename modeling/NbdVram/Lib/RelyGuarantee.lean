import NbdVram.Lib.Program
import Mathlib.Logic.Relation

/-!
# Rely/guarantee reasoning for interleaved programs

A machine gives every action a meaning: a thread performs it in one indivisible
step, the environment contributes a choice (a fault, a short read, a size), and
`none` says that the action cannot happen now (a held mutex, an empty socket).
Beside the threads the machine may move by itself (`tau`).

A `Contract` fixes what every thread may rely on: an invariant of the shared
state and, for each action, the condition under which a thread may perform it.
`wp` is the weakest precondition of a thread's program when between any two of
its actions the machine and the other threads may take any steps that keep the
contract; `Stable` assertions are those that survive such steps.
-/

namespace Interleave

open Relation Prog

structure Machine (σ : Sig) (Tid : Type) where
  State : Type
  Choice : Type
  exec : Tid → (o : σ.Op) → Choice → State → Option (σ.Res o × State)
  tau : State → State → Prop

/-- What threads promise each other. `adm` selects the environment choices that a
run is assumed to make; `pre` is the condition on performing an action. -/
structure Contract {σ : Sig} {Tid : Type} (M : Machine σ Tid) where
  adm : Tid → σ.Op → M.Choice → M.State → Prop
  inv : M.State → Prop
  pre : Tid → σ.Op → M.State → Prop
  inv_exec : ∀ {w o c s r s'}, inv s → pre w o s → adm w o c s →
    M.exec w o c s = some (r, s') → inv s'
  inv_tau : ∀ {s s'}, inv s → M.tau s s' → inv s'

section Wp

variable {σ : Sig} {Tid : Type} {M : Machine σ Tid} {α β : Type}

/-- One step that the surroundings of thread `w` may take. -/
def Contract.Env (C : Contract M) (w : Tid) (s s' : M.State) : Prop :=
  C.inv s ∧ (M.tau s s' ∨ ∃ v o c r, v ≠ w ∧ C.pre v o s ∧ C.adm v o c s ∧
    M.exec v o c s = some (r, s'))

theorem Contract.Env.inv_right {C : Contract M} {w : Tid} {s s' : M.State}
    (h : C.Env w s s') : C.inv s' := by
  obtain ⟨hi, ht | ⟨v, o, c, r, -, hp, ha, he⟩⟩ := h
  · exact C.inv_tau hi ht
  · exact C.inv_exec hi hp ha he

theorem Contract.env_inv {C : Contract M} {w : Tid} {s s' : M.State}
    (hi : C.inv s) (h : ReflTransGen (C.Env w) s s') : C.inv s' := by
  induction h with
  | refl => exact hi
  | tail _ hs _ => exact hs.inv_right

def wp (C : Contract M) (w : Tid) : Prog σ α → (α → M.State → Prop) → M.State → Prop
  | .ret a, Q, s => Q a s
  | .act o k, Q, s => ∀ s', ReflTransGen (C.Env w) s s' → C.pre w o s' ∧
      ∀ c r s'', C.adm w o c s' → M.exec w o c s' = some (r, s'') → wp C w (k r) Q s''

variable {C : Contract M} {w : Tid}

theorem wp_bind {p : Prog σ α} {f : α → Prog σ β} {Q : β → M.State → Prop} {s : M.State}
    (h : wp C w p (fun a s' => wp C w (f a) Q s') s) : wp C w (p >>= f) Q s := by
  induction p generalizing s with
  | ret a => exact h
  | act o k ih =>
      intro s' hs'
      obtain ⟨hp, hk⟩ := h s' hs'
      exact ⟨hp, fun c r s'' ha he => ih r (hk c r s'' ha he)⟩

/-- The consequence rule; the invariant is available where the postcondition is weakened. -/
theorem wp_mono {p : Prog σ α} {Q Q' : α → M.State → Prop} {s : M.State} (hi : C.inv s)
    (h : wp C w p Q s) (hq : ∀ a s', C.inv s' → Q a s' → Q' a s') : wp C w p Q' s := by
  induction p generalizing s with
  | ret a => exact hq a s hi h
  | act o k ih =>
      intro s' hs'
      have hi' : C.inv s' := Contract.env_inv hi hs'
      obtain ⟨hp, hk⟩ := h s' hs'
      exact ⟨hp, fun c r s'' ha he => ih r (C.inv_exec hi' hp ha he) (hk c r s'' ha he)⟩

/-- Sequencing through an intermediate assertion. -/
theorem wp_seq {p : Prog σ α} {f : α → Prog σ β} {P : α → M.State → Prop}
    {Q : β → M.State → Prop} {s : M.State} (hi : C.inv s) (hp : wp C w p P s)
    (hf : ∀ a s', C.inv s' → P a s' → wp C w (f a) Q s') : wp C w (p >>= f) Q s :=
  wp_bind (wp_mono hi hp hf)

/-- The counting loop: `I i x` holds whenever iteration `i` is about to start. -/
theorem wp_loopFrom {body : ℕ → β → Prog σ β} (I : ℕ → β → M.State → Prop) {k i : ℕ} {x : β}
    {s : M.State} (hi : C.inv s) (h0 : I i x s)
    (hb : ∀ j x s, i ≤ j → j < i + k → C.inv s → I j x s →
      wp C w (body j x) (fun x' s' => I (j + 1) x' s') s) :
    wp C w (loopFrom body k i x) (fun x' s' => I (i + k) x' s') s := by
  induction k generalizing i x s with
  | zero => exact h0
  | succ k ih =>
      refine wp_seq hi (hb i x s le_rfl (by omega) hi h0) ?_
      intro x' s' hi' h'
      have := ih hi' h' (fun j x s hj hj' => hb j x s (by omega) (by omega))
      rwa [show i + 1 + k = i + (k + 1) from by omega] at this

theorem wp_forRange {body : ℕ → β → Prog σ β} (I : ℕ → β → M.State → Prop) {n : ℕ} {x : β}
    {s : M.State} (hi : C.inv s) (h0 : I 0 x s)
    (hb : ∀ j x s, j < n → C.inv s → I j x s →
      wp C w (body j x) (fun x' s' => I (j + 1) x' s') s) :
    wp C w (forRange n body x) (fun x' s' => I n x' s') s := by
  have := wp_loopFrom I (k := n) (i := 0) hi h0
    (fun j x s _ hj => hb j x s (by omega))
  rwa [Nat.zero_add] at this

/-- An assertion of thread `w` that its surroundings cannot invalidate. -/
def Stable (C : Contract M) (w : Tid) (P : M.State → Prop) : Prop :=
  ∀ s s', C.Env w s s' → P s → P s'

theorem Stable.star {P : M.State → Prop} (hP : Stable C w P) {s s' : M.State}
    (h : ReflTransGen (C.Env w) s s') (hs : P s) : P s' := by
  induction h with
  | refl => exact hs
  | tail _ he ih => exact hP _ _ he ih

/-- One action from a stable assertion: the surroundings move first, then the action runs in
a state where the assertion and the invariant still hold. -/
theorem wp_act {P : M.State → Prop} (hP : Stable C w P) {o : σ.Op} {k : σ.Res o → Prog σ α}
    {Q : α → M.State → Prop} {s : M.State} (hi : C.inv s) (hs : P s)
    (h : ∀ s', C.inv s' → P s' → C.pre w o s' ∧ ∀ c r s'', C.inv s'' → C.adm w o c s' →
      M.exec w o c s' = some (r, s'') → wp C w (k r) Q s'') :
    wp C w (.act o k) Q s := by
  intro s' hs'
  have hi' : C.inv s' := Contract.env_inv hi hs'
  obtain ⟨hp, hk⟩ := h s' hi' (hP.star hs' hs)
  exact ⟨hp, fun c r s'' ha he => hk c r s'' (C.inv_exec hi' hp ha he) ha he⟩

/-- A step of the surroundings keeps the weakest precondition of an unfinished program. -/
theorem wp_env {p : Prog σ α} {Q : α → M.State → Prop} {s s' : M.State}
    (hQ : ∀ a, Stable C w (Q a)) (h : wp C w p Q s)
    (he : C.Env w s s') : wp C w p Q s' := by
  cases p with
  | ret a => exact hQ a s s' he h
  | act o k => exact fun s'' hs'' => h s'' (ReflTransGen.head he hs'')

end Wp

end Interleave
