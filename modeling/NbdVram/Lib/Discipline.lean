import NbdVram.Lib.System

/-!
# Disciplines

What a thread may do next can depend on what it has done so far, and on nothing
else: a `Discipline` is an automaton that watches the actions of one thread with
their answers. A program keeps a discipline if it performs only actions that the
automaton allows, whatever the machine answers (`Keeps`), and a system in which every
thread does keeps doing so along its runs (`Sys.Obeys`). Since no shared state is
looked at, there is no interference to think of; what a contract says of a state
can be put beside it at every step.
-/

namespace Interleave

open Prog

/-- An automaton over the actions of a thread. -/
structure Discipline (σ : Sig) where
  State : Type
  ok : State → σ.Op → Prop
  next : State → (o : σ.Op) → σ.Res o → State

variable {σ : Sig} {D : Discipline σ} {α β : Type}

/-- From the state `g` the program only performs actions that are allowed, and what it returns and
the state it leaves satisfy `Q`. -/
def Keeps (D : Discipline σ) : Prog σ α → D.State → (α → D.State → Prop) → Prop
  | .ret a, g, Q => Q a g
  | .act o k, g, Q => D.ok g o ∧ ∀ r, Keeps D (k r) (D.next g o r) Q

theorem keeps_bind {p : Prog σ α} {f : α → Prog σ β} {Q : β → D.State → Prop} {g : D.State} :
    Keeps D (p >>= f) g Q ↔ Keeps D p g fun a g' => Keeps D (f a) g' Q := by
  induction p generalizing g with
  | ret a => exact Iff.rfl
  | act o k ih => exact and_congr_right fun _ => forall_congr' fun r => ih r

theorem Keeps.mono {p : Prog σ α} {Q Q' : α → D.State → Prop} {g : D.State} (h : Keeps D p g Q)
    (hq : ∀ a g', Q a g' → Q' a g') : Keeps D p g Q' := by
  induction p generalizing g with
  | ret a => exact hq a g h
  | act o k ih => exact ⟨h.1, fun r => ih r (h.2 r)⟩

/-- One program after another. -/
theorem Keeps.seq {p : Prog σ α} {f : α → Prog σ β} {P : α → D.State → Prop}
    {Q : β → D.State → Prop} {g : D.State} (h : Keeps D p g P)
    (hf : ∀ a g', P a g' → Keeps D (f a) g' Q) : Keeps D (p >>= f) g Q :=
  keeps_bind.mpr (h.mono hf)

/-- One action, and the rest. -/
theorem Keeps.call {o : σ.Op} {f : σ.Res o → Prog σ β} {Q : β → D.State → Prop} {g : D.State}
    (h : D.ok g o) (hf : ∀ r, Keeps D (f r) (D.next g o r) Q) : Keeps D (Prog.call o >>= f) g Q :=
  ⟨h, hf⟩

theorem keeps_loopFrom {body : ℕ → β → Prog σ β} (I : ℕ → β → D.State → Prop) {k i : ℕ} {x : β}
    {g : D.State} (hbody : ∀ j x g, i ≤ j → j < i + k → I j x g → Keeps D (body j x) g (I (j + 1)))
    (h : I i x g) : Keeps D (loopFrom body k i x) g (I (i + k)) := by
  induction k generalizing i x g with
  | zero => exact h
  | succ k ih =>
      refine (hbody i x g le_rfl (by omega) h).seq fun x' g' h' => ?_
      have hrest := ih (fun j x g hj hlt => hbody j x g (by omega) (by omega)) h'
      rwa [show i + 1 + k = i + (k + 1) by omega] at hrest

/-- A loop keeps the discipline by an invariant. -/
theorem keeps_forRange {body : ℕ → β → Prog σ β} (I : ℕ → β → D.State → Prop) {n : ℕ} {x : β}
    {g : D.State} (hbody : ∀ j x g, j < n → I j x g → Keeps D (body j x) g (I (j + 1)))
    (h : I 0 x g) : Keeps D (forRange n body x) g (I n) := by
  have hloop := keeps_loopFrom I (k := n) (i := 0) (x := x) (g := g)
    (fun j x g _ hlt => hbody j x g (by omega)) h
  rwa [Nat.zero_add] at hloop

/-! ## Programs that are not watched -/

/-- Every action of the program satisfies `P`. -/
def Only (P : σ.Op → Prop) : Prog σ α → Prop
  | .ret _ => True
  | .act o k => P o ∧ ∀ r, Only P (k r)

namespace Only

variable {P : σ.Op → Prop}

theorem call {o : σ.Op} (h : P o) : Only P (Prog.call o : Prog σ (σ.Res o)) := ⟨h, fun _ => trivial⟩

theorem bind {p : Prog σ α} {f : α → Prog σ β} (h : Only P p) (hf : ∀ a, Only P (f a)) :
    Only P (p >>= f) := by
  induction p with
  | ret a => exact hf a
  | act o k ih => exact ⟨h.1, fun r => ih r (h.2 r)⟩

theorem ite {c : Prop} [Decidable c] {p q : Prog σ α} (hp : c → Only P p) (hq : ¬ c → Only P q) :
    Only P (if c then p else q) := by
  split
  · exact hp ‹_›
  · exact hq ‹_›

theorem loopFrom {body : ℕ → β → Prog σ β} (h : ∀ i x, Only P (body i x)) (k i : ℕ) (x : β) :
    Only P (Prog.loopFrom body k i x) := by
  induction k generalizing i x with
  | zero => exact trivial
  | succ k ih => exact (h i x).bind fun y => ih (i + 1) y

theorem forRange {body : ℕ → β → Prog σ β} (h : ∀ i x, Only P (body i x)) (n : ℕ) (x : β) :
    Only P (Prog.forRange n body x) :=
  loopFrom h n 0 x

end Only

/-- The automaton allows the action and does not notice it. -/
def Discipline.Free (D : Discipline σ) (o : σ.Op) : Prop := ∀ g, D.ok g o ∧ ∀ r, D.next g o r = g

/-- A program of such actions keeps the discipline where it is. -/
theorem Only.keeps {p : Prog σ α} (h : Only D.Free p) (g : D.State) :
    Keeps D p g fun _ g' => g' = g := by
  induction p with
  | ret a => rfl
  | act o k ih =>
      refine ⟨(h.1 g).1, fun r => ?_⟩
      rw [(h.1 g).2 r]
      exact ih r (h.2 r)

theorem Only.mono {P P' : σ.Op → Prop} {p : Prog σ α} (h : Only P p) (hp : ∀ o, P o → P' o) :
    Only P' p := by
  induction p with
  | ret a => trivial
  | act o k ih => exact ⟨hp o h.1, fun r => ih r (h.2 r)⟩

/-! ## Systems -/

section Sys

variable {Tid : Type} [DecidableEq Tid] {M : Machine σ Tid} {next : Tid → α → Prog σ α}
  {I : α → D.State → Prop}

/-- Every thread keeps the discipline from its state `g w`, up to the next rest and there `I`. -/
def Sys.Obeys (D : Discipline σ) (I : α → D.State → Prop) (S : Sys M α) (g : Tid → D.State) : Prop :=
  ∀ w, Keeps D (S.prog w) (g w) I

omit [DecidableEq Tid] in
/-- The next action of a thread is allowed. -/
theorem Sys.Obeys.unfolded (hI : ∀ w a g, I a g → Keeps D (next w a) g I) {S : Sys M α}
    {g : Tid → D.State} (h : S.Obeys D I g) (w : Tid) :
    Keeps D (unfold (next w) (S.prog w)) (g w) I := by
  have hk := h w
  cases hp : S.prog w with
  | ret a =>
      rw [hp] at hk
      exact hI w a (g w) hk
  | act o k =>
      rw [hp] at hk
      exact hk

/-- **A step is allowed and keeps the discipline.** -/
theorem Sys.Obeys.act (hI : ∀ w a g, I a g → Keeps D (next w a) g I) {S : Sys M α}
    {g : Tid → D.State} (h : S.Obeys D I g) {w : Tid} {o : σ.Op} {k : σ.Res o → Prog σ α}
    (hw : unfold (next w) (S.prog w) = .act o k) :
    D.ok (g w) o ∧ ∀ r s', Sys.Obeys (M := M) D I ⟨s', Function.update S.prog w (k r)⟩
      (Function.update g w (D.next (g w) o r)) := by
  have hk := h.unfolded hI w
  rw [hw] at hk
  refine ⟨hk.1, fun r s' v => ?_⟩
  by_cases hv : v = w
  · subst hv
    simpa only [Function.update_self] using hk.2 r
  · simpa only [Function.update_of_ne hv] using h v

/-- **Every run keeps the discipline**, with some states of the automaton. -/
theorem Sys.Obeys.run (hI : ∀ w a g, I a g → Keeps D (next w a) g I)
    {adm : Tid → σ.Op → M.Choice → M.State → Prop} {S S' : Sys M α} {g : Tid → D.State}
    (h : S.Obeys D I g) (hr : Sys.Run adm next S S') : ∃ g', S'.Obeys D I g' := by
  induction hr with
  | refl => exact ⟨g, h⟩
  | tail _ hs ih =>
      obtain ⟨g', h'⟩ := ih
      cases hs with
      | tau _ => exact ⟨g', h'⟩
      | act hw _ _ => exact ⟨_, (h'.act hI hw).2 _ _⟩

end Sys

end Interleave
