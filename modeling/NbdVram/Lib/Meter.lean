import Mathlib.Algebra.BigOperators.Group.Finset.Basic
import NbdVram.Lib.Discipline

/-!
# Meters

A `Meter` gives actions a price. Certain actions open an account anew, with as much
in it as they grant, and every other action is paid for from the account. To pay from
what was granted is a discipline (`Meter.budget`), so a bound on what a thread spends
between two grants needs no look at the shared state. `Spends m p n Q` says that the
program `p` gets along with `n`; the rules below compute such an `n` along the
structure of the program, and `Sys.Acts.affordable` carries it to runs.
-/

namespace Interleave

open Prog

/-- The price of each action, what it grants, and whether it may be performed at all. -/
structure Meter (σ : Sig) where
  cost : σ.Op → ℕ
  grant : σ.Op → Option ℕ
  may : σ.Op → Prop

variable {σ : Sig} {m : Meter σ} {α β : Type}

/-- The discipline to spend no more than what is in the account. -/
def Meter.budget (m : Meter σ) : Discipline σ where
  State := ℕ
  ok g o := m.may o ∧ m.cost o ≤ g
  next g o _ := (m.grant o).getD (g - m.cost o)

/-- The same prices, where every action may be performed. -/
def Meter.lenient (m : Meter σ) : Meter σ := { m with may := fun _ => True }

theorem Keeps.lenient {p : Prog σ α} {g : ℕ} {Q : α → ℕ → Prop} (h : Keeps m.budget p g Q) :
    Keeps m.lenient.budget p g Q := by
  induction p generalizing g with
  | ret a => exact h
  | act o k ih => exact ⟨⟨trivial, h.1.2⟩, fun r => ih r (h.2 r)⟩

/-- What keeps to a budget performs no action that it must not. -/
theorem Keeps.only {p : Prog σ α} {g : ℕ} {Q : α → ℕ → Prop} (h : Keeps m.budget p g Q) :
    Only m.may p := by
  induction p generalizing g with
  | ret a => trivial
  | act o k ih => exact ⟨h.1.1, fun r => ih r (h.2 r)⟩

/-- The action costs nothing and grants nothing. -/
def Meter.Free (m : Meter σ) (o : σ.Op) : Prop := m.may o ∧ m.cost o = 0 ∧ m.grant o = none

theorem Meter.Free.budget {o : σ.Op} (h : m.Free o) : m.budget.Free o := by
  intro g
  refine ⟨⟨h.1, by rw [h.2.1]; exact Nat.zero_le g⟩, fun r => ?_⟩
  show (m.grant o).getD _ = g
  rw [h.2.2, h.2.1]
  rfl

/-- The program needs at most `n`, whatever else is in the account, and grants nothing. -/
def Spends (m : Meter σ) (p : Prog σ α) (n : ℕ) (Q : α → Prop) : Prop :=
  ∀ g : ℕ, n ≤ g → Keeps m.budget p g fun a (g' : ℕ) => Q a ∧ g ≤ g' + n

namespace Spends

variable {n k : ℕ} {P : α → Prop} {Q : β → Prop}

theorem ret {a : α} (h : P a) : Spends m (.ret a) n P := fun g _ => ⟨h, Nat.le_add_right g n⟩

theorem mono {P' : α → Prop} {p : Prog σ α} (h : Spends m p n P) (hn : n ≤ k)
    (hP : ∀ a, P a → P' a) : Spends m p k P' := by
  intro g hg
  refine (h g (hn.trans hg)).mono fun a g' h' => ⟨hP a h'.1, ?_⟩
  have := h'.2
  omega

/-- One program after another: the second is paid from what is left. -/
theorem bind {p : Prog σ α} {f : α → Prog σ β} (h : Spends m p n P)
    (hf : ∀ a, P a → Spends m (f a) k Q) : Spends m (p >>= f) (n + k) Q := by
  intro g hg
  refine (h g (by omega)).seq fun a g' h' => ?_
  obtain ⟨ha, hleft⟩ := h'
  refine (hf a ha g' (by omega)).mono fun b g'' h'' => ⟨h''.1, ?_⟩
  have := h''.2
  omega

/-- One action, and the rest. -/
theorem call {o : σ.Op} {f : σ.Res o → Prog σ β} (hmay : m.may o) (hno : m.grant o = none)
    (hf : ∀ r, Spends m (f r) k Q) : Spends m (Prog.call o >>= f) (m.cost o + k) Q := by
  intro g hg
  refine ⟨⟨hmay, by omega⟩, fun r => ?_⟩
  have hnext : m.budget.next g o r = g - m.cost o := by
    show (m.grant o).getD _ = _
    rw [hno]
    rfl
  rw [hnext]
  refine (hf r _ (by omega)).mono fun b g' h' => ⟨h'.1, ?_⟩
  have := h'.2
  omega

/-- A free action, and the rest. -/
theorem free {o : σ.Op} {f : σ.Res o → Prog σ β} (ho : m.Free o)
    (hf : ∀ r, Spends m (f r) k Q) : Spends m (Prog.call o >>= f) k Q := by
  have h := call ho.1 ho.2.2 hf
  rwa [ho.2.1, Nat.zero_add] at h

/-- A program of free actions costs nothing. -/
theorem of_only {p : Prog σ α} (h : Only m.Free p) : Spends m p 0 fun _ => True := by
  intro g _
  refine ((h.mono fun _ => Meter.Free.budget).keeps g).mono fun a g' h' => ⟨trivial, ?_⟩
  rw [h', Nat.add_zero]

/-- A free program first. -/
theorem seq_free {p : Prog σ α} {f : α → Prog σ β} (h : Only m.Free p)
    (hf : ∀ a, Spends m (f a) k Q) : Spends m (p >>= f) k Q := by
  have hb := (of_only h).bind fun a _ => hf a
  rwa [Nat.zero_add] at hb

theorem loopFrom {body : ℕ → β → Prog σ β} (I : ℕ → β → Prop) (c : ℕ → ℕ) {k i : ℕ} {x : β}
    (hbody : ∀ j x, i ≤ j → j < i + k → I j x → Spends m (body j x) (c j) (I (j + 1)))
    (h : I i x) : Spends m (Prog.loopFrom body k i x) (∑ j ∈ Finset.range k, c (i + j)) (I (i + k)) := by
  induction k generalizing i x with
  | zero => exact ret h
  | succ k ih =>
      have hsum : ∑ j ∈ Finset.range (k + 1), c (i + j) =
          c i + ∑ j ∈ Finset.range k, c (i + 1 + j) := by
        rw [Finset.sum_range_succ', Nat.add_comm, Nat.add_zero]
        refine congrArg (c i + ·) (Finset.sum_congr rfl fun j _ => congrArg c ?_)
        omega
      rw [hsum]
      refine (hbody i x le_rfl (by omega) h).bind fun x' h' => ?_
      have hrest := ih (fun j x hj hlt => hbody j x (by omega) (by omega)) h'
      rwa [show i + 1 + k = i + (k + 1) by omega] at hrest

/-- A loop spends what its rounds spend. -/
theorem forRange {body : ℕ → β → Prog σ β} (I : ℕ → β → Prop) (c : ℕ → ℕ) {n : ℕ} {x : β}
    (hbody : ∀ j x, j < n → I j x → Spends m (body j x) (c j) (I (j + 1))) (h : I 0 x) :
    Spends m (Prog.forRange n body x) (∑ j ∈ Finset.range n, c j) (I n) := by
  have hloop := loopFrom (m := m) I c (k := n) (i := 0) (x := x)
    (fun j x _ hlt => hbody j x (by omega)) h
  simp only [Nat.zero_add] at hloop
  exact hloop

/-- The budget is kept, and nothing is said of what is left. -/
theorem keeps {p : Prog σ α} (h : Spends m p n P) {g : ℕ} (hg : n ≤ g) :
    Keeps m.budget p g fun a _ => P a :=
  (h g hg).mono fun _ _ h' => h'.1

end Spends

/-! ## Runs -/

section Sys

variable {Tid : Type} [DecidableEq Tid] {M : Machine σ Tid} {next : Tid → α → Prog σ α}
  {adm : Tid → σ.Op → M.Choice → M.State → Prop} {w : Tid}

/-- A run, with the actions of thread `w` on the way. -/
inductive Sys.Acts (adm : Tid → σ.Op → M.Choice → M.State → Prop) (next : Tid → α → Prog σ α)
    (w : Tid) : Sys M α → List σ.Op → Sys M α → Prop
  | refl {S : Sys M α} : Sys.Acts adm next w S [] S
  | tau {S S' : Sys M α} {s' : M.State} {os : List σ.Op} : M.tau S.st s' →
      Sys.Acts adm next w ⟨s', S.prog⟩ os S' → Sys.Acts adm next w S os S'
  | self {S S' : Sys M α} {o : σ.Op} {k : σ.Res o → Prog σ α} {c : M.Choice} {r : σ.Res o}
      {s' : M.State} {os : List σ.Op} : unfold (next w) (S.prog w) = .act o k → adm w o c S.st →
      M.exec w o c S.st = some (r, s') →
      Sys.Acts adm next w ⟨s', Function.update S.prog w (k r)⟩ os S' →
      Sys.Acts adm next w S (o :: os) S'
  | other {S S' : Sys M α} {v : Tid} {o : σ.Op} {k : σ.Res o → Prog σ α} {c : M.Choice}
      {r : σ.Res o} {s' : M.State} {os : List σ.Op} : v ≠ w →
      unfold (next v) (S.prog v) = .act o k → adm v o c S.st → M.exec v o c S.st = some (r, s') →
      Sys.Acts adm next w ⟨s', Function.update S.prog v (k r)⟩ os S' →
      Sys.Acts adm next w S os S'

variable {I : α → ℕ → Prop}

/-- **What a thread spends** in any run was in its account: with no grant on the way the prices of
its actions add up to at most that. -/
theorem Sys.Acts.affordable (hI : ∀ w a g, I a g → Keeps m.budget (next w a) g I) {S S' : Sys M α}
    {os : List σ.Op} (h : Sys.Acts adm next w S os S') {g : Tid → ℕ} (hg : S.Obeys m.budget I g)
    (hno : ∀ o ∈ os, m.grant o = none) : (os.map m.cost).sum ≤ g w := by
  induction h generalizing g with
  | refl => exact Nat.zero_le _
  | tau _ _ ih => exact ih hg hno
  | @other S S' v o k c r s' os hv hw _ _ _ ih =>
      have hrest := ih ((hg.act hI hw).2 r s') hno
      exact hrest.trans_eq (Function.update_of_ne (Ne.symm hv) _ _)
  | @self S S' o k c r s' os hw _ _ _ ih =>
      obtain ⟨hok, hnext⟩ := hg.act hI hw
      have hrest := ih (hnext r s') fun o' ho' => hno o' (List.mem_cons_of_mem _ ho')
      have hleft : Function.update g w (m.budget.next (g w) o r) w = g w - m.cost o := by
        refine (Function.update_self ..).trans ?_
        show (m.grant o).getD _ = _
        rw [hno o List.mem_cons_self]
        rfl
      have hpaid : m.cost o ≤ g w := hok.2
      rw [List.map_cons, List.sum_cons]
      have := hrest.trans_eq hleft
      omega

/-- From a grant on it is at most what was granted. -/
theorem Sys.Acts.granted (hI : ∀ w a g, I a g → Keeps m.budget (next w a) g I) {S S' : Sys M α}
    {o : σ.Op} {os : List σ.Op} (h : Sys.Acts adm next w S (o :: os) S') {g : Tid → ℕ}
    (hg : S.Obeys m.budget I g) {n : ℕ} (ho : m.grant o = some n)
    (hno : ∀ o' ∈ os, m.grant o' = none) : (os.map m.cost).sum ≤ n := by
  generalize hl : o :: os = l at h
  induction h generalizing g with
  | refl => cases hl
  | tau _ _ ih => exact ih hg hl
  | other _ hw _ _ _ ih => exact ih ((hg.act hI hw).2 _ _) hl
  | @self S S' o' k c r s' os' hw _ _ hrest _ =>
      obtain ⟨rfl, rfl⟩ := List.cons.inj hl
      have hsum := hrest.affordable hI ((hg.act hI hw).2 r s') hno
      refine hsum.trans_eq ((Function.update_self ..).trans ?_)
      show (m.grant o).getD _ = _
      rw [ho]
      rfl

end Sys

end Interleave
