import NbdVram.Lib.RelyGuarantee

/-!
# Systems of threads

Every thread runs an endless loop: `next w a` is the body of thread `w` started
in the local state `a`, and a thread whose body has returned `a` rests until it
performs the first action of the next round. A thread at rest is therefore one
whose program is `ret a`.

`Safe` systems stay safe along every run (`Safe.run`), so whatever a contract
demands before an action, and whatever it promises of a thread at rest, holds in
every reachable state. `Alone` is the special case of one thread running one
program while all the others stand still; `drive` computes such a run from the
choices of the environment, and `Does` states its outcome.
-/

namespace Interleave

open Relation Prog

section Sys

variable {σ : Sig} {Tid : Type} [DecidableEq Tid] {M : Machine σ Tid} {α : Type}

structure Sys (M : Machine σ Tid) (α : Type) where
  st : M.State
  prog : Tid → Prog σ α

/-- The program of a thread at rest is the next round of its loop. -/
def unfold (next : α → Prog σ α) : Prog σ α → Prog σ α
  | .ret a => next a
  | .act o k => .act o k

inductive Sys.Step (adm : Tid → σ.Op → M.Choice → M.State → Prop) (next : Tid → α → Prog σ α) :
    Sys M α → Sys M α → Prop
  | act {S : Sys M α} {w : Tid} {o : σ.Op} {k : σ.Res o → Prog σ α} {c : M.Choice}
      {r : σ.Res o} {s' : M.State} : unfold (next w) (S.prog w) = .act o k → adm w o c S.st →
      M.exec w o c S.st = some (r, s') →
      Sys.Step adm next S ⟨s', Function.update S.prog w (k r)⟩
  | tau {S : Sys M α} {s' : M.State} : M.tau S.st s' → Sys.Step adm next S ⟨s', S.prog⟩

/-- Any number of steps. -/
def Sys.Run (adm : Tid → σ.Op → M.Choice → M.State → Prop) (next : Tid → α → Prog σ α) :
    Sys M α → Sys M α → Prop :=
  ReflTransGen (Sys.Step adm next)

/-- Every thread keeps the contract and comes to rest in its postcondition. -/
def Safe (C : Contract M) (Q : Tid → α → M.State → Prop) (S : Sys M α) : Prop :=
  C.inv S.st ∧ ∀ w, wp C w (S.prog w) (Q w) S.st

/-- The postconditions are loop invariants: no other thread breaks them, and from them each
thread can run another round. -/
structure Rounds (C : Contract M) (next : Tid → α → Prog σ α) (Q : Tid → α → M.State → Prop) :
    Prop where
  stable : ∀ w a, Stable C w (Q w a)
  round : ∀ w a s, C.inv s → Q w a s → wp C w (next w a) (Q w) s

variable {C : Contract M} {next : Tid → α → Prog σ α} {Q : Tid → α → M.State → Prop}

omit [DecidableEq Tid] in
theorem Safe.unfolded (hR : Rounds C next Q) {S : Sys M α} (h : Safe C Q S) (w : Tid) :
    wp C w (unfold (next w) (S.prog w)) (Q w) S.st := by
  have hwp := h.2 w
  cases hp : S.prog w with
  | ret a =>
      rw [hp] at hwp
      exact hR.round w a _ h.1 hwp
  | act o k =>
      rw [hp] at hwp
      exact hwp

omit [DecidableEq Tid] in
/-- In a safe system the next action of every thread meets its condition. -/
theorem Safe.pre (hR : Rounds C next Q) {S : Sys M α} (h : Safe C Q S) {w : Tid} {o : σ.Op}
    {k : σ.Res o → Prog σ α} (hw : unfold (next w) (S.prog w) = .act o k) : C.pre w o S.st := by
  have hwp := h.unfolded hR w
  rw [hw] at hwp
  exact (hwp S.st .refl).1

omit [DecidableEq Tid] in
/-- A thread at rest in a safe system is in its postcondition. -/
theorem Safe.post {S : Sys M α} (h : Safe C Q S) {w : Tid} {a : α} (hw : S.prog w = .ret a) :
    Q w a S.st := by
  have hwp := h.2 w
  rwa [hw] at hwp

theorem Safe.step (hR : Rounds C next Q) {S S' : Sys M α} (h : Safe C Q S)
    (hs : Sys.Step C.adm next S S') : Safe C Q S' := by
  cases hs with
  | tau ht => exact ⟨C.inv_tau h.1 ht, fun w => wp_env (hR.stable w) (h.2 w) ⟨h.1, .inl ht⟩⟩
  | @act v o k c r s' hv ha he =>
      have hp := h.pre hR hv
      refine ⟨C.inv_exec h.1 hp ha he, fun w => ?_⟩
      by_cases hw : w = v
      · subst hw
        have hwp := h.unfolded hR w
        rw [hv] at hwp
        simpa only [Function.update_self] using (hwp S.st .refl).2 c r s' ha he
      · have henv : C.Env w S.st s' := ⟨h.1, .inr ⟨v, o, c, r, fun e => hw e.symm, hp, ha, he⟩⟩
        simpa only [Function.update_of_ne hw] using wp_env (hR.stable w) (h.2 w) henv

/-- **Safety along runs.** -/
theorem Safe.run (hR : Rounds C next Q) {S S' : Sys M α} (h : Safe C Q S)
    (hr : Sys.Run C.adm next S S') : Safe C Q S' := by
  induction hr with
  | refl => exact h
  | tail _ hs ih => exact ih.step hR hs

omit [DecidableEq Tid] in
/-- A new postcondition for a thread at rest, as long as it holds there. -/
theorem Safe.rebase {Q' : Tid → α → M.State → Prop} {S : Sys M α} (h : Safe C Q S)
    (hq : ∀ w, Q' w = Q w ∨ ∃ a, S.prog w = .ret a ∧ Q' w a S.st) : Safe C Q' S := by
  refine ⟨h.1, fun w => ?_⟩
  rcases hq w with he | ⟨a, ha, hqa⟩
  · rw [he]
    exact h.2 w
  · rw [ha]
    exact hqa

end Sys

section Alone

variable {σ : Sig} {Tid : Type} {M : Machine σ Tid} {α : Type}

/-- Thread `w` runs `p` to its end while only the machine moves beside it. -/
inductive Alone (adm : Tid → σ.Op → M.Choice → M.State → Prop) (w : Tid) :
    Prog σ α → M.State → α → M.State → Prop
  | ret {a : α} {s : M.State} : Alone adm w (.ret a) s a s
  | tau {p : Prog σ α} {s s' s'' : M.State} {a : α} : M.tau s s' → Alone adm w p s' a s'' →
      Alone adm w p s a s''
  | act {o : σ.Op} {k : σ.Res o → Prog σ α} {c : M.Choice} {r : σ.Res o} {s s' s'' : M.State}
      {a : α} : adm w o c s → M.exec w o c s = some (r, s') → Alone adm w (k r) s' a s'' →
      Alone adm w (.act o k) s a s''

/-- What a specification says of a thread that runs alone. -/
theorem wp_alone {C : Contract M} {w : Tid} {p : Prog σ α} {Q : α → M.State → Prop}
    (hQ : ∀ a, Stable C w (Q a)) {s s' : M.State} {a : α} (hr : Alone C.adm w p s a s')
    (hi : C.inv s) (h : wp C w p Q s) : C.inv s' ∧ Q a s' := by
  induction hr with
  | ret => exact ⟨hi, h⟩
  | tau ht _ ih => exact ih (C.inv_tau hi ht) (wp_env hQ h ⟨hi, .inl ht⟩)
  | act ha he _ ih =>
      obtain ⟨hp, hk⟩ := h _ .refl
      exact ih (C.inv_exec hi hp ha he) (hk _ _ _ ha he)

/-- To another thread, one that runs alone is part of its surroundings. -/
theorem Alone.env {C : Contract M} {w v : Tid} (hv : w ≠ v) {p : Prog σ α}
    {Q : α → M.State → Prop} (hQ : ∀ a, Stable C w (Q a)) {s s' : M.State} {a : α}
    (hr : Alone C.adm w p s a s') (hi : C.inv s) (h : wp C w p Q s) : ReflTransGen (C.Env v) s s' := by
  induction hr with
  | ret => exact .refl
  | tau ht _ ih => exact .head ⟨hi, .inl ht⟩ (ih (C.inv_tau hi ht) (wp_env hQ h ⟨hi, .inl ht⟩))
  | act ha he _ ih =>
      obtain ⟨hp, hk⟩ := h _ .refl
      exact .head ⟨hi, .inr ⟨w, _, _, _, hv, hp, ha, he⟩⟩
        (ih (C.inv_exec hi hp ha he) (hk _ _ _ ha he))

/-- More choices of the environment allow more runs. -/
theorem Alone.mono {adm adm' : Tid → σ.Op → M.Choice → M.State → Prop} {w : Tid}
    (hadm : ∀ o c s, adm w o c s → adm' w o c s) {p : Prog σ α} {s s' : M.State} {a : α}
    (h : Alone adm w p s a s') : Alone adm' w p s a s' := by
  induction h with
  | ret => exact .ret
  | tau ht _ ih => exact .tau ht ih
  | act ha he _ ih => exact .act (hadm _ _ _ ha) he ih

/-- A thread that keeps its contract comes to its end if, as long as `J` holds, no action that
may be performed has to wait. -/
theorem wp_alone_ends {C : Contract M} {w : Tid} {p : Prog σ α} {Q : α → M.State → Prop}
    (J : M.State → Prop)
    (hJ : ∀ o s, C.inv s → J s → C.pre w o s →
      ∃ c r s', C.adm w o c s ∧ M.exec w o c s = some (r, s') ∧ J s')
    {s : M.State} (hi : C.inv s) (hj : J s) (h : wp C w p Q s) :
    ∃ a s', Alone C.adm w p s a s' := by
  induction p generalizing s with
  | ret a => exact ⟨a, s, .ret⟩
  | act o k ih =>
      obtain ⟨hp, hk⟩ := h s .refl
      obtain ⟨c, r, s', ha, he, hj'⟩ := hJ o s hi hj hp
      obtain ⟨a, s'', hr⟩ := ih r (C.inv_exec hi hp ha he) hj' (hk c r s' ha he)
      exact ⟨a, s'', .act ha he hr⟩

end Alone

section Drive

variable {σ : Sig} {Tid : Type} {α β : Type}

/-- Run a program with the environment's choices given in advance, one for each action;
`none` if an action cannot happen. -/
def drive (M : Machine σ Tid) (w : Tid) (ch : ℕ → M.Choice) :
    Prog σ α → ℕ → M.State → Option (α × ℕ × M.State)
  | .ret a, i, s => some (a, i, s)
  | .act o k, i, s => (M.exec w o (ch i) s).bind fun x => drive M w ch (k x.1) (i + 1) x.2

/-- From `s` the program comes to its end in `s'` with the result `a`, whichever of the
choices it starts with. -/
def Does (M : Machine σ Tid) (w : Tid) (ch : ℕ → M.Choice) (p : Prog σ α) (s : M.State) (a : α)
    (s' : M.State) : Prop :=
  ∀ i, ∃ j, drive M w ch p i s = some (a, j, s')

variable {M : Machine σ Tid} {w : Tid} {ch : ℕ → M.Choice} {s s' s'' : M.State} {a : α} {b : β}

theorem drive_bind (p : Prog σ α) (f : α → Prog σ β) (i : ℕ) (s : M.State) :
    drive M w ch (p >>= f) i s =
      (drive M w ch p i s).bind fun x => drive M w ch (f x.1) x.2.1 x.2.2 := by
  induction p generalizing i s with
  | ret a => rfl
  | act o k ih =>
      simp only [act_bind, drive]
      cases M.exec w o (ch i) s with
      | none => rfl
      | some x => exact ih x.1 (i + 1) x.2

theorem drive_call {o : σ.Op} {f : σ.Res o → Prog σ β} {i : ℕ} {r : σ.Res o}
    (h : M.exec w o (ch i) s = some (r, s')) :
    drive M w ch (call o >>= f) i s = drive M w ch (f r) (i + 1) s' := by
  show (M.exec w o (ch i) s).bind _ = _
  rw [h]
  rfl

theorem Does.ret : Does M w ch (.ret a) s a s := fun i => ⟨i, rfl⟩

theorem Does.bind {p : Prog σ α} {f : α → Prog σ β} (h : Does M w ch p s a s')
    (hf : Does M w ch (f a) s' b s'') : Does M w ch (p >>= f) s b s'' := by
  intro i
  obtain ⟨j, hj⟩ := h i
  obtain ⟨k, hk⟩ := hf j
  refine ⟨k, ?_⟩
  rw [drive_bind, hj]
  exact hk

end Drive

end Interleave
