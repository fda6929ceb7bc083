import NbdVram.AllocSpec
import NbdVram.Serve

/-!
# The books

The counters of the store are kept outside the locks that order the mutations, one
atomic update at a time. What a worker's index stores still have to change them by is
the worker's account `owed`; all accounts together close the gap between a counter
and the figure it stands for, and a worker outside an operation owes nothing.
-/

namespace NbdVram

open Interleave

/-- The figure that a counter stands for: the blocks written and not trimmed since, the sum of
their stored lengths, those stored verbatim, and how often a written block was trimmed. -/
def State.figure (cfg : Config) (s : State) : Counter → ℤ
  | .trimBlocks => s.births - ∑ b ∈ Finset.range cfg.nblocks, Counter.blocksLive.share (s.index b)
  | c => ∑ b ∈ Finset.range cfg.nblocks, c.share (s.index b)

/-- The accounts are settled up to what the workers owe. -/
structure Books (cfg : Config) (s : State) : Prop where
  idle : ∀ w, (s.priv w).busy = false → (s.priv w).Settled
  small : ∀ c, s.ctr c < 2 ^ 64
  kept : ∃ F : Finset ℕ, (∀ w, w ∉ F → ∀ c, (s.priv w).owed c = 0) ∧ ∀ c, c.kept = true →
    (s.ctr c : ℤ) ≡ s.figure cfg c - ∑ w ∈ F, (s.priv w).owed c [ZMOD 2 ^ 64]

variable {cfg : Config} {s s' : State} {w b : ℕ}

theorem State.setPriv_self (p : Priv) : (s.setPriv w p).priv w = p := Function.update_self ..

theorem State.setPriv_of_ne {v : ℕ} (h : v ≠ w) (p : Priv) : (s.setPriv w p).priv v = s.priv v :=
  Function.update_of_ne h _ _

theorem Counter.due_eq {c : Counter} (hc : c ≠ .trimBlocks) (old ent : ℕ) :
    c.due old ent = c.share ent - c.share old := by
  cases c <;> first | rfl | exact absurd rfl hc

theorem Counter.due_of_not_kept {c : Counter} (hc : c.kept = false) (old ent : ℕ) :
    c.due old ent = 0 := by
  cases c <;> first | rfl | cases hc

theorem sum_update_index (c : Counter) (hb : b < cfg.nblocks) (e : ℕ) :
    ∑ b' ∈ Finset.range cfg.nblocks, c.share (Function.update s.index b e b') =
      (∑ b' ∈ Finset.range cfg.nblocks, c.share (s.index b')) +
        (c.share e - c.share (s.index b)) := by
  have hmem : b ∈ Finset.range cfg.nblocks := Finset.mem_range.mpr hb
  rw [← Finset.add_sum_erase _ _ hmem, ← Finset.add_sum_erase _ (fun b' => c.share (s.index b')) hmem,
    Function.update_self]
  have hrest : ∑ b' ∈ (Finset.range cfg.nblocks).erase b, c.share (Function.update s.index b e b') =
      ∑ b' ∈ (Finset.range cfg.nblocks).erase b, c.share (s.index b') := by
    apply Finset.sum_congr rfl
    intro b' hb'
    rw [Function.update_of_ne (Finset.ne_of_mem_erase hb')]
  rw [hrest]
  ring

/-- A store changes every figure by what the worker owes for it. -/
theorem State.figure_store {req e : ℕ} (c : Counter) (hc : c.kept = true) (hb : b < cfg.nblocks) :
    (s.store cfg w req b e).figure cfg c = s.figure cfg c + c.due (s.index b) e := by
  have hsum := fun c => sum_update_index (s := s) c hb e
  by_cases ht : c = .trimBlocks
  · subst ht
    show ((if entClen (s.index b) = 0 ∧ entClen e ≠ 0 then s.births + 1 else s.births : ℕ) : ℤ) -
      ∑ b' ∈ Finset.range cfg.nblocks, Counter.blocksLive.share (Function.update s.index b e b') = _
    rw [hsum]
    simp only [State.figure, Counter.share, Counter.due]
    by_cases h1 : entClen (s.index b) = 0 <;> by_cases h2 : entClen e = 0
    all_goals
      simp [h1, h2]
      try ring
  · rw [Counter.due_eq ht]
    have hfig : ∀ t : State, t.figure cfg c =
        ∑ b' ∈ Finset.range cfg.nblocks, c.share (t.index b') := by
      intro t
      cases c <;> first | rfl | exact absurd rfl ht
    rw [hfig, hfig]
    exact hsum c

namespace Books

/-- Steps that touch no counter, no entry and no account. -/
theorem congr (h : Books cfg s) (hidx : s'.index = s.index) (hctr : s'.ctr = s.ctr)
    (hbirths : s'.births = s.births) (howed : ∀ w, (s'.priv w).owed = (s.priv w).owed)
    (hsubs : ∀ w, (s'.priv w).subs = (s.priv w).subs)
    (hbusy : ∀ w, (s'.priv w).busy = (s.priv w).busy) : Books cfg s' := by
  obtain ⟨F, hF, hk⟩ := h.kept
  refine ⟨fun w hb c => ?_, by rw [hctr]; exact h.small, F, fun w hw c => ?_, fun c hc => ?_⟩
  · rw [howed, hsubs]
    exact h.idle w (by rwa [hbusy] at hb) c
  · rw [howed]
    exact hF w hw c
  · have hfig : s'.figure cfg c = s.figure cfg c := by
      cases c <;> simp only [State.figure, hidx, hbirths]
    simp only [howed, hctr, hfig]
    exact hk c hc

/-- One worker's account and a counter move together. -/
theorem move (h : Books cfg s) (hbusy : ∀ v, (s'.priv v).busy = false → (s'.priv v).Settled)
    (hsmall : ∀ c, s'.ctr c < 2 ^ 64) (hother : ∀ v, v ≠ w → (s'.priv v).owed = (s.priv v).owed)
    (hc : ∀ c, c.kept = true → (s'.ctr c : ℤ) - s'.figure cfg c + (s'.priv w).owed c ≡
      (s.ctr c : ℤ) - s.figure cfg c + (s.priv w).owed c [ZMOD 2 ^ 64]) : Books cfg s' := by
  obtain ⟨F, hF, hk⟩ := h.kept
  have hsum : ∀ (t : State) (c : Counter), (∀ v, v ∉ F → v ≠ w → (t.priv v).owed c = 0) →
      ∑ v ∈ insert w F, (t.priv v).owed c =
        (t.priv w).owed c + ∑ v ∈ F.erase w, (t.priv v).owed c := by
    intro t c _
    rw [← Finset.add_sum_erase _ _ (Finset.mem_insert_self w F), Finset.erase_insert_eq_erase]
  have hold : ∀ c, ∑ v ∈ F, (s.priv v).owed c =
      (s.priv w).owed c + ∑ v ∈ F.erase w, (s.priv v).owed c := by
    intro c
    by_cases hw : w ∈ F
    · rw [← Finset.add_sum_erase _ _ hw]
    · rw [hF w hw c, zero_add, Finset.erase_eq_of_notMem hw]
  refine ⟨hbusy, hsmall, insert w F, fun v hv c => ?_, fun c hkc => ?_⟩
  · rw [Finset.mem_insert, not_or] at hv
    rw [hother v hv.1]
    exact hF v hv.2 c
  · have hrest : ∑ v ∈ F.erase w, (s'.priv v).owed c = ∑ v ∈ F.erase w, (s.priv v).owed c := by
      apply Finset.sum_congr rfl
      intro v hv
      rw [hother v (Finset.ne_of_mem_erase hv)]
    rw [hsum s' c fun v hv hvw => by rw [hother v hvw]; exact hF v hv c, hrest]
    have h1 := hk c hkc
    rw [hold c] at h1
    have h2 := hc c hkc
    have h5 : (s'.ctr c : ℤ) ≡ s'.figure cfg c - (s'.priv w).owed c +
        ((s.ctr c : ℤ) - s.figure cfg c + (s.priv w).owed c) [ZMOD 2 ^ 64] := by
      have := h2.add_right (s'.figure cfg c - (s'.priv w).owed c)
      ring_nf at this ⊢
      exact this
    refine h5.trans ?_
    have h6 := h1.add_left (s'.figure cfg c - (s'.priv w).owed c - s.figure cfg c + (s.priv w).owed c)
    ring_nf at h6 ⊢
    exact h6

/-- The worker's other history. -/
theorem setPriv (h : Books cfg s) {p : Priv} (ho : p.owed = (s.priv w).owed)
    (hs : p.subs = (s.priv w).subs) (hb : p.busy = (s.priv w).busy) :
    Books cfg (s.setPriv w p) := by
  refine h.congr rfl rfl rfl (fun v => ?_) (fun v => ?_) fun v => ?_
  all_goals
    by_cases hv : v = w
    · subst hv
      rw [State.setPriv_self]
      assumption
    · rw [State.setPriv_of_ne hv]

/-- The worker enters an operation. -/
theorem enter (h : Books cfg s) : Books cfg (s.setPriv w { s.priv w with busy := true }) := by
  refine h.move (w := w) (fun v hv c => ?_) h.small (fun v hv => ?_) fun c hc => ?_
  · by_cases hvw : v = w
    · subst hvw
      rw [State.setPriv_self] at hv
      cases hv
    · rw [State.setPriv_of_ne hvw] at hv ⊢
      exact h.idle v hv c
  · rw [State.setPriv_of_ne hv]
  · rw [State.setPriv_self]
    cases c <;> rfl

/-- The worker leaves an operation and owes nothing any more. -/
theorem leave (h : Books cfg s) (ho : (s.priv w).Settled) :
    Books cfg (s.setPriv w { s.priv w with busy := false }) := by
  refine h.move (w := w) (fun v hv c => ?_) h.small (fun v hv => ?_) fun c hc => ?_
  · by_cases hvw : v = w
    · subst hvw
      rw [State.setPriv_self]
      exact ho c
    · rw [State.setPriv_of_ne hvw] at hv ⊢
      exact h.idle v hv c
  · rw [State.setPriv_of_ne hv]
  · rw [State.setPriv_self]
    cases c <;> rfl

/-- A store is entered in the worker's account. -/
theorem store {req e : ℕ} (h : Books cfg s) (hb : b < cfg.nblocks)
    (hbusy : (s.priv w).busy = true) : Books cfg (s.store cfg w req b e) := by
  have hpriv : ∀ v, (s.store cfg w req b e).priv v =
      Function.update s.priv w ((s.priv w).owe (s.index b) e) v := fun _ => rfl
  refine h.move (w := w) (fun v hv c => ?_) h.small (fun v hv => ?_) fun c hc => ?_
  · by_cases hvw : v = w
    · subst hvw
      rw [hpriv, Function.update_self, Priv.owe, hbusy] at hv
      cases hv
    · rw [hpriv, Function.update_of_ne hvw] at *
      exact h.idle v hv c
  · rw [hpriv, Function.update_of_ne hv]
  · rw [State.figure_store c hc hb, hpriv, Function.update_self]
    simp only [Priv.owe]
    rw [show (s.store cfg w req b e).ctr = s.ctr from rfl]
    ring_nf
    rfl

/-- A counter is changed by `n`, and so is what is owed. -/
theorem pay {c : Counter} {k : ℕ} {n : ℤ} (h : Books cfg s)
    (hbusy : c.kept = true → (s.priv w).busy = true) (hk : k < 2 ^ 64)
    (hn : (k : ℤ) ≡ s.ctr c + n [ZMOD 2 ^ 64]) : Books cfg { s with
      ctr := Function.update s.ctr c k
      priv := Function.update s.priv w ((s.priv w).pay c n) } := by
  refine h.move (w := w) (fun v hv c' => ?_) (fun c' => ?_) (fun v hv => ?_) fun c' hc' => ?_
  · by_cases hvw : v = w
    · subst hvw
      simp only [Function.update_self] at hv ⊢
      unfold Priv.pay at hv ⊢
      split at hv
      · rename_i hc
        rw [hbusy hc] at hv
        cases hv
      · rename_i hc
        rw [if_neg hc]
        exact h.idle v hv c'
    · simp only [Function.update_of_ne hvw] at hv ⊢
      exact h.idle v hv c'
  · simp only [Function.update_apply]
    split
    · exact hk
    · exact h.small c'
  · simp only [Function.update_of_ne hv]
  · have hfig : State.figure cfg { s with
        ctr := Function.update s.ctr c k
        priv := Function.update s.priv w ((s.priv w).pay c n) } c' = s.figure cfg c' := by
      cases c' <;> rfl
    rw [hfig]
    simp only [Function.update_self, Priv.pay]
    by_cases hcc : c' = c
    · subst hcc
      rw [if_pos hc', Function.update_self]
      simp only [Function.update_self]
      have := hn.add_right (-(s.figure cfg c') + ((s.priv w).owed c' - n))
      ring_nf at this ⊢
      exact this
    · rw [Function.update_of_ne hcc]
      split
      · simp only [Function.update_of_ne hcc]
        rfl
      · rfl

/-- A fresh daemon. -/
theorem initial (h : s.Initial cfg) : Books cfg s := by
  have h0 : entClen 0 = 0 := by decide
  refine ⟨fun w _ => h.owed w, fun c => by rw [h.ctr]; decide, ∅, fun w _ c => (h.owed w c).1,
    fun c hc => ?_⟩
  have hfig : s.figure cfg c = 0 := by
    cases c <;> simp [State.figure, h.index, h.births, Counter.share, h0]
  rw [hfig, h.ctr]
  simp

end Books

theorem add_modEq (a n : ℕ) : (((a + n) % 2 ^ 64 : ℕ) : ℤ) ≡ a + n [ZMOD 2 ^ 64] := by
  push_cast
  exact Int.mod_modEq _ _

theorem sub_modEq (a n : ℕ) :
    (((a + (2 ^ 64 - n % 2 ^ 64)) % 2 ^ 64 : ℕ) : ℤ) ≡ a + -n [ZMOD 2 ^ 64] := by
  rw [Int.ModEq]
  omega

end NbdVram
