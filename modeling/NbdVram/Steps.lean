import NbdVram.Local

/-!
# One specification for each action

Each lemma says what an action makes of a worker's knowledge. Together they are a
symbolic execution of the programs of the source: none of the later proofs looks
inside `exec`, the invariant or the environment again.
-/

namespace NbdVram

open Interleave Span MutationLog

variable {cfg : Config} {md : Mode} {s s' : State} {w b g n : ℕ} {x : Local}

/-! ## Consequences of what is known -/

theorem SlotOk.noMove {sl : Stage} {st : SlotSt} (h : SlotOk w sl s st) (hc : st.Calm) :
    NoMove w sl s := by
  cases st with
  | idle => exact h
  | staged bs | sent g bs | snapped b t e | loaded b t e => exact h.1
  | up g bs | down b t e => exact hc.elim

/-- No slot has a copy queued. -/
def Local.Calm (x : Local) : Prop := ∀ sl, (x.slot sl).Calm

/-- What is known between requests. -/
structure Local.Rest (md : Mode) (x : Local) : Prop where
  locks : x.locks = []
  entry : x.entry = none
  disp : x.disp = []
  calm : x.Calm
  target : ∀ sl, (x.slot sl).target = none
  resv : md.batch = true → ∀ g, x.resv g ≠ none → g ∈ md.left
  busy : x.priv.busy = false
  since : md.since ≤ x.log.length

namespace Loc

theorem pend_nil (hx : Loc cfg w x s) (hc : x.Calm) : s.pend w = [] := by
  rw [List.eq_nil_iff_forall_not_mem]
  intro mv hmv
  exact (hx.slot mv.slot).noMove (hc mv.slot) mv hmv rfl

theorem quiet (hx : Loc cfg w x s) (hr : x.Rest md) : Quiet md w s := by
  refine ⟨fun m hm => ?_, hx.pend_nil hr.calm, hx.disp.trans hr.disp, fun hb => ?_⟩
  · have := (hx.locks m).mp hm
    rw [hr.locks] at this
    cases this
  · intro g hg
    refine hr.resv hb g ?_
    rw [(hx.resv g _).mpr ⟨hg, rfl⟩]
    simp

theorem not_resv (hx : Loc cfg w x s) (hg : x.resv g = none) : g ∉ s.resv w := by
  intro h
  have := (hx.resv g _).mpr ⟨h, rfl⟩
  rw [hg] at this
  cases this

/-- The known prefix may be advanced to the whole log. -/
theorem advance (hx : Loc cfg w x s) :
    ∃ new, s.log = x.log ++ new ∧ Alien w new ∧ Loc cfg w { x with log := x.log ++ new } s := by
  obtain ⟨new, hl, hf⟩ := hx.log
  exact ⟨new, hl, hf, hx.locks, hx.entry, hx.resv, hx.disp, hx.slot, hx.room, hx.apart,
    ⟨[], by simp [hl], Foreign.nil⟩, hx.priv⟩

/-- A slot without a target may take any other such state that is true. -/
theorem setSlot (hx : Loc cfg w x s) {sl : Stage} {st : SlotSt} (ht : st.target = none)
    (hs : SlotOk w sl s st) : Loc cfg w { x with slot := Function.update x.slot sl st } s := by
  have hne : ∀ {sl' g bs}, (Function.update x.slot sl st sl').target = some (g, bs) →
      sl' ≠ sl ∧ (x.slot sl').target = some (g, bs) := by
    intro sl' g bs h
    by_cases he : sl' = sl
    · subst he
      rw [Function.update_self, ht] at h
      cases h
    · rw [Function.update_of_ne he] at h
      exact ⟨he, h⟩
  refine ⟨hx.locks, hx.entry, hx.resv, hx.disp, fun sl' => ?_, fun sl' g bs h => ?_,
    fun sl₁ sl₂ g bs bs' h h' => ?_, hx.log, hx.priv⟩
  · show SlotOk w sl' s (Function.update x.slot sl st sl')
    by_cases he : sl' = sl
    · subst he
      rw [Function.update_self]
      exact hs
    · rw [Function.update_of_ne he]
      exact hx.slot sl'
  · exact hx.room sl' g bs (hne h).2
  · exact hx.apart _ _ _ _ _ (hne h).2 (hne h').2

/-- The own history changes. -/
theorem setPriv (hx : Loc cfg w x s) (p : Priv) :
    Loc cfg w { x with priv := p } (s.setPriv w p) :=
  ⟨hx.locks, hx.entry, hx.resv, hx.disp, hx.slot, hx.room, hx.apart, hx.log,
    Function.update_self ..⟩

end Loc

/-- `e` is the entry of block `b` after `log`. -/
structure Entry (cfg : Config) (log : List Mut) (b e : ℕ) : Prop where
  heap : entClen e ≠ 0 →
    entGrain e * 64 + entClen e ≤ cfg.heap.nExtents * cfg.heap.extentSize
  len : entClen e ≤ 4096
  zero : entClen e = 0 → pageOf (disk log) b = Page.zero
  gen : entGen e = mutations b log % 2 ^ 21

theorem Inv.entry_of_log (h : Inv cfg md s) (b : ℕ) : Entry cfg s.log b (s.index b) := by
  refine ⟨h.entry_in_heap, (h.entry b).bounds.2, fun hz => ?_, (h.entry b).gen⟩
  rw [← h.content b, State.content, if_pos hz]

/-- The rule for one action: the worker's knowledge outlives what its surroundings do first. -/
theorem wp_step {o : Op} {Q : o.Res → State → Prop} (hi : Inv cfg md s) (hx : Loc cfg w x s)
    (h : ∀ s₁ : State, Inv cfg md s₁ → Loc cfg w x s₁ → Pre cfg md w o s₁ ∧
      ∀ (c : Choice) (r : o.Res) (s₂ : State), Inv cfg md s₂ → md.Adm cfg w o c s₁ →
        exec cfg w o c s₁ = some (r, s₂) → Q r s₂) :
    wp (contract cfg md) w (Prog.call (σ := sig) o) Q s :=
  wp_act (Loc.stable cfg md w x) hi hx h

/-! ## Mutexes -/

theorem lock_spec (hi : Inv cfg md s) (hx : Loc cfg w x s) (hl : x.locks = []) :
    wp (contract cfg md) w (lock (stripe b))
      (fun _ s' => Loc cfg w { x with locks := [stripe b] } s') s := by
  refine wp_step hi hx fun s₁ hi₁ hx₁ => ⟨fun m hm => ?_, ?_⟩
  · have := (hx₁.locks m).mp hm
    rw [hl] at this
    cases this
  · intro c r s₂ hi₂ ha he
    simp only [exec] at he
    split at he
    · cases he
      refine ⟨fun m => ?_, fun b e t h => ?_, hx₁.resv, hx₁.disp, hx₁.slot, hx₁.room, hx₁.apart,
        hx₁.log, hx₁.priv⟩
      · have := hx₁.locks m
        simp only [Function.update_apply, List.mem_singleton]
        split
        · simp [*]
        · rw [this, hl]
          simp [*]
      · have := (hx₁.entry b e t h).1
        rw [hl] at this
        cases this
    · cases he

theorem unlock_spec (hi : Inv cfg md s) (hx : Loc cfg w x s) (hl : x.locks = [stripe b]) :
    wp (contract cfg md) w (unlock (stripe b))
      (fun _ s' => Loc cfg w { x with locks := [], entry := none } s') s := by
  refine wp_step hi hx fun s₁ hi₁ hx₁ =>
    ⟨(hx₁.locks _).mpr (by simp [hl]), ?_⟩
  intro c r s₂ hi₂ ha he
  cases he
  refine ⟨fun m => ?_, fun _ _ _ h => (by cases h), hx₁.resv, hx₁.disp, hx₁.slot, hx₁.room, hx₁.apart, hx₁.log, hx₁.priv⟩
  have := hx₁.locks m
  simp only [Function.update_apply, List.not_mem_nil, iff_false]
  split
  · simp
  · rw [this, hl]
    simp [*]

theorem lockAlloc_spec (hi : Inv cfg md s) (hx : Loc cfg w x s) (hl : .alloc ∉ x.locks) :
    wp (contract cfg md) w (lock .alloc)
      (fun _ s' => Loc cfg w { x with locks := .alloc :: x.locks } s') s := by
  refine wp_step hi hx fun s₁ hi₁ hx₁ =>
    ⟨fun h => hl ((hx₁.locks _).mp h), ?_⟩
  intro c r s₂ hi₂ ha he
  simp only [exec] at he
  split at he
  · cases he
    refine ⟨fun m => ?_, fun b e t h => ?_, hx₁.resv, hx₁.disp, hx₁.slot, hx₁.room, hx₁.apart,
      hx₁.log, hx₁.priv⟩
    · have := hx₁.locks m
      simp only [Function.update_apply, List.mem_cons]
      split
      · simp [*]
      · simp [*]
    · obtain ⟨h1, h2⟩ := hx₁.entry b e t h
      exact ⟨List.mem_cons_of_mem _ h1, h2⟩
  · cases he

theorem unlockAlloc_spec {l : List Mutex} (hi : Inv cfg md s)
    (hx : Loc cfg w { x with locks := .alloc :: l } s) (hl : .alloc ∉ l) :
    wp (contract cfg md) w (unlock .alloc)
      (fun _ s' => Loc cfg w { x with locks := l } s') s := by
  refine wp_step hi hx fun s₁ hi₁ hx₁ =>
    ⟨(hx₁.locks _).mpr (by simp), ?_⟩
  intro c r s₂ hi₂ ha he
  cases he
  refine ⟨fun m => ?_, fun b e t h => ?_, hx₁.resv, hx₁.disp, hx₁.slot, hx₁.room, hx₁.apart,
    hx₁.log, hx₁.priv⟩
  · have := hx₁.locks m
    simp only [Function.update_apply]
    split
    · rename_i hm
      subst hm
      simp [hl]
    · rw [this]
      simp [*]
  · obtain ⟨h1, h2⟩ := hx₁.entry b e t h
    exact ⟨(List.mem_cons.mp h1).resolve_left (by simp [stripe]), h2⟩

/-! ## The index -/

/-- An unlocked load. -/
theorem idxLoad_spec (hi : Inv cfg md s) (hx : Loc cfg w x s) (hb : b < cfg.nblocks) :
    wp (contract cfg md) w (idxLoad .plain b) (fun e s' => ∃ new, Alien w new ∧
      Loc cfg w { x with log := x.log ++ new } s' ∧ Entry cfg (x.log ++ new) b e) s := by
  refine wp_step hi hx fun s₁ hi₁ hx₁ => ⟨hb, ?_⟩
  intro c r s₂ hi₂ ha he
  cases he
  obtain ⟨new, hl, hf, hx'⟩ := hx₁.advance
  exact ⟨new, hf, hx', by rw [← hl]; exact Inv.entry_of_log hi₁ b⟩

/-- A load under the block's stripe lock: the entry stays known. -/
theorem idxLoad_locked_spec (hi : Inv cfg md s) (hx : Loc cfg w x s) (hb : b < cfg.nblocks)
    (hl : stripe b ∈ x.locks) :
    wp (contract cfg md) w (idxLoad .plain b) (fun e s' => ∃ new, Alien w new ∧
      Loc cfg w { x with log := x.log ++ new, entry := some (b, e, (x.log ++ new).length) } s' ∧
      Entry cfg (x.log ++ new) b e) s := by
  refine wp_step hi hx fun s₁ hi₁ hx₁ => ⟨hb, ?_⟩
  intro c r s₂ hi₂ ha he
  cases he
  obtain ⟨new, hlog, hf, hx'⟩ := hx₁.advance
  refine ⟨new, hf, ⟨hx'.locks, fun b' e t h => ?_, hx'.resv, hx'.disp, hx'.slot, hx'.room, hx'.apart,
    hx'.log, hx'.priv⟩, by rw [← hlog]; exact Inv.entry_of_log hi₁ b⟩
  cases h
  refine ⟨hl, rfl, by rw [hlog], ?_⟩
  rw [hlog, List.drop_length]
  rfl

/-- The snapshot of block op `i`, kept in staging slot `sl`. -/
theorem snapshot_spec {i : ℕ} {sl : Stage} (hi : Inv cfg md s) (hx : Loc cfg w x s)
    (hb : b < cfg.nblocks) (hc : (x.slot sl).Calm) :
    wp (contract cfg md) w (idxLoad (.snapshot i) b) (fun e s' => ∃ new, Alien w new ∧
      Loc cfg w { x with
        log := x.log ++ new
        priv := { x.priv with snap := Function.update x.priv.snap i (x.log ++ new).length }
        slot := Function.update x.slot sl (.snapped b (x.log ++ new).length e) } s' ∧
      Entry cfg (x.log ++ new) b e) s := by
  refine wp_step hi hx fun s₁ hi₁ hx₁ => ⟨hb, ?_⟩
  intro c r s₂ hi₂ ha he
  cases he
  obtain ⟨new, hlog, hf, hx'⟩ := hx₁.advance
  have hs : SlotOk w sl s₁ (.snapped b (x.log ++ new).length (s₁.index b)) :=
    ⟨(hx₁.slot sl).noMove hc, by rw [hlog], fun _ => ⟨rfl, trivial⟩⟩
  refine ⟨new, hf, ?_, by rw [← hlog]; exact Inv.entry_of_log hi₁ b⟩
  have hp := (hx'.setSlot rfl hs).setPriv
    { x.priv with snap := Function.update x.priv.snap i (x.log ++ new).length }
  rw [← hlog, ← hx₁.priv] at hp ⊢
  exact hp

/-- Which mutations can hide behind an equal generation: none. -/
theorem mutations_eq_zero {log log' : List Mut} {e : ℕ} (h : entGen e = mutations b log % 2 ^ 21)
    (h' : entGen e = mutations b (log ++ log') % 2 ^ 21) (hlt : mutations b log' < 2 ^ 21) :
    mutations b log' = 0 := by
  rw [mutations_append] at h'
  omega

/-- A staging slot with the bytes that the entry of `b` names decodes to what the block shows. -/
theorem Inv.decode_loaded {e : ℕ} {f : ℕ → UInt8} (hi : Inv cfg md s) (hm : md.Stores cfg)
    (he : s.index b = e) (hz : entClen e ≠ 0)
    (hf : ∀ i < entClen e, f i = s.dev (entGrain e * 64 + i)) :
    cfg.codec.decompBlock (slice f 0 (entClen e)) = some (pageOf (disk s.log) b) := by
  subst he
  have hst : slice f 0 (entClen (s.index b)) = s.stored (s.index b) :=
    slice_congr fun i hlt => by rw [Nat.zero_add]; exact hf i hlt
  have hcon := hi.content b
  rw [State.content, if_neg hz] at hcon
  obtain ⟨p, hp⟩ := Option.ne_none_iff_exists'.mp (hi.decodes hm b hz)
  rw [hst, hp, ← hcon, hp]
  rfl

/-- **The validation of a read.** The copy in slot `sl` was made from the entry `e` that was
read when the log had length `t`. If the entry is found unchanged, the slot holds the bytes
the block has at this instant. -/
theorem recheck_spec {i t e : ℕ} {sl : Stage} (hi : Inv cfg md s) (hx : Loc cfg w x s)
    (hb : b < cfg.nblocks) (hs : x.slot sl = .loaded b t e) (ht : t ≤ x.log.length)
    (hsince : md.since ≤ t) (hsnap : x.priv.snap i = t) (hown : Alien w (x.log.drop t))
    (hgen : entGen e = mutations b (x.log.take t) % 2 ^ 21) (hz : entClen e ≠ 0) :
    wp (contract cfg md) w (idxLoad (.recheck i) b) (fun cur s' => ∃ new, Alien w new ∧
      (cur ≠ e → Loc cfg w { x with log := x.log ++ new } s') ∧
      (cur = e → ∃ bs, bs.length = entClen e ∧
        Loc cfg w { x with
          log := x.log ++ new
          slot := Function.update x.slot sl (.staged bs) } s' ∧
        (md.Reads cfg →
          cfg.codec.decompBlock bs = some (pageOf (disk (x.log ++ new)) b)))) s := by
  refine wp_step hi hx fun s₁ hi₁ hx₁ => ⟨hb, ?_⟩
  intro c r s₂ hi₂ ha he
  cases he
  obtain ⟨new, hlog, hf, hx'⟩ := hx₁.advance
  have hslot := hx₁.slot sl
  rw [hs] at hslot
  refine ⟨new, hf, fun _ => hx', fun hcur => ⟨slice (s₁.stage w sl) 0 (entClen e), slice_length,
    hx'.setSlot rfl ⟨hslot.1, fun i hlt => ?_⟩, fun hm => ?_⟩⟩
  · rw [slice_length] at hlt
    rw [slice_getD hlt, Nat.zero_add]
  · -- fewer than `2 ^ 21` mutations since the snapshot, so an equal generation means none
    have hcur : s₁.index b = e := hcur
    have hdrop : s₁.log.drop t = x.log.drop t ++ new := by
      rw [hlog, List.drop_append_of_le_length ht]
    have hlt : mutations b (s₁.log.drop t) < 2 ^ 21 := by
      rcases hm.2 with hg | hso
      · have := ha.2 hg
        rwa [hx₁.priv, hsnap] at this
      · obtain ⟨v, hv⟩ := Option.ne_none_iff_exists'.mp hso
        have hall := Inv.solo hi₁ v hv
        have hwv : w = v := ha.1 v hv
        have hnil : s₁.log.drop t = [] := by
          rw [List.eq_nil_iff_forall_not_mem]
          intro m hmem
          have hne : m.who ≠ w := by
            rw [hdrop] at hmem
            exact hown.append hf m hmem
          refine hne ((hall m ?_).trans hwv.symm)
          obtain ⟨k, rfl⟩ := Nat.exists_eq_add_of_le hsince
          rw [← List.drop_drop] at hmem
          exact List.mem_of_mem_drop hmem
        rw [hnil]
        exact Nat.two_pow_pos 21
    have hzero : mutations b (s₁.log.drop t) = 0 := by
      apply mutations_eq_zero hgen ?_ hlt
      rw [hdrop, ← List.append_assoc, List.take_append_drop, ← hlog, ← hcur]
      exact (Inv.entry hi₁ b).gen
    rw [← hlog]
    exact hi₁.decode_loaded hm.1 hcur hz (hslot.2.2 hzero).2

/-! ## The allocator -/

/-- The history with one more fault. -/
def Priv.addFault (p : Priv) (tag : Tag) (eio : Bool) : Priv :=
  { p with faults := ⟨tag, eio⟩ :: p.faults }

theorem Loc.addFault (hx : Loc cfg w x s) (tag : Tag) (eio : Bool) :
    Loc cfg w { x with priv := x.priv.addFault tag eio } (s.addFault w tag eio) := by
  have := hx.setPriv (x.priv.addFault tag eio)
  rw [← hx.priv] at this ⊢
  exact this

theorem slotAlloc_spec {tag : Tag} (hi : Inv cfg md s) (hx : Loc cfg w x s)
    (hl : .alloc ∉ x.locks) (hn : 1 ≤ n) (hn' : n ≤ 4096) :
    wp (contract cfg md) w (slotAlloc tag n) (fun g s' =>
      (g = slotNone ∧ md.alloc = false ∧
        Loc cfg w { x with priv := x.priv.addFault tag false } s') ∨
      (g ≠ slotNone ∧ x.resv g = none ∧ ∃ sz, n ≤ sz ∧
        Loc cfg w { x with resv := Function.update x.resv g (some sz) } s')) s := by
  unfold slotAlloc
  refine wp_seq hi (lockAlloc_spec hi hx hl) fun _ s₁ hi₁ hx₁ => ?_
  refine wp_seq hi₁ (P := fun r s' =>
      (r.1 = slotNone ∧ md.alloc = false ∧ Loc cfg w { x with
        locks := .alloc :: x.locks, priv := x.priv.addFault tag false } s') ∨
      (r.1 ≠ slotNone ∧ x.resv r.1 = none ∧ ∃ sz, n ≤ sz ∧ Loc cfg w { x with
        locks := .alloc :: x.locks, resv := Function.update x.resv r.1 (some sz) } s'))
    (wp_step hi₁ hx₁ fun s₁ hi₁ hx₁ => ⟨⟨(hx₁.locks _).mpr (by simp), hn, hn'⟩, ?_⟩) ?_
  · intro c r s₂ hi₂ ha he
    simp only [exec] at he
    split at he
    · rename_i hfail
      cases he
      refine .inl ⟨rfl, ?_, hx₁.addFault tag false⟩
      by_contra hal
      obtain ⟨h1, h2⟩ := ha (by simpa using hal)
      rcases hfail with h | h
      · rw [h1] at h
        cases h
      · exact h2 h
    · rename_i hne
      cases he
      rcases Alloc.slotAlloc_spec hi₁.alloc hn hn' with ⟨hr, -⟩ | hok
      · exact absurd (.inr (by rw [hr])) hne
      · have hnone : x.resv (Alloc.slotAlloc cfg.heap s₁.alloc n).1.1 = none := by
          by_contra hsome
          obtain ⟨sz, hsz⟩ := Option.ne_none_iff_exists'.mp hsome
          exact hok.fresh (hi₁.resv_live (hx₁.mem_resv hsz))
        generalize Alloc.slotAlloc cfg.heap s₁.alloc n = r at *
        refine .inr ⟨hok.ne_none, hnone, r.1.2, hok.size_ge, hx₁.locks, hx₁.entry, fun g' sz => ?_,
          hx₁.disp, hx₁.slot, fun sl g bs ht => ?_, hx₁.apart, hx₁.log, hx₁.priv⟩
        · have hg' := hx₁.resv g' sz
          simp only [Function.update_apply, List.mem_cons, if_true]
          by_cases hgg : g' = r.1.1
          · simp only [hgg, if_true, true_or, true_and, Option.some.injEq]
            rw [hok.size_eq]
          · simp only [hgg, if_false, false_or]
            rw [hg']
            exact and_congr_right fun hm => by rw [hok.sizes g' (hi₁.resv_live hm)]
        · obtain ⟨sz, hsz, hle⟩ := hx₁.room sl g bs ht
          refine ⟨sz, ?_, hle⟩
          simp only at hsz ⊢
          rw [Function.update_of_ne]
          · exact hsz
          · rintro rfl
            rw [hnone] at hsz
            cases hsz
  · rintro r s₂ hi₂ (⟨h1, h2, hx₂⟩ | ⟨h1, h2, sz, h3, hx₂⟩)
    · refine wp_seq hi₂ (unlockAlloc_spec (l := x.locks) (x := { x with
        priv := x.priv.addFault tag false }) hi₂ hx₂ hl) fun _ s₃ _ hx₃ => ?_
      exact .inl ⟨h1, h2, hx₃⟩
    · refine wp_seq hi₂ (unlockAlloc_spec (l := x.locks) (x := { x with
        resv := Function.update x.resv r.1 (some sz) }) hi₂ hx₂ hl) fun _ s₃ _ hx₃ => ?_
      exact .inr ⟨h1, h2, sz, h3, hx₃⟩

/-- `slot_free` of an own reservation or of a displaced slot. -/
theorem slotFree_spec (hi : Inv cfg md s) (hx : Loc cfg w x s) (hl : .alloc ∉ x.locks)
    (hc : x.Calm) (hg : x.resv g ≠ none ∨ g ∈ x.disp)
    (ht : ∀ sl bs, (x.slot sl).target ≠ some (g, bs)) :
    wp (contract cfg md) w (slotFree g) (fun _ s' => Loc cfg w { x with
      resv := Function.update x.resv g none, disp := x.disp.erase g } s') s := by
  unfold slotFree
  refine wp_seq hi (lockAlloc_spec hi hx hl) fun _ s₁ hi₁ hx₁ => ?_
  refine wp_seq hi₁ (P := fun _ s' => Loc cfg w { x with
      locks := .alloc :: x.locks, resv := Function.update x.resv g none, disp := x.disp.erase g } s')
    (wp_step hi₁ hx₁ fun s₁ hi₁ hx₁ => ?_)
    fun _ s₂ hi₂ hx₂ => unlockAlloc_spec (l := x.locks) (x := { x with
      resv := Function.update x.resv g none, disp := x.disp.erase g }) hi₂ hx₂ hl
  have hown : g ∈ s₁.resv w ∨ g ∈ s₁.disp w := by
    rcases hg with hg | hg
    · obtain ⟨sz, hsz⟩ := Option.ne_none_iff_exists'.mp hg
      exact .inl (hx₁.mem_resv hsz)
    · exact .inr (by rw [hx₁.disp]; exact hg)
  refine ⟨⟨(hx₁.locks _).mpr (by simp), hx₁.pend_nil hc, hown⟩, ?_⟩
  intro c r s₂ hi₂ ha he
  cases he
  have hok := Alloc.slotFree_live hi₁.alloc (hown.elim hi₁.resv_live hi₁.disp_live)
  refine ⟨hx₁.locks, hx₁.entry, fun g' sz => ?_, ?_, hx₁.slot, fun sl g' bs h => ?_, hx₁.apart,
    hx₁.log, hx₁.priv⟩
  · have hg' := hx₁.resv g' sz
    simp only [Function.update_apply, if_true]
    rw [(hi₁.resv_nodup w).mem_erase_iff]
    by_cases hgg : g' = g
    · simp [hgg]
    · simp only [hgg, if_false, ne_eq, not_false_eq_true, true_and]
      rw [hg']
      exact and_congr_right fun hm => by
        rw [hok.sizes g' ((hok.live g').mpr ⟨hi₁.resv_live hm, hgg⟩)]
  · show Function.update s₁.disp w ((s₁.disp w).erase g) w = _
    rw [Function.update_self, hx₁.disp]
  · obtain ⟨sz, hsz, hle⟩ := hx₁.room sl g' bs h
    refine ⟨sz, ?_, hle⟩
    show Function.update x.resv g none g' = some sz
    rw [Function.update_of_ne]
    · exact hsz
    · rintro rfl
      exact ht sl bs h

/-! ## Staging and copies -/

theorem stageWrite_spec {sl : Stage} {bs : List UInt8} (hi : Inv cfg md s) (hx : Loc cfg w x s)
    (hsl : sl.Ok cfg) (hc : (x.slot sl).Calm) :
    wp (contract cfg md) w (stageWrite sl bs) (fun _ s' => Loc cfg w { x with
      slot := Function.update x.slot sl (.staged bs) } s') s := by
  refine wp_step hi hx fun s₁ hi₁ hx₁ => ⟨hsl, ?_⟩
  intro c r s₂ hi₂ ha he
  cases he
  set s₂ : State := { s₁ with
    stage := Function.update s₁.stage w
      (Function.update (s₁.stage w) sl (splice (s₁.stage w sl) 0 bs)) } with hs₂
  have hstage : ∀ sl', sl' ≠ sl → s₂.stage w sl' = s₁.stage w sl' := by
    intro sl' hne
    rw [hs₂]
    simp only [Function.update_self, Function.update_of_ne hne]
  have hother : ∀ sl', sl' ≠ sl → SlotOk w sl' s₂ (x.slot sl') := by
    intro sl' hne
    have hs := hx₁.slot sl'
    cases hst : x.slot sl' with
    | idle | sent g bs | snapped b t e =>
        rw [hst] at hs
        exact hs
    | staged bs | up g bs | down b t e | loaded b t e =>
        rw [hst] at hs
        simp only [SlotOk, Begins, hstage sl' hne]
        exact hs
  have hnew : SlotOk w sl s₂ (.staged bs) := by
    refine ⟨(hx₁.slot sl).noMove hc, fun i hlt => ?_⟩
    rw [hs₂]
    simp only [Function.update_self]
    have := splice_at (f := s₁.stage w sl) (a := 0) hlt
    rwa [Nat.zero_add] at this
  have hx₂ : Loc cfg w { x with slot := Function.update x.slot sl .idle } s₁ :=
    hx₁.setSlot rfl ((hx₁.slot sl).noMove hc)
  have hbase : Loc cfg w { x with slot := Function.update x.slot sl .idle } s₂ := by
    refine ⟨hx₂.locks, hx₂.entry, hx₂.resv, hx₂.disp, fun sl' => ?_, hx₂.room, hx₂.apart, hx₂.log,
      hx₂.priv⟩
    show SlotOk w sl' s₂ (Function.update x.slot sl .idle sl')
    by_cases hsl : sl' = sl
    · subst hsl
      rw [Function.update_self]
      exact hnew.1
    · rw [Function.update_of_ne hsl]
      exact hother sl' hsl
  have := hbase.setSlot rfl hnew
  rwa [show Function.update (Function.update x.slot sl .idle) sl (.staged bs) =
    Function.update x.slot sl (.staged bs) from Function.update_idem ..] at this

theorem stageRead_spec {sl : Stage} {bs : List UInt8} (hi : Inv cfg md s) (hx : Loc cfg w x s)
    (hsl : sl.Ok cfg) (hs : x.slot sl = .staged bs) (hn : bs.length = n) :
    wp (contract cfg md) w (stageRead sl n) (fun r s' => r = bs ∧ Loc cfg w x s') s := by
  refine wp_step hi hx fun s₁ hi₁ hx₁ => ⟨hsl, ?_⟩
  intro c r s₂ hi₂ ha he
  cases he
  have h := hx₁.slot sl
  rw [hs] at h
  exact ⟨eq_slice hn fun i hlt => by rw [Nat.zero_add]; exact h.2 i (by omega), hx₁⟩

/-- A slot that is not the one a copy is queued for. -/
theorem SlotOk.launch_of_ne {dir : Dir} {sl sl' : Stage} {st : SlotSt} (hs : SlotOk w sl' s st)
    (hne : sl' ≠ sl) : SlotOk w sl' (s.launch w dir sl g n) st := by
  have hpend : ∀ mv, mv.slot = sl' → (mv ∈ (s.launch w dir sl g n).pend w ↔ mv ∈ s.pend w) := by
    intro mv hmv
    show mv ∈ Function.update s.pend w _ w ↔ _
    rw [Function.update_self, List.mem_append]
    constructor
    · rintro (h | h)
      · exact h
      · obtain ⟨i, -, rfl⟩ := List.mem_map.mp h
        exact absurd hmv.symm hne
    · exact .inl
  have hno : NoMove w sl' s → NoMove w sl' (s.launch w dir sl g n) := fun h mv hm he =>
    h mv ((hpend mv he).mp hm) he
  cases st with
  | idle => exact hno hs
  | staged bs => exact ⟨hno hs.1, hs.2⟩
  | up g' bs =>
      refine ⟨fun mv hm he => hs.1 mv ((hpend mv he).mp hm) he, hs.2.1, fun i hlt => ?_⟩
      exact (hs.2.2 i hlt).imp_right (hpend _ rfl).mpr
  | sent g' bs => exact ⟨hno hs.1, hs.2⟩
  | snapped b t e => exact ⟨hno hs.1, hs.2⟩
  | down b t e =>
      refine ⟨fun mv hm he => hs.1 mv ((hpend mv he).mp hm) he, hs.2.1, fun hm => ?_⟩
      obtain ⟨h1, h2⟩ := hs.2.2 hm
      exact ⟨h1, fun i hlt => (h2 i hlt).imp_right (hpend _ rfl).mpr⟩
  | loaded b t e => exact ⟨hno hs.1, hs.2⟩

/-- The moves that queueing a copy adds to a slot without any. -/
theorem mem_launch {dir : Dir} {sl : Stage} (hno : NoMove w sl s) {mv : Move} (hsl : mv.slot = sl) :
    mv ∈ (s.launch w dir sl g n).pend w ↔ ∃ i < n, mv = ⟨dir, g * 64 + i, sl, i⟩ := by
  show mv ∈ Function.update s.pend w _ w ↔ _
  rw [Function.update_self, List.mem_append]
  constructor
  · rintro (h | h)
    · exact absurd hsl (hno mv h)
    · obtain ⟨i, hi, rfl⟩ := List.mem_map.mp h
      exact ⟨i, List.mem_range.mp hi, rfl⟩
  · rintro ⟨i, hi, rfl⟩
    exact .inr (List.mem_map.mpr ⟨i, List.mem_range.mpr hi, rfl⟩)

theorem htod_spec {tag : Tag} {sl : Stage} {bs : List UInt8} {sz : ℕ} (hi : Inv cfg md s)
    (hx : Loc cfg w x s) (hsl : sl.Ok cfg) (hs : x.slot sl = .staged bs) (hn : bs.length = n)
    (hg : x.resv g = some sz) (hsz : n ≤ sz)
    (ht : ∀ sl bs, (x.slot sl).target ≠ some (g, bs)) :
    wp (contract cfg md) w (htod tag sl g n) (fun ok s' =>
      (ok = true ∧ Loc cfg w { x with slot := Function.update x.slot sl (.up g bs) } s') ∨
      (ok = false ∧ md.launch = false ∧ (md.batch = true → sl = .cscratch) ∧
        Loc cfg w { x with priv := x.priv.addFault tag true } s')) s := by
  refine wp_step hi hx fun s₁ hi₁ hx₁ => ⟨?_, ?_⟩
  · obtain ⟨h1, rfl⟩ := (hx₁.resv g sz).mp hg
    exact ⟨hsl, h1, hsz⟩
  intro c r s₂ hi₂ ha he
  simp only [exec] at he
  have h := hx₁.slot sl
  rw [hs] at h
  split at he
  · rename_i hfail
    cases he
    refine .inr ⟨rfl, ?_, fun hb => ?_, hx₁.addFault tag true⟩
    · by_contra hl
      have := ha.1 (by simpa using hl)
      rw [hfail] at this
      cases this
    · by_contra hne
      have := ha.2 hb hne
      rw [hfail] at this
      cases this
  · cases he
    refine .inl ⟨rfl, hx₁.locks, hx₁.entry, hx₁.resv, hx₁.disp, fun sl' => ?_, fun sl' g' bs' h' => ?_,
      fun sl₁ sl₂ g' b₁ b₂ h₁ h₂ => ?_, hx₁.log, hx₁.priv⟩
    · show SlotOk w sl' _ (Function.update x.slot sl (.up g bs) sl')
      by_cases hsl : sl' = sl
      · subst hsl
        rw [Function.update_self]
        refine ⟨fun mv hm hsl => ?_, h.2, fun i hlt => .inr ?_⟩
        · obtain ⟨i, hlt, rfl⟩ := (mem_launch h.1 hsl).mp hm
          exact ⟨rfl, rfl, by simp only; omega⟩
        · exact (mem_launch h.1 rfl).mpr ⟨i, by omega, rfl⟩
      · rw [Function.update_of_ne hsl]
        exact (hx₁.slot sl').launch_of_ne hsl
    · simp only [Function.update_apply] at h'
      split at h'
      · cases h'
        exact ⟨sz, hg, by omega⟩
      · exact hx₁.room sl' g' bs' h'
    · simp only [Function.update_apply] at h₁ h₂
      split at h₁ <;> split at h₂
      · simp [*]
      · cases h₁
        exact absurd h₂ (ht _ _)
      · cases h₂
        exact absurd h₁ (ht _ _)
      · exact hx₁.apart _ _ _ _ _ h₁ h₂

/-- The copy that a snapshot names: it stays inside the heap even when the entry is stale. -/
theorem dtoh_spec {tag : Tag} {sl : Stage} {t e : ℕ} (hi : Inv cfg md s)
    (hx : Loc cfg w x s) (hsl : sl.Ok cfg) (hs : x.slot sl = .snapped b t e)
    (hheap : entGrain e * 64 + entClen e ≤ cfg.heap.nExtents * cfg.heap.extentSize) :
    wp (contract cfg md) w (dtoh tag sl (entGrain e) (entClen e)) (fun ok s' =>
      (ok = true ∧ Loc cfg w { x with slot := Function.update x.slot sl (.down b t e) } s') ∨
      (ok = false ∧ md.launch = false ∧
        Loc cfg w { x with priv := x.priv.addFault tag true } s')) s := by
  refine wp_step hi hx fun s₁ hi₁ hx₁ => ⟨⟨hsl, hheap⟩, ?_⟩
  intro c r s₂ hi₂ ha he
  simp only [exec] at he
  have h := hx₁.slot sl
  rw [hs] at h
  split at he
  · rename_i hfail
    cases he
    refine .inr ⟨rfl, ?_, hx₁.addFault tag true⟩
    by_contra hl
    have := ha (by simpa using hl)
    rw [hfail] at this
    cases this
  · cases he
    have hbase : Loc cfg w { x with slot := Function.update x.slot sl .idle } s₁ :=
      hx₁.setSlot rfl h.1
    refine .inl ⟨rfl, hx₁.locks, hx₁.entry, hx₁.resv, hx₁.disp, fun sl' => ?_, fun sl' g' bs' h' => ?_,
      fun sl₁ sl₂ g' b₁ b₂ h₁ h₂ => ?_, hx₁.log, hx₁.priv⟩
    · show SlotOk w sl' _ (Function.update x.slot sl (.down b t e) sl')
      by_cases hsl : sl' = sl
      · subst hsl
        rw [Function.update_self]
        refine ⟨fun mv hm hsl => ?_, h.2.1, fun hm => ⟨(h.2.2 hm).1, fun i hlt => .inr ?_⟩⟩
        · obtain ⟨i, hlt, rfl⟩ := (mem_launch h.1 hsl).mp hm
          exact ⟨rfl, rfl⟩
        · exact (mem_launch h.1 rfl).mpr ⟨i, hlt, rfl⟩
      · rw [Function.update_of_ne hsl]
        exact (hx₁.slot sl').launch_of_ne hsl
    · simp only [Function.update_apply] at h'
      split at h'
      · cases h'
      · exact hx₁.room sl' g' bs' h'
    · simp only [Function.update_apply] at h₁ h₂
      split at h₁ <;> split at h₂
      · simp [*]
      · cases h₁
      · cases h₂
      · exact hx₁.apart _ _ _ _ _ h₁ h₂

theorem SlotSt.synced_target {st : SlotSt} {ok : Bool} {q : ℕ × List UInt8}
    (h : (st.synced ok).target = some q) : st.target = some q := by
  cases st <;> cases ok <;> first | exact h | cases h

theorem SlotSt.synced_calm (st : SlotSt) (ok : Bool) : (st.synced ok).Calm := by
  cases st <;> cases ok <;> trivial

/-- With nothing queued any more, a slot is in the state that the synchronize left. -/
theorem SlotOk.synced {sl : Stage} {st : SlotSt} (hs : SlotOk w sl s st) (hp : s.pend w = []) :
    SlotOk w sl s (st.synced true) := by
  have hno : NoMove w sl s := by
    intro mv hmv
    rw [hp] at hmv
    cases hmv
  cases st with
  | idle | staged bs | sent g bs | snapped b t e | loaded b t e => exact hs
  | up g bs =>
      refine ⟨hno, fun i hlt => (hs.2.2 i hlt).resolve_right fun h => ?_⟩
      rw [hp] at h
      cases h
  | down b t e =>
      refine ⟨hno, hs.2.1, fun hm => ⟨(hs.2.2 hm).1, fun i hlt => ?_⟩⟩
      refine ((hs.2.2 hm).2 i hlt).resolve_right fun h => ?_
      rw [hp] at h
      cases h

/-- Copies that a failed synchronize dropped leave their slots idle. -/
theorem SlotOk.dropped {sl : Stage} {st : SlotSt} (hs : SlotOk w sl s st) :
    SlotOk w sl { s with pend := Function.update s.pend w [] } (st.synced false) := by
  have hno : NoMove w sl { s with pend := Function.update s.pend w [] } := by
    intro mv hmv
    simp only [Function.update_self] at hmv
    cases hmv
  cases st with
  | idle | up g bs | down b t e => exact hno
  | staged bs | sent g bs | snapped b t e | loaded b t e => exact ⟨hno, hs.2⟩

theorem sync_spec (hi : Inv cfg md s) (hx : Loc cfg w x s) :
    wp (contract cfg md) w sync (fun ok s' => (md.sync = true → ok = true) ∧
      Loc cfg w { x with slot := fun sl => (x.slot sl).synced ok } s') s := by
  refine wp_step hi hx fun s₁ hi₁ hx₁ => ⟨trivial, ?_⟩
  intro c r s₂ hi₂ ha he
  have hroom : ∀ ok sl g bs, ((x.slot sl).synced ok).target = some (g, bs) →
      ∃ sz, x.resv g = some sz ∧ bs.length ≤ sz := fun ok sl g bs h =>
    hx₁.room sl g bs (SlotSt.synced_target h)
  have hapart : ∀ ok sl sl' g bs bs', ((x.slot sl).synced ok).target = some (g, bs) →
      ((x.slot sl').synced ok).target = some (g, bs') → sl = sl' := fun ok sl sl' g bs bs' h h' =>
    hx₁.apart _ _ _ _ _ (SlotSt.synced_target h) (SlotSt.synced_target h')
  simp only [exec] at he
  split at he
  · rename_i hfail
    cases he
    refine ⟨fun hm => ?_, hx₁.locks, hx₁.entry, hx₁.resv, hx₁.disp, fun sl => (hx₁.slot sl).dropped,
      hroom false, hapart false, hx₁.log, hx₁.priv⟩
    have := ha hm
    rw [hfail] at this
    cases this
  · cases he
    obtain ⟨⟨-, hx₂⟩, hp⟩ := State.moves_induct
      (P := fun s => Inv cfg md s ∧ Loc cfg w x s)
      (fun s mv hmv h => ⟨h.1.move hmv, h.2.move h.1 hmv⟩) _ s₁ rfl ⟨hi₁, hx₁⟩
    exact ⟨fun _ => rfl, hx₂.locks, hx₂.entry, hx₂.resv, hx₂.disp,
      fun sl => (hx₂.slot sl).synced hp, hroom true, hapart true, hx₂.log, hx₂.priv⟩

/-! ## Publishing -/

/-- The slots with the copies to grain `g` forgotten. -/
def Local.forget (x : Local) (g : ℕ) (sl : Stage) : SlotSt :=
  if (x.slot sl).target.map Prod.fst = some g then .idle else x.slot sl

theorem forget_target {sl : Stage} {q : ℕ × List UInt8} (h : (x.forget g sl).target = some q) :
    (x.slot sl).target = some q ∧ q.1 ≠ g := by
  unfold Local.forget at h
  split at h
  · cases h
  · rename_i hne
    refine ⟨h, fun hq => hne ?_⟩
    rw [h, ← hq]
    rfl

theorem forget_calm (hc : x.Calm) (sl : Stage) : (x.forget g sl).Calm := by
  unfold Local.forget
  split
  · trivial
  · exact hc sl

/-- A store makes the copies of its block stale and leaves every other slot alone. -/
theorem SlotOk.store {req e : ℕ} {sl : Stage} {st : SlotSt} (hs : SlotOk w sl s st)
    (hc : st.Calm) : SlotOk w sl (s.store cfg w req b e) st := by
  -- after a store to its own block the condition of a snapshot fails, else nothing changed
  have hun : ∀ {b' t e' : ℕ} {P P' : Prop}, Unless b' t e' s P → (P → P') →
      Unless b' t e' (s.store cfg w req b e) P' := by
    intro b' t e' P P' h hPP
    refine h.mono ⟨[_], rfl⟩ fun hm he hP => ⟨?_, hPP hP⟩
    refine (Function.update_of_ne ?_ _ _).trans he
    rintro rfl
    have hm : mutations b' ((s.log ++ [_]).drop t) = 0 := hm
    rw [List.drop_append_of_le_length h.1, mutations_append, mutations_single, if_pos rfl] at hm
    omega
  cases st with
  | idle | staged bs | sent g bs => exact hs
  | snapped b' t e' => exact ⟨hs.1, hun hs.2 id⟩
  | loaded b' t e' => exact ⟨hs.1, hun hs.2 id⟩
  | up g bs | down b' t e' => exact hc.elim

/-- What a worker knows after it has stored the entry `e` for the block it has locked. -/
def Local.stored (x : Local) (g old e : ℕ) (log : List Mut) : Local :=
  { x with
    entry := none
    resv := Function.update x.resv g none
    disp := if entClen old = 0 then x.disp else entGrain old :: x.disp
    slot := x.forget g
    log := log
    priv := x.priv.owe old e }

/-- Publishing the reservation `g`: the new page of the block is what the complete copy
decompresses to. -/
theorem publish_spec {req old t sz : ℕ} {p : Page} (hi : Inv cfg md s) (hx : Loc cfg w x s)
    (hb : b < cfg.nblocks) (hent : x.entry = some (b, old, t)) (hc : x.Calm)
    (hbusy : x.priv.busy = true) (hset : x.priv.Settled) (hg : x.resv g = some sz) (hn : n = (cfg.codec.compBlock p).length)
    (hsz : n ≤ sz) (hp : md.Stores cfg → ∃ sl, x.slot sl = .sent g (cfg.codec.compBlock p)) :
    wp (contract cfg md) w (idxStore req b (entMake g n (entGen old + 1))) (fun _ s' =>
      ∃ e new page, entClen e = n ∧ Alien w new ∧ mutations b ((x.log ++ new).drop t) = 0 ∧
        (md.Stores cfg → page = p) ∧
        Loc cfg w (x.stored g old e (x.log ++ new ++ [⟨w, req, b, page⟩])) s') s := by
  refine wp_step hi hx fun s₁ hi₁ hx₁ => ?_
  obtain ⟨hl, hidx, -, hmut⟩ := hx₁.entry b old t hent
  obtain ⟨hmem, rfl⟩ := (hx₁.resv g sz).mp hg
  have hlen := cfg.codec.compBlock_length p
  have hbytes : md.Stores cfg → slice s₁.dev (g * 64) n = cfg.codec.compBlock p := by
    intro hm
    obtain ⟨sl, hsl⟩ := hp hm
    have hs := hx₁.slot sl
    rw [hsl] at hs
    exact eq_slice hn.symm fun i hlt => hs.2 i (by omega)
  refine ⟨⟨(hx₁.locks _).mpr hl, hb, hx₁.pend_nil hc, by rw [hx₁.priv, hbusy],
    by rw [hx₁.priv]; exact hset, g, n, by rw [hidx],
    .inr ⟨hmem, hsz, p, hn, hbytes⟩⟩, ?_⟩
  intro c r s₂ hi₂ ha he
  cases he
  obtain ⟨ls, hwf⟩ := hi₁.alloc.wf
  have hg30 : g < 2 ^ 30 := hwf.live_lt (hi₁.resv_live hmem)
  have hgr : entGrain (entMake g n (entGen old + 1)) = g := entGrain_make hg30 (by omega)
  have hcl : entClen (entMake g n (entGen old + 1)) = n := entClen_make hg30 (by omega)
  obtain ⟨new, hlog, hf⟩ := hx₁.log
  refine ⟨_, new, _, hcl, hf, by rwa [← hlog], fun hm => ?_, hx₁.locks, fun _ _ _ h => (by cases h),
    fun g' sz' => ?_, ?_, fun sl => ?_, fun sl g' bs h => ?_, fun sl sl' g' bs bs' h h' => ?_,
    ⟨[], by rw [List.append_nil, ← hlog]; rfl, Foreign.nil⟩, ?_⟩
  · simp only [State.content, State.stored, Function.update_self, hgr, hcl, hbytes hm,
      if_neg (show n ≠ 0 by omega), Codec.decomp_comp hm.2, Option.getD_some]
  · show Function.update x.resv g none g' = some sz' ↔ g' ∈ (if entClen _ = 0 then s₁.resv
      else Function.update s₁.resv w ((s₁.resv w).erase (entGrain _))) w ∧ _
    rw [hgr, hcl, if_neg (by omega), Function.update_self, (hi₁.resv_nodup w).mem_erase_iff,
      Function.update_apply]
    by_cases hgg : g' = g
    · simp [hgg]
    · simp only [hgg, if_false, ne_eq, not_false_eq_true, true_and]
      exact hx₁.resv g' sz'
  · show (if entClen (s₁.index b) = 0 then s₁.disp
      else Function.update s₁.disp w (entGrain (s₁.index b) :: s₁.disp w)) w = _
    rw [hidx]
    simp only [Local.stored]
    split
    · exact hx₁.disp
    · rw [Function.update_self, hx₁.disp]
  · show SlotOk w sl _ (x.forget g sl)
    refine SlotOk.store ?_ (forget_calm hc sl)
    unfold Local.forget
    split
    · exact (hx₁.slot sl).noMove (hc sl)
    · exact hx₁.slot sl
  · obtain ⟨h1, h2⟩ := forget_target h
    obtain ⟨sz', hsz', hle⟩ := hx₁.room sl g' bs h1
    exact ⟨sz', by rw [← hsz']; exact Function.update_of_ne h2 _ _, hle⟩
  · exact hx₁.apart _ _ _ _ _ (forget_target h).1 (forget_target h').1
  · show Function.update s₁.priv w ((s₁.priv w).owe (s₁.index b) _) w = x.priv.owe old _
    rw [Function.update_self, hidx, hx₁.priv]

/-- Storing an unwritten entry: the block reads as zeros from now on. -/
theorem trim_spec {req old t : ℕ} (hi : Inv cfg md s) (hx : Loc cfg w x s)
    (hb : b < cfg.nblocks) (hent : x.entry = some (b, old, t)) (hc : x.Calm)
    (hbusy : x.priv.busy = true) (hset : x.priv.Settled) :
    wp (contract cfg md) w (idxStore req b (entMake 0 0 (entGen old + 1))) (fun _ s' =>
      ∃ e new, entClen e = 0 ∧ Alien w new ∧ Loc cfg w { x with
        entry := none
        disp := if entClen old = 0 then x.disp else entGrain old :: x.disp
        log := x.log ++ new ++ [⟨w, req, b, Page.zero⟩]
        priv := x.priv.owe old e } s') s := by
  refine wp_step hi hx fun s₁ hi₁ hx₁ => ?_
  obtain ⟨hl, hidx, -, -⟩ := hx₁.entry b old t hent
  refine ⟨⟨(hx₁.locks _).mpr hl, hb, hx₁.pend_nil hc, by rw [hx₁.priv, hbusy],
    by rw [hx₁.priv]; exact hset, 0, 0, by rw [hidx],
    .inl ⟨rfl, rfl⟩⟩, ?_⟩
  intro c r s₂ hi₂ ha he
  cases he
  have hcl : entClen (entMake 0 0 (entGen old + 1)) = 0 := entClen_make (by decide) (by decide)
  have hpage : State.content cfg { s₁ with
      index := Function.update s₁.index b (entMake 0 0 (entGen old + 1)) } b = Page.zero := by
    simp only [State.content, Function.update_self, hcl, if_true]
  obtain ⟨new, hlog, hf⟩ := hx₁.log
  refine ⟨_, new, hcl, hf, hx₁.locks, fun _ _ _ h => (by cases h), fun g' sz' => ?_, ?_,
    fun sl => (hx₁.slot sl).store (hc sl), hx₁.room, hx₁.apart,
    ⟨[], ?_, Foreign.nil⟩, ?_⟩
  · show x.resv g' = some sz' ↔ g' ∈ (if entClen _ = 0 then s₁.resv
      else Function.update s₁.resv w ((s₁.resv w).erase (entGrain _))) w ∧ _
    rw [hcl, if_pos rfl]
    exact hx₁.resv g' sz'
  · show (if entClen (s₁.index b) = 0 then s₁.disp
      else Function.update s₁.disp w (entGrain (s₁.index b) :: s₁.disp w)) w = _
    rw [hidx]
    simp only
    split
    · exact hx₁.disp
    · rw [Function.update_self, hx₁.disp]
  · show s₁.log ++ [_] = _
    rw [List.append_nil, ← hlog]
    exact congrArg (fun p => s₁.log ++ [⟨w, req, b, p⟩]) hpage
  · show Function.update s₁.priv w ((s₁.priv w).owe (s₁.index b) _) w = x.priv.owe old _
    rw [Function.update_self, hidx, hx₁.priv]

/-! ## Counters, the socket and events -/

/-- An action that needs nothing and changes nothing a worker knows. -/
theorem inert_spec {o : Op} (hi : Inv cfg md s) (hx : Loc cfg w x s)
    (hp : ∀ s₁, Inv cfg md s₁ → Loc cfg w x s₁ → Pre cfg md w o s₁)
    (he : ∀ c s₁ r s₂, exec cfg w o c s₁ = some (r, s₂) →
      s₂ = { s₁ with ctr := s₂.ctr, running := s₂.running }) :
    wp (contract cfg md) w (Prog.call (σ := sig) o) (fun _ s' => Loc cfg w x s') s := by
  refine wp_step hi hx fun s₁ hi₁ hx₁ => ⟨hp s₁ hi₁ hx₁, fun c r s₂ hi₂ ha hex => ?_⟩
  rw [he c s₁ r s₂ hex]
  exact ⟨hx₁.locks, hx₁.entry, hx₁.resv, hx₁.disp, hx₁.slot, hx₁.room, hx₁.apart, hx₁.log, hx₁.priv⟩

/-- The own history changes, and nothing else that the worker knows. -/
theorem priv_spec {o : Op} {f : Priv → Priv} (hi : Inv cfg md s) (hx : Loc cfg w x s)
    (hp : ∀ s₁, Inv cfg md s₁ → Loc cfg w x s₁ → Pre cfg md w o s₁)
    (he : ∀ c s₁ r s₂, exec cfg w o c s₁ = some (r, s₂) → s₂ = { s₁ with
      ctr := s₂.ctr, priv := Function.update s₁.priv w (f (s₁.priv w)) }) :
    wp (contract cfg md) w (Prog.call (σ := sig) o)
      (fun _ s' => Loc cfg w { x with priv := f x.priv } s') s := by
  refine wp_step hi hx fun s₁ hi₁ hx₁ => ⟨hp s₁ hi₁ hx₁, fun c r s₂ hi₂ ha hex => ?_⟩
  rw [he c s₁ r s₂ hex]
  refine ⟨hx₁.locks, hx₁.entry, hx₁.resv, hx₁.disp, hx₁.slot, hx₁.room, hx₁.apart, hx₁.log, ?_⟩
  show Function.update s₁.priv w (f (s₁.priv w)) w = f x.priv
  rw [Function.update_self, hx₁.priv]

theorem ctrAdd_spec {c : Counter} (hi : Inv cfg md s) (hx : Loc cfg w x s)
    (hb : c.kept = true → x.priv.busy = true ∧ x.priv.subs c = 0 ∧ x.priv.owed c = n) :
    wp (contract cfg md) w (ctrAdd c n)
      (fun _ s' => Loc cfg w { x with priv := x.priv.pay c n } s') s :=
  priv_spec (f := fun p => p.pay c n) hi hx (fun _ _ hx₁ hc => by rw [hx₁.priv]; exact hb hc)
    fun _ _ _ _ h => by cases h; rfl

theorem ctrSub_spec {c : Counter} (hi : Inv cfg md s) (hx : Loc cfg w x s)
    (hb : c.kept = true → x.priv.busy = true ∧ x.priv.subs c = n) :
    wp (contract cfg md) w (ctrSub c n)
      (fun _ s' => Loc cfg w { x with priv := x.priv.pay c (-n) } s') s :=
  priv_spec (f := fun p => p.pay c (-n)) hi hx (fun _ _ hx₁ hc => by rw [hx₁.priv]; exact hb hc)
    fun _ _ _ _ h => by cases h; rfl

/-- A counter that does not follow the index. -/
theorem count_spec {c : Counter} (hi : Inv cfg md s) (hx : Loc cfg w x s) (hc : c.kept = false) :
    wp (contract cfg md) w (ctrAdd c n) (fun _ s' => Loc cfg w x s') s := by
  refine wp_mono hi (ctrAdd_spec hi hx fun h => ?_) fun _ s' _ hx' => ?_
  · rw [hc] at h
    cases h
  · rwa [Priv.pay, if_neg (by simp [hc])] at hx'

theorem enter_spec (hi : Inv cfg md s) (hx : Loc cfg w x s) :
    wp (contract cfg md) w (event .enter)
      (fun _ s' => Loc cfg w { x with priv := { x.priv with busy := true } } s') s :=
  priv_spec (f := fun p => { p with busy := true }) hi hx (fun _ _ _ => trivial)
    fun _ _ _ _ h => by cases h; rfl

theorem leave_spec (hi : Inv cfg md s) (hx : Loc cfg w x s) (ho : x.priv.Settled) :
    wp (contract cfg md) w (event .leave)
      (fun _ s' => Loc cfg w { x with priv := { x.priv with busy := false } } s') s :=
  priv_spec (f := fun p => { p with busy := false }) hi hx
    (fun _ _ hx₁ => by rw [← hx₁.priv] at ho; exact ho) fun _ _ _ _ h => by cases h; rfl

theorem corrupt_spec {tag : Tag} (hi : Inv cfg md s) (hx : Loc cfg w x s) :
    wp (contract cfg md) w (event (.corrupt tag))
      (fun _ s' => Loc cfg w { x with priv := x.priv.addFault tag true } s') s :=
  priv_spec (f := fun p => p.addFault tag true) hi hx (fun _ _ _ => trivial)
    fun _ _ _ _ h => by cases h; rfl

theorem access_spec {a : Access} (hi : Inv cfg md s) (hx : Loc cfg w x s) (ha : a.Ok cfg) :
    wp (contract cfg md) w (access a) (fun _ s' => Loc cfg w x s') s :=
  inert_spec hi hx (fun _ _ _ => ha) fun _ _ _ _ h => by cases h; rfl

theorem running_spec (hi : Inv cfg md s) (hx : Loc cfg w x s) (hr : x.Rest md) :
    wp (contract cfg md) w running (fun _ s' => Loc cfg w x s') s :=
  inert_spec hi hx (fun _ _ hx₁ => hx₁.quiet hr) fun _ _ _ _ h => by cases h; rfl

theorem readDone_spec {i : ℕ} {p : Page} {err : Err} (hi : Inv cfg md s) (hx : Loc cfg w x s)
    (hp : ∀ s₁, Inv cfg md s₁ → Loc cfg w x s₁ → EventOk cfg md w s₁ (.readDone i b p err)) :
    wp (contract cfg md) w (event (.readDone i b p err)) (fun _ s' => Loc cfg w x s') s :=
  inert_spec hi hx hp fun _ _ _ _ h => by cases h; rfl

theorem reply_spec {i : ℕ} {r : Req} {err : Err} (hi : Inv cfg md s) (hx : Loc cfg w x s)
    (hp : ∀ s₁, Inv cfg md s₁ → Loc cfg w x s₁ → EventOk cfg md w s₁ (.reply i r err)) :
    wp (contract cfg md) w (event (.reply i r err)) (fun _ s' => Loc cfg w x s') s :=
  inert_spec hi hx hp fun _ _ _ _ h => by cases h; rfl

theorem deliver_spec {r : Req} {pos : ℕ} {data : List UInt8} (hi : Inv cfg md s)
    (hx : Loc cfg w x s)
    (hp : ∀ s₁, Inv cfg md s₁ → Loc cfg w x s₁ → EventOk cfg md w s₁ (.deliver r pos data)) :
    wp (contract cfg md) w (event (.deliver r pos data)) (fun _ s' => Loc cfg w x s') s :=
  inert_spec hi hx hp fun _ _ _ _ h => by cases h; rfl

/-- The start of a request or a batch: the log so far, and no faults yet. -/
theorem begin_spec {reqs : List Req} (hi : Inv cfg md s) (hx : Loc cfg w x s) (hr : x.Rest md) :
    wp (contract cfg md) w (event (.begin reqs)) (fun _ s' => ∃ new, Alien w new ∧
      (md.apart = true → Apart reqs) ∧ Loc cfg w { x with
        log := x.log ++ new
        priv := { x.priv with
          start := (x.log ++ new).length, snap := fun _ => (x.log ++ new).length, faults := [] } } s') s := by
  refine wp_step hi hx fun s₁ hi₁ hx₁ => ⟨hx₁.quiet hr, ?_⟩
  intro c r s₂ hi₂ ha he
  cases he
  obtain ⟨new, hlog, hf, hx'⟩ := hx₁.advance
  refine ⟨new, hf, ha, ?_⟩
  have hp := hx'.setPriv { x.priv with
    start := (x.log ++ new).length, snap := fun _ => (x.log ++ new).length, faults := [] }
  rw [← hlog, ← hx₁.priv] at hp ⊢
  exact hp

theorem recv_spec (hi : Inv cfg md s) (hx : Loc cfg w x s) (hr : x.Rest md) (hn : 0 < n) :
    wp (contract cfg md) w (recv n) (fun r s' =>
      (r = none ∧ Loc cfg w x s') ∨
      ∃ k, 0 < k ∧ k ≤ n ∧ k ≤ x.priv.net.inp.length ∧ r = some (x.priv.net.inp.take k) ∧
        Loc cfg w { x with priv := { x.priv with net := x.priv.net.take k } } s') s := by
  refine wp_step hi hx fun s₁ hi₁ hx₁ => ⟨hx₁.quiet hr, ?_⟩
  intro c r s₂ hi₂ ha he
  simp only [exec] at he
  split at he
  · cases he
    exact .inl ⟨rfl, hx₁⟩
  · split at he
    · cases he
    · rename_i hne
      cases he
      have hpos : 0 < (s₁.priv w).net.inp.length := List.length_pos_of_ne_nil hne
      refine .inr ⟨min (c.n + 1) (min n (s₁.priv w).net.inp.length), by omega, by omega, ?_, ?_, ?_⟩
      · rw [← hx₁.priv]
        omega
      · rw [← hx₁.priv]
      · have hp := hx₁.setPriv { x.priv with
          net := x.priv.net.take (min (c.n + 1) (min n (s₁.priv w).net.inp.length)) }
        rw [← hx₁.priv] at hp ⊢
        exact hp

theorem recvNb_spec (hi : Inv cfg md s) (hx : Loc cfg w x s) (hr : x.Rest md) :
    wp (contract cfg md) w (recvNb n) (fun r s' =>
      ((r = .closed ∨ r = .empty) ∧ Loc cfg w x s') ∨
      ∃ k, 0 < k ∧ k ≤ n ∧ k ≤ x.priv.net.inp.length ∧ r = .some (x.priv.net.inp.take k) ∧
        Loc cfg w { x with priv := { x.priv with net := x.priv.net.take k } } s') s := by
  refine wp_step hi hx fun s₁ hi₁ hx₁ => ⟨hx₁.quiet hr, ?_⟩
  intro c r s₂ hi₂ ha he
  simp only [exec] at he
  split at he
  · cases he
    exact .inl ⟨.inl rfl, hx₁⟩
  · split at he
    · cases he
      exact .inl ⟨.inr rfl, hx₁⟩
    · rename_i hne
      cases he
      refine .inr ⟨min c.n (min n (s₁.priv w).net.inp.length), by omega, by omega, ?_, ?_, ?_⟩
      · rw [← hx₁.priv]
        omega
      · rw [← hx₁.priv]
      · have hp := hx₁.setPriv { x.priv with
          net := x.priv.net.take (min c.n (min n (s₁.priv w).net.inp.length)) }
        rw [← hx₁.priv] at hp ⊢
        exact hp

theorem send_spec {bs : List UInt8} (hi : Inv cfg md s) (hx : Loc cfg w x s) (hr : x.Rest md)
    (hn : 0 < bs.length) :
    wp (contract cfg md) w (send bs) (fun r s' =>
      (r = none ∧ Loc cfg w { x with priv := { x.priv with
        net := { x.priv.net with down := true } } } s') ∨
      ∃ k, 0 < k ∧ k ≤ bs.length ∧ r = some k ∧
        Loc cfg w { x with priv := { x.priv with net := x.priv.net.put (bs.take k) } } s') s := by
  refine wp_step hi hx fun s₁ hi₁ hx₁ => ⟨hx₁.quiet hr, ?_⟩
  intro c r s₂ hi₂ ha he
  simp only [exec] at he
  split at he
  · cases he
    refine .inl ⟨rfl, ?_⟩
    have hp := hx₁.setPriv { x.priv with net := { x.priv.net with down := true } }
    rw [← hx₁.priv] at hp ⊢
    exact hp
  · cases he
    refine .inr ⟨min (c.n + 1) bs.length, by omega, by omega, rfl, ?_⟩
    have hp := hx₁.setPriv { x.priv with
      net := x.priv.net.put (bs.take (min (c.n + 1) bs.length)) }
    rw [← hx₁.priv] at hp ⊢
    exact hp

theorem accept_spec (hi : Inv cfg md s) (hx : Loc cfg w x s) (hr : x.Rest md) :
    wp (contract cfg md) w accept (fun c s' =>
      (c = false ∧ Loc cfg w x s') ∨
      ∃ inp eof, c = true ∧ Loc cfg w { x with priv := { x.priv with
        net := ⟨inp, eof, [], [], x.priv.net.conn + 1, false⟩, faults := [] } } s') s := by
  refine wp_step hi hx fun s₁ hi₁ hx₁ => ⟨hx₁.quiet hr, ?_⟩
  intro c r s₂ hi₂ ha he
  simp only [exec] at he
  split at he
  · cases he
    exact .inl ⟨rfl, hx₁⟩
  · cases he
    refine .inr ⟨c.stream, c.eof, rfl, ?_⟩
    have hp := hx₁.setPriv { x.priv with
      net := ⟨c.stream, c.eof, [], [], x.priv.net.conn + 1, false⟩, faults := [] }
    rw [← hx₁.priv] at hp ⊢
    exact hp

end NbdVram
