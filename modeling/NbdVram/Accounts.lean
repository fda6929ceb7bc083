import NbdVram.Safety

/-!
# The accounts of the store

`g_slot_bytes` is kept under the allocator's mutex and is exact in every state; the
other counters are exact whenever no worker is inside an operation that mutates the
index. Blocks that become written are counted by `births`, which never decreases.
-/

namespace NbdVram

open Interleave

namespace Alloc

open Bitmap

variable {H : Heap} {a : Alloc} {ls : Option ℕ → List ℕ} {e g : ℕ}

/-- The grains handed out. -/
def liveSet (H : Heap) (a : Alloc) : Finset ℕ :=
  (Finset.range (H.nExtents * H.extGrains)).filter (Live H a)

theorem Wf.mem_liveSet (h : Wf H a ls) : g ∈ liveSet H a ↔ Live H a g := by
  rw [liveSet, Finset.mem_filter, Finset.mem_range]
  refine and_iff_right_of_imp fun hg => ?_
  have h1 := (h.live_range hg).2.2
  have h2 := H.extentSize_eq
  have h3 : 64 ≤ slotSize H a g := by
    unfold slotSize
    omega
  rw [h2, ← Nat.mul_assoc, Nat.mul_comm H.nExtents, Nat.mul_assoc] at h1
  omega

/-- The grains of one extent. -/
theorem Wf.fiber (h : Wf H a ls) (he : e < H.nExtents) (hu : (a.ext e).used = true) :
    (liveSet H a).filter (fun g => g / H.extGrains = e) =
      ((Finset.range (a.ext e).nslots).filter fun i => bit (a.bm e) i = true).image
        (grainAt H a e) := by
  ext g
  rw [Finset.mem_filter, h.mem_liveSet, Finset.mem_image]
  constructor
  · rintro ⟨hg, rfl⟩
    obtain ⟨e, i, he', hu', hi, hb, rfl⟩ := h.live_iff.mp hg
    rw [(h.grainAt_decode he' hu' hi).1]
    exact ⟨i, Finset.mem_filter.mpr ⟨Finset.mem_range.mpr hi, hb⟩, rfl⟩
  · rintro ⟨i, hi, rfl⟩
    obtain ⟨hi, hb⟩ := Finset.mem_filter.mp hi
    have hi := Finset.mem_range.mp hi
    exact ⟨(h.live_grainAt he hu hi).mpr hb, (h.grainAt_decode he hu hi).1⟩

/-- **`g_slot_bytes` is the sum of the sizes of all slots handed out.** -/
theorem Inv.slotBytes_eq (h : Inv H a) : a.slotBytes = ∑ g ∈ liveSet H a, slotSize H a g := by
  obtain ⟨ls, hw⟩ := h.wf
  have hmaps : ∀ g ∈ liveSet H a, g / H.extGrains ∈ Finset.range H.nExtents := fun g hg =>
    Finset.mem_range.mpr (hw.mem_liveSet.mp hg).1
  rw [h.bytes_eq, slotSum, ← Finset.sum_fiberwise_of_maps_to hmaps]
  apply Finset.sum_congr rfl
  intro e he
  have he := Finset.mem_range.mp he
  by_cases hu : (a.ext e).used = true
  · have hx := hw.extent e he hu
    have hinj : Set.InjOn (grainAt H a e)
        ((Finset.range (a.ext e).nslots).filter fun i => bit (a.bm e) i = true) := by
      intro i _ j _ hij
      have hpos : 0 < (a.ext e).cls + 1 := Nat.succ_pos _
      simpa [grainAt] using hij
    -- the taken slots are those whose bits are not clear
    have hcard : ((Finset.range (a.ext e).nslots).filter fun i => bit (a.bm e) i = true).card =
        (a.ext e).nslots - (a.ext e).nfree := by
      have hall := Finset.card_filter_add_card_filter_not (s := Finset.range (a.ext e).nslots)
        (fun i => bit (a.bm e) i = true)
      simp only [Bool.not_eq_true, Finset.card_range] at hall
      have hclear : (a.ext e).nfree = ((Finset.range (a.ext e).nslots).filter fun i =>
        bit (a.bm e) i = false).card := hx.nfree_eq
      omega
    have hsize : ∀ i ∈ (Finset.range (a.ext e).nslots).filter (fun i => bit (a.bm e) i = true),
        slotSize H a (grainAt H a e i) = ((a.ext e).cls + 1) * 64 := by
      intro i hi
      have hi := Finset.mem_range.mp (Finset.mem_filter.mp hi).1
      rw [slotSize, (hw.grainAt_decode he hu hi).1]
    rw [hw.fiber he hu, Finset.sum_image hinj, Finset.sum_congr rfl hsize, Finset.sum_const,
      smul_eq_mul, hcard, bytesOf, if_pos hu]
  · rw [bytesOf, if_neg hu, Finset.sum_eq_zero]
    intro g hg
    obtain ⟨hl, rfl⟩ := Finset.mem_filter.mp hg
    exact absurd (hw.mem_liveSet.mp hl).2.1 hu

end Alloc

variable {cfg : Config} {md : Mode} {s s' : State} {w : ℕ}

/-- The size of the slot that an entry names. -/
def State.slotOf (cfg : Config) (s : State) (e : ℕ) : ℕ :=
  if entClen e = 0 then 0 else Alloc.slotSize cfg.heap s.alloc (entGrain e)

/-- The slots of all blocks are among those handed out. -/
theorem Inv.slots_le_slotBytes (h : Inv cfg md s) :
    ∑ b ∈ Finset.range cfg.nblocks, s.slotOf cfg (s.index b) ≤ s.alloc.slotBytes := by
  obtain ⟨ls, hw⟩ := h.alloc.wf
  obtain ⟨own, ho⟩ := h.owned
  set W := (Finset.range cfg.nblocks).filter fun b => entClen (s.index b) ≠ 0 with hW
  have hinj : Set.InjOn (fun b => entGrain (s.index b)) W := by
    intro b hb c hc hbc
    have hb := (Finset.mem_filter.mp hb).2
    have hc := (Finset.mem_filter.mp hc).2
    have h1 := (ho.entry b _).mpr ⟨hb, rfl⟩
    rw [(ho.entry c _).mpr ⟨hc, hbc.symm⟩, Option.some.injEq, Owner.entry.injEq] at h1
    exact h1.symm
  have hsub : W.image (fun b => entGrain (s.index b)) ⊆ Alloc.liveSet cfg.heap s.alloc := by
    intro g hg
    obtain ⟨b, hb, rfl⟩ := Finset.mem_image.mp hg
    exact hw.mem_liveSet.mpr (h.entry_live (Finset.mem_filter.mp hb).2)
  calc ∑ b ∈ Finset.range cfg.nblocks, s.slotOf cfg (s.index b)
      = ∑ b ∈ W, Alloc.slotSize cfg.heap s.alloc (entGrain (s.index b)) := by
        rw [hW, Finset.sum_filter]
        refine Finset.sum_congr rfl fun b _ => ?_
        simp only [State.slotOf, ne_eq, ite_not]
    _ = ∑ g ∈ W.image fun b => entGrain (s.index b), Alloc.slotSize cfg.heap s.alloc g :=
        (Finset.sum_image hinj).symm
    _ ≤ ∑ g ∈ Alloc.liveSet cfg.heap s.alloc, Alloc.slotSize cfg.heap s.alloc g :=
        Finset.sum_le_sum_of_subset hsub
    _ = s.alloc.slotBytes := h.alloc.slotBytes_eq.symm

theorem Inv.clen_le_slotOf (h : Inv cfg md s) (b : ℕ) :
    entClen (s.index b) ≤ s.slotOf cfg (s.index b) := by
  unfold State.slotOf
  split
  · omega
  · exact (h.entry b).fits (by assumption)

/-- The stored bytes of all blocks fit the slots of all blocks. -/
theorem Inv.clen_le_slotBytes (h : Inv cfg md s) :
    ∑ b ∈ Finset.range cfg.nblocks, entClen (s.index b) ≤ s.alloc.slotBytes :=
  (Finset.sum_le_sum fun b _ => h.clen_le_slotOf b).trans h.slots_le_slotBytes

/-! ## Births -/

@[simp] theorem move_births (mv : Move) : (s.move w mv).births = s.births := by
  unfold State.move; cases mv.dir <;> rfl

theorem moves_same (l : List Move) (s : State) :
    (s.moves w l).index = s.index ∧ (s.moves w l).births = s.births ∧
      (s.moves w l).log = s.log := by
  induction l generalizing s with
  | nil => exact ⟨rfl, rfl, rfl⟩
  | cons mv l ih =>
      obtain ⟨h1, h2, h3⟩ := ih (s.move w mv)
      rw [State.moves, h1, h2, h3, move_index, move_births, move_log]
      exact ⟨rfl, rfl, rfl⟩

/-- Only a store changes an entry, counts a birth or is logged. -/
theorem exec_store {o : Op} {c : Choice} {r : o.Res} (he : exec cfg w o c s = some (r, s')) :
    (s'.index = s.index ∧ s'.births = s.births ∧ s'.log = s.log) ∨
      ∃ req b e, o = .idxStore req b e ∧ s' = s.store cfg w req b e := by
  cases o with
  | idxStore req b e =>
      cases he
      exact .inr ⟨req, b, e, rfl, rfl⟩
  | idxLoad why b => cases why <;> cases he <;> exact .inl ⟨rfl, rfl, rfl⟩
  | event e => cases e <;> cases he <;> exact .inl ⟨rfl, rfl, rfl⟩
  | sync =>
      simp only [exec] at he
      split at he <;> cases he
      · exact .inl ⟨rfl, rfl, rfl⟩
      · exact .inl (moves_same _ _)
  | _ =>
      simp only [exec] at he
      repeat' split at he
      all_goals cases he
      all_goals exact .inl ⟨rfl, rfl, rfl⟩

theorem store_births {req b e : ℕ} : (s.store cfg w req b e).births =
    s.births + if entClen (s.index b) = 0 ∧ entClen e ≠ 0 then 1 else 0 := by
  simp only [State.store]
  split <;> rfl

theorem exec_births {o : Op} {c : Choice} {r : o.Res} (he : exec cfg w o c s = some (r, s')) :
    s.births ≤ s'.births := by
  rcases exec_store he with ⟨-, hb, -⟩ | ⟨req, b, e, -, rfl⟩
  · exact hb.ge
  · rw [store_births]
    exact Nat.le_add_right _ _

theorem Daemon.Run.births {S S' : Daemon cfg} (h : Daemon.Run cfg md S S') :
    S.st.births ≤ S'.st.births := by
  induction h with
  | refl => exact le_rfl
  | tail _ hstep ih =>
      refine ih.trans ?_
      cases hstep with
      | act hw ha he => exact exec_births he
      | tau ht =>
          cases ht with
          | move hmv => exact (move_births _).ge
          | stop => exact le_rfl

/-! ## Counters -/

/-- No operation that mutates the index is in progress. -/
def State.Settled (s : State) : Prop := ∀ w, (s.priv w).busy = false

theorem Books.settled (h : Books cfg s) (hs : s.Settled) {c : Counter} (hc : c.kept = true) :
    (s.ctr c : ℤ) ≡ s.figure cfg c [ZMOD 2 ^ 64] := by
  obtain ⟨F, -, hk⟩ := h.kept
  have hzero : ∑ w ∈ F, (s.priv w).owed c = 0 :=
    Finset.sum_eq_zero fun w _ => (h.idle w (hs w) c).1
  have := hk c hc
  rwa [hzero, sub_zero] at this

/-- A figure below `2 ^ 64` is the counter's value. -/
theorem Books.exact (h : Books cfg s) (hs : s.Settled) {c : Counter} (hc : c.kept = true) {n : ℕ}
    (hf : s.figure cfg c = n) (hn : n < 2 ^ 64) : s.ctr c = n := by
  have hmod := h.settled hs hc
  have hsmall := h.small c
  rw [hf, Int.ModEq, Int.emod_eq_of_lt (by omega) (by omega), Int.emod_eq_of_lt (by omega) (by omega)]
    at hmod
  exact_mod_cast hmod

theorem nblocks_mul (cfg : Config) : cfg.nblocks * 4096 < 2 ^ 64 := by
  rw [Config.nblocks, Nat.div_mul_cancel cfg.disk_blocks]
  exact cfg.disk_lt

theorem card_blocks_lt (cfg : Config) (p : ℕ → Prop) [DecidablePred p] :
    ((Finset.range cfg.nblocks).filter p).card < 2 ^ 64 := by
  have h1 := Finset.card_filter_le (Finset.range cfg.nblocks) p
  have h2 := nblocks_mul cfg
  rw [Finset.card_range] at h1
  omega

/-- The written blocks. -/
def State.written (cfg : Config) (s : State) : Finset ℕ :=
  (Finset.range cfg.nblocks).filter fun b => entClen (s.index b) ≠ 0

theorem figure_blocksLive : s.figure cfg .blocksLive = (s.written cfg).card := by
  rw [State.written, Finset.card_filter, Nat.cast_sum]
  refine Finset.sum_congr rfl fun b _ => ?_
  simp only [Counter.share]
  split <;> simp [*]

theorem figure_rawBlocks : s.figure cfg .rawBlocks =
    ((Finset.range cfg.nblocks).filter fun b => entClen (s.index b) = 4096).card := by
  rw [Finset.card_filter, Nat.cast_sum]
  refine Finset.sum_congr rfl fun b _ => ?_
  simp only [Counter.share]
  split <;> simp

theorem figure_codecBytes : s.figure cfg .codecBytes =
    (∑ b ∈ Finset.range cfg.nblocks, entClen (s.index b) : ℕ) := by
  rw [Nat.cast_sum]
  rfl

theorem Inv.clen_lt (h : Inv cfg md s) :
    ∑ b ∈ Finset.range cfg.nblocks, entClen (s.index b) < 2 ^ 64 := by
  have hle := Finset.sum_le_card_nsmul (Finset.range cfg.nblocks) (fun b => entClen (s.index b)) 4096
    fun b _ => (h.entry b).bounds.2
  rw [Finset.card_range, smul_eq_mul] at hle
  exact hle.trans_lt (nblocks_mul cfg)

/-- A block that is written was born. -/
theorem Daemon.Reachable.written_le {S : Daemon cfg} (h : Daemon.Reachable cfg md S)
    (hs : md.since = 0) : (S.st.written cfg).card ≤ S.st.births := by
  refine h.induct hs (P := fun s => (s.written cfg).card ≤ s.births) ?_ ?_ ?_
  · intro s h0
    have hempty : s.written cfg = ∅ := by
      refine Finset.filter_eq_empty_iff.mpr fun b _ => ?_
      rw [h0.index, not_not]
      decide
    rw [hempty]
    exact Nat.zero_le _
  · intro v o c r s s' hp he hP
    rcases exec_store he with ⟨hidx, hb, -⟩ | ⟨req, b, e, rfl, rfl⟩
    · rw [State.written, hidx, hb]
      exact hP
    · have hfig : (s.store cfg v req b e).figure cfg .blocksLive = s.figure cfg .blocksLive +
          Counter.due .blocksLive (s.index b) e := State.figure_store .blocksLive rfl hp.2.1
      rw [figure_blocksLive, figure_blocksLive] at hfig
      simp only [Counter.due, Counter.share] at hfig
      rw [store_births]
      by_cases h1 : entClen (s.index b) = 0 <;> by_cases h2 : entClen e = 0
      all_goals
        simp only [h1, h2, if_true, if_false, ne_eq, not_true_eq_false, not_false_eq_true, and_true,
          and_false] at hfig ⊢
        omega
  · intro s s' ht hP
    cases ht with
    | move hmv =>
        rw [State.written, move_index, move_births]
        exact hP
    | stop => exact hP

/-- Before the births wrap, written blocks plus trims are the births. -/
theorem Books.births_exact (h : Books cfg s) (hs : s.Settled) (hw : (s.written cfg).card ≤ s.births)
    (hlt : s.births < 2 ^ 64) : s.ctr .blocksLive + s.ctr .trimBlocks = s.births := by
  have h1 : s.ctr .blocksLive = (s.written cfg).card :=
    h.exact hs rfl figure_blocksLive (card_blocks_lt cfg _)
  have h2 : s.ctr .trimBlocks = s.births - (s.written cfg).card := by
    refine h.exact hs rfl ?_ (by omega)
    rw [Nat.cast_sub hw, ← figure_blocksLive]
    rfl
  omega

theorem Books.births (h : Books cfg s) (hs : s.Settled) :
    (s.ctr .blocksLive : ℤ) + s.ctr .trimBlocks ≡ s.births [ZMOD 2 ^ 64] := by
  have h1 := h.settled hs (c := .blocksLive) rfl
  have h2 := h.settled hs (c := .trimBlocks) rfl
  have hsum : s.figure cfg .blocksLive + s.figure cfg .trimBlocks = s.births := by
    simp only [State.figure]
    ring
  rw [← hsum]
  exact h1.add h2

/-- **Store accounting.** In every reachable state in which no operation that mutates the index is
in progress, the counters are the figures they stand for, and written blocks plus trims count the
births modulo `2 ^ 64`; births never decrease along a run, so from one such state to a later one
written blocks plus trims grow by the births between. -/
theorem store_accounting :
    (∀ S : Daemon cfg, Daemon.Reachable cfg .any S → S.st.Settled →
      S.st.ctr .blocksLive = (S.st.written cfg).card ∧
      S.st.ctr .codecBytes = ∑ b ∈ Finset.range cfg.nblocks, entClen (S.st.index b) ∧
      S.st.ctr .rawBlocks =
        ((Finset.range cfg.nblocks).filter fun b => entClen (S.st.index b) = 4096).card ∧
      (∀ g, g ∈ Alloc.liveSet cfg.heap S.st.alloc ↔ Alloc.Live cfg.heap S.st.alloc g) ∧
      S.st.alloc.slotBytes =
        ∑ g ∈ Alloc.liveSet cfg.heap S.st.alloc, Alloc.slotSize cfg.heap S.st.alloc g ∧
      S.st.ctr .codecBytes ≤ S.st.alloc.slotBytes ∧
      (S.st.ctr .blocksLive : ℤ) + S.st.ctr .trimBlocks ≡ S.st.births [ZMOD 2 ^ 64] ∧
      (S.st.births < 2 ^ 64 → S.st.ctr .blocksLive + S.st.ctr .trimBlocks = S.st.births)) ∧
    ∀ S S' : Daemon cfg, Daemon.Reachable cfg .any S → Daemon.Run cfg .any S S' → S.st.Settled →
      S'.st.Settled → S.st.births ≤ S'.st.births ∧
      ((S'.st.ctr .blocksLive : ℤ) - S.st.ctr .blocksLive) +
        ((S'.st.ctr .trimBlocks : ℤ) - S.st.ctr .trimBlocks) ≡
          (S'.st.births - S.st.births : ℕ) [ZMOD 2 ^ 64] ∧
      (S'.st.births < 2 ^ 64 → 0 ≤ ((S'.st.ctr .blocksLive : ℤ) - S.st.ctr .blocksLive) +
        ((S'.st.ctr .trimBlocks : ℤ) - S.st.ctr .trimBlocks)) := by
  refine ⟨fun S h hs => ?_, fun S S' h hrun hs hs' => ?_⟩
  · have hi := h.inv rfl
    have hb := hi.books
    have hcodec : S.st.ctr .codecBytes = ∑ b ∈ Finset.range cfg.nblocks, entClen (S.st.index b) :=
      hb.exact hs rfl figure_codecBytes hi.clen_lt
    obtain ⟨ls, hw⟩ := hi.alloc.wf
    refine ⟨hb.exact hs rfl figure_blocksLive (card_blocks_lt cfg _), hcodec,
      hb.exact hs rfl figure_rawBlocks (card_blocks_lt cfg _), fun g => hw.mem_liveSet,
      hi.alloc.slotBytes_eq, ?_, hb.births hs, hb.births_exact hs (h.written_le rfl)⟩
    rw [hcodec]
    exact hi.clen_le_slotBytes
  · have hreach : Daemon.Reachable cfg .any S' := by
      obtain ⟨S₀, h0, hr⟩ := h
      exact ⟨S₀, h0, hr.trans hrun⟩
    have hle := Daemon.Run.births hrun
    have hb := (h.inv rfl).books
    have hb' := (hreach.inv rfl).books
    refine ⟨hle, ?_, fun hlt => ?_⟩
    · have hsub := (hb'.births hs').sub (hb.births hs)
      rw [Nat.cast_sub hle]
      convert hsub using 1
      ring
    · have h1 := hb.births_exact hs (h.written_le rfl) (hle.trans_lt hlt)
      have h2 := hb'.births_exact hs' (hreach.written_le rfl) hlt
      omega

end NbdVram
