import NbdVram.AllocFragment
import NbdVram.Capacity

/-!
# What the heap holds at rest

Between requests the allocator is a function of the index: the slots that are out
are those of the written blocks, one each, and an extent is committed as long as one
of its slots belongs to a written block. Nothing else holds VRAM back, so trimming
gives it back exactly when it takes the last block of an extent.
-/

namespace NbdVram

open Interleave

variable {cfg : Config} {s : State}

/-- No two written blocks share a slot. -/
theorem Inv.grain_inj {md : Mode} (h : Inv cfg md s) :
    Set.InjOn (fun b => entGrain (s.index b)) (s.written cfg) := by
  obtain ⟨own, ho⟩ := h.owned
  intro b hb c hc hbc
  have hb := (Finset.mem_filter.mp hb).2
  have hc := (Finset.mem_filter.mp hc).2
  have h1 := (ho.entry b _).mpr ⟨hb, rfl⟩
  rw [(ho.entry c _).mpr ⟨hc, hbc.symm⟩, Option.some.injEq, Owner.entry.injEq] at h1
  exact h1.symm

/-- The slots that are out, block by block. -/
theorem State.Tight.liveSet_eq (ht : s.Tight cfg) (hi : Inv cfg .kept s)
    (hlt : ∀ b, entClen (s.index b) ≠ 0 → b < cfg.nblocks) :
    Alloc.liveSet cfg.heap s.alloc = (s.written cfg).image fun b => entGrain (s.index b) := by
  obtain ⟨ls, hw⟩ := hi.alloc.wf
  ext g
  rw [hw.mem_liveSet, Finset.mem_image]
  constructor
  · intro hg
    obtain ⟨b, hb, rfl⟩ := ht g hg
    exact ⟨b, Finset.mem_filter.mpr ⟨Finset.mem_range.mpr (hlt b hb), hb⟩, rfl⟩
  · rintro ⟨b, hb, rfl⟩
    exact hi.entry_live (Finset.mem_filter.mp hb).2

/-- **The heap at rest**, in every run in which no copy to the device is rejected: the committed
extents are those that hold a slot of a written block, `g_slot_bytes` is the sum of the slots of
the written blocks, each large enough for what it stores, and an allocation for whatever number
of bytes can only be refused while at least as many blocks are written as there are extents. -/
theorem rest_occupancy {S : Daemon cfg} (h : Daemon.Reachable cfg .kept S)
    (hrest : ∀ w, ∃ ph, S.prog w = .ret ph) :
    (∀ e < cfg.heap.nExtents, (S.st.alloc.ext e).used = true ↔
      ∃ b ∈ S.st.written cfg, entGrain (S.st.index b) / cfg.heap.extGrains = e) ∧
    S.st.alloc.extentsUsed =
      ((S.st.written cfg).image fun b => entGrain (S.st.index b) / cfg.heap.extGrains).card ∧
    S.st.alloc.slotBytes =
      ∑ b ∈ S.st.written cfg, Alloc.slotSize cfg.heap S.st.alloc (entGrain (S.st.index b)) ∧
    (∀ b ∈ S.st.written cfg,
      entClen (S.st.index b) ≤ Alloc.slotSize cfg.heap S.st.alloc (entGrain (S.st.index b))) ∧
    ∀ n, 1 ≤ n → n ≤ 4096 → (Alloc.slotAlloc cfg.heap S.st.alloc n).1.1 = slotNone →
      cfg.heap.nExtents ≤ (S.st.written cfg).card := by
  have hi := h.inv rfl
  have hquiet : ∀ v, Quiet .kept v S.st := fun v => by
    obtain ⟨ph, hp⟩ := hrest v
    exact (h.quiet rfl hp).1
  have ht := State.Tight.of_quiet hi hquiet
  have hlive := ht.liveSet_eq hi (h.written_lt rfl)
  obtain ⟨ls, hw⟩ := hi.alloc.wf
  have hused : ∀ e < cfg.heap.nExtents, (S.st.alloc.ext e).used = true ↔
      ∃ b ∈ S.st.written cfg, entGrain (S.st.index b) / cfg.heap.extGrains = e := by
    intro e he
    rw [hi.alloc.used_iff he]
    constructor
    · rintro ⟨g, hg, rfl⟩
      rw [← hw.mem_liveSet, hlive] at hg
      obtain ⟨b, hb, rfl⟩ := Finset.mem_image.mp hg
      exact ⟨b, hb, rfl⟩
    · rintro ⟨b, hb, rfl⟩
      exact ⟨_, hi.entry_live (Finset.mem_filter.mp hb).2, rfl⟩
  refine ⟨hused, ?_, ?_, fun b hb => ?_, fun n hn hn' hfail => ?_⟩
  · rw [hi.alloc.used_eq]
    congr 1
    ext e
    rw [Alloc.usedSet, Finset.mem_filter, Finset.mem_range, Finset.mem_image]
    constructor
    · rintro ⟨he, hu⟩
      exact (hused e he).mp hu
    · rintro ⟨b, hb, rfl⟩
      have hl := hi.entry_live (Finset.mem_filter.mp hb).2
      exact ⟨hl.1, hl.2.1⟩
  · rw [hi.alloc.slotBytes_eq, hlive, Finset.sum_image hi.grain_inj]
  · exact (hi.entry b).fits (Finset.mem_filter.mp hb).2
  · have hfree := ((Alloc.slotAlloc_none_iff hi.alloc hn hn').mp hfail).1
    refine (hi.alloc.nExtents_le hfree).trans ?_
    rw [hlive]
    exact Finset.card_image_le

set_option maxRecDepth 100000 in
/-- After one block has been written, one extent is committed. -/
theorem rest_occupancy_wrote : Daemon.wrote.st.alloc.extentsUsed =
    ((Daemon.wrote.st.written smallConfig).image fun b =>
      entGrain (Daemon.wrote.st.index b) / smallConfig.heap.extGrains).card := by
  have hp : Daemon.wrote.resting 0 = true := rfl
  have hreach : Daemon.Reachable smallConfig .kept Daemon.wrote :=
    ⟨_, ⟨State.boot_initial smallConfig, fun _ => .inr ⟨.blank, rfl⟩⟩,
      Daemon.drive_plain rfl rfl rfl _ (by decide) _ (by decide)⟩
  exact (rest_occupancy hreach (Daemon.booted_drive_rest hp)).2.1

end NbdVram
