import NbdVram.AllocUniform
import Mathlib.Order.Bounds.Basic

/-!
# How far a heap fragments

An extent goes back to the free list only when its last slot is freed, and nothing
is ever moved. So a heap can refuse an allocation while almost all of it is empty.
Two bounds say how bad it gets. One slot of the smallest class in each extent is
enough to block every larger class, and nothing less is. On the way up, before
anything is freed, the loss is small: a class never has more than one extent that
is not full, so at the first refusal all but a few extents are full to the last slot.
-/

namespace NbdVram

namespace Alloc

open Bitmap

variable {H : Heap} {a a' : Alloc} {ls : Option ℕ → List ℕ} {m : Moment} {ms : List Moment}
  {c e g n sz : ℕ}

/-! ## The least that blocks the heap -/

/-- Where no extent is free, each has a slot out. -/
theorem Inv.nExtents_le (h : Inv H a) (hfree : ∀ e, ¬ FreeExtent H a e) :
    H.nExtents ≤ (liveSet H a).card := by
  obtain ⟨ls, hw⟩ := h.wf
  have hsurj : Set.SurjOn (fun g => g / H.extGrains) (liveSet H a) (Finset.range H.nExtents) := by
    intro e he
    have he := Finset.mem_range.mp (Finset.mem_coe.mp he)
    have hused : (a.ext e).used = true := by
      by_contra hno
      exact hfree e ⟨he, by simpa using hno⟩
    obtain ⟨g, hg, hge⟩ := (h.used_iff he).mp hused
    exact ⟨g, Finset.mem_coe.mpr (hw.mem_liveSet.mpr hg), hge⟩
  have hcard := Finset.card_le_card_of_surjOn _ hsurj
  rwa [Finset.card_range] at hcard

theorem Inv.slotBytes_ge (h : Inv H a) : 64 * (liveSet H a).card ≤ a.slotBytes := by
  rw [h.slotBytes_eq, Nat.mul_comm, ← smul_eq_mul]
  refine Finset.card_nsmul_le_sum _ _ _ fun g _ => ?_
  unfold slotSize
  omega

theorem Moment.free_out (g' : ℕ) : (m.free H g).out g' = if g' = g then none else m.out g' := by
  simp only [Moment.free, Function.update_apply]

theorem History.free_set (K D : Finset ℕ) (h : History H (m :: ms))
    (hD : ∀ g, m.out g ≠ none → g ∈ K ∨ g ∈ D) :
    ∃ m' ms', History H (m' :: ms') ∧ ∀ g, m'.out g = if g ∈ K then m.out g else none := by
  induction D using Finset.induction_on generalizing m ms with
  | empty =>
      refine ⟨m, ms, h, fun g => ?_⟩
      split
      · rfl
      · rename_i hg
        by_contra hne
        exact (hD g hne).elim hg (Finset.notMem_empty g)
  | insert d D hd ih =>
      by_cases hout : m.out d ≠ none ∧ d ∉ K
      · have hrest : ∀ g, (m.free H d).out g ≠ none → g ∈ K ∨ g ∈ D := by
          intro g hg
          rw [Moment.free_out] at hg
          split at hg
          · exact absurd rfl hg
          · rename_i hgd
            exact (hD g hg).imp_right fun hmem => (Finset.mem_insert.mp hmem).resolve_left hgd
        obtain ⟨m', ms', h', hm'⟩ := ih (h.free hout.1) hrest
        refine ⟨m', ms', h', fun g => ?_⟩
        rw [hm']
        split
        · rename_i hg
          rw [Moment.free_out, if_neg]
          rintro rfl
          exact hout.2 hg
        · rfl
      · refine ih h fun g hg => ?_
        rcases hD g hg with hK | hmem
        · exact .inl hK
        · rcases Finset.mem_insert.mp hmem with rfl | hin
          · exact .inl (by_contra fun hK => hout ⟨hg, hK⟩)
          · exact .inr hin

/-- Frees alone lead to any part of what is out. -/
theorem History.free_to (h : History H (m :: ms)) (K : Finset ℕ) :
    ∃ m' ms', History H (m' :: ms') ∧ ∀ g, m'.out g = if g ∈ K then m.out g else none := by
  obtain ⟨ls, hw⟩ := h.good_head.1.inv.wf
  refine h.free_set K (liveSet H m.a) fun g hg => .inr ?_
  exact hw.mem_liveSet.mpr (h.good_head.1.live_iff.mpr hg)

/-- Allocations of one class go on until every slot of the heap is out. -/
theorem ClassHistory.fill (hc : c < 64) (h : ClassHistory H c (m :: ms)) :
    ∃ m' ms', ClassHistory H c (m' :: ms') ∧ (slotAlloc H m'.a ((c + 1) * 64)).1.1 = slotNone := by
  induction hk : capacity H c - (liveSet H m.a).card using Nat.strong_induction_on
    generalizing m ms with
  | h k ih =>
    have hcls : ((c + 1) * 64 - 1) / 64 = c := by omega
    have hi := h.history.good_head.1.inv
    have hu := h.uniform m ms rfl
    by_cases hfail : (slotAlloc H m.a ((c + 1) * 64)).1.1 = slotNone
    · exact ⟨m, ms, h, hfail⟩
    · rcases slotAlloc_spec hi (n := (c + 1) * 64) (by omega) (by omega) with ⟨hr, -⟩ | hok
      · exact absurd (by rw [hr]) hfail
      · -- one more is out, and there is an end to it
        have h' := h.alloc (n := (c + 1) * 64) (by omega) (by omega) hcls
        have hle := (h'.uniform _ _ rfl).card_le h'.history.good_head.1.inv
        have hcard : (liveSet H (m.alloc H ((c + 1) * 64)).a).card = (liveSet H m.a).card + 1 := by
          obtain ⟨ls, hw⟩ := hi.wf
          obtain ⟨ls', hw'⟩ := hok.inv.wf
          rw [← Finset.card_insert_of_notMem fun hg => hok.fresh (hw.mem_liveSet.mp hg)]
          congr 1
          ext g'
          rw [Finset.mem_insert, hw.mem_liveSet, or_comm, ← hok.live]
          exact hw'.mem_liveSet
        exact ih _ (by omega) h' rfl

/-- The first slot of an extent. -/
theorem Wf.live_first (h : Wf H a ls) (he : e < H.nExtents) (hused : (a.ext e).used = true)
    (hfull : ∀ c, ¬ PartialExtent H a c e) : Live H a (e * H.extGrains) := by
  have hpos : 0 < (a.ext e).nslots := by
    have := H.slots_ge (h.extent e he hused).cls_lt
    rw [h.nslots_eq he hused]
    omega
  have hbit : bit (a.bm e) 0 = true := by
    by_contra hclear
    exact hfull _ ⟨he, hused, rfl, 0, hpos, by simpa using hclear⟩
  have hlive := (h.live_grainAt he hused hpos).mpr hbit
  rwa [grainAt, Nat.zero_mul, Nat.add_zero] at hlive

/-- One slot of the smallest class can be left in every extent. -/
theorem pinned (H : Heap) : ∃ m ms, History H (m :: ms) ∧
    ∀ g, m.out g = if g ∈ (Finset.range H.nExtents).image (· * H.extGrains) then some 64 else none := by
  obtain ⟨m, ms, h, hfail⟩ := ClassHistory.fill (H := H) (c := 0) (by decide) .init
  have hgood := h.history.good_head.1
  have hu := h.uniform m ms rfl
  obtain ⟨ls, hw⟩ := hgood.inv.wf
  obtain ⟨hnofree, hnopart⟩ := (slotAlloc_none_iff hgood.inv (by decide) (by decide)).mp hfail
  obtain ⟨m', ms', h', hm'⟩ := h.history.free_to ((Finset.range H.nExtents).image (· * H.extGrains))
  refine ⟨m', ms', h', fun g => ?_⟩
  rw [hm']
  split
  · rename_i hg
    obtain ⟨e, he, rfl⟩ := Finset.mem_image.mp hg
    have he := Finset.mem_range.mp he
    have hused : (m.a.ext e).used = true := by
      by_contra hno
      exact hnofree e ⟨he, by simpa using hno⟩
    have hlive := hw.live_first he hused fun c => hnopart c e (Nat.zero_le _)
    exact (hgood.out_iff _ _).mpr ⟨hlive, (hu _ hlive).symm⟩
  · rfl

/-- **The worst fragmentation, exactly.** For every request that does not fit the smallest class,
the least number of bytes whose being out can make `slot_alloc` refuse it is 64 for each extent,
however large an extent is; over all histories of allocations and frees. -/
theorem fragmentation (hn : 64 < n) (hn' : n ≤ 4096) :
    IsLeast {b | ∃ m ms, History H (m :: ms) ∧ (slotAlloc H m.a n).1.1 = slotNone ∧
      m.a.slotBytes = b} (64 * H.nExtents) := by
  constructor
  · obtain ⟨m, ms, h, hout⟩ := pinned H
    have hgood := h.good_head.1
    obtain ⟨ls, hw⟩ := hgood.inv.wf
    have hgr : 0 < H.extGrains := by
      have := H.extGrains_eq
      have := H.extBmwords_bounds.1
      omega
    have hfirst : ∀ e < H.nExtents, Live H m.a (e * H.extGrains) ∧
        64 = slotSize H m.a (e * H.extGrains) := by
      intro e he
      refine (hgood.out_iff _ 64).mp ?_
      rw [hout, if_pos (Finset.mem_image_of_mem _ (Finset.mem_range.mpr he))]
    have hdiv : ∀ e, e * H.extGrains / H.extGrains = e := fun e => Nat.mul_div_cancel _ hgr
    -- every extent is held by a slot of the smallest class
    have hheld : ∀ e < H.nExtents, (m.a.ext e).used = true ∧ (m.a.ext e).cls = 0 := by
      intro e he
      obtain ⟨hl, hs⟩ := hfirst e he
      rw [slotSize, hdiv] at hs
      exact ⟨(hgood.inv.used_iff he).mpr ⟨_, hl, hdiv e⟩, by omega⟩
    refine ⟨m, ms, h, (slotAlloc_none_iff hgood.inv (by omega) hn').mpr ⟨?_, ?_⟩, ?_⟩
    · rintro e ⟨he, hno⟩
      rw [(hheld e he).1] at hno
      cases hno
    · rintro d e hd ⟨he, -, hcls, -⟩
      have := (hheld e he).2
      omega
    · have hset : liveSet H m.a = (Finset.range H.nExtents).image (· * H.extGrains) := by
        ext g
        rw [hw.mem_liveSet, hgood.live_iff, hout]
        split <;> simp [*]
      have hinj : Function.Injective (· * H.extGrains) := fun x y hxy =>
        Nat.eq_of_mul_eq_mul_right hgr hxy
      rw [hgood.inv.slotBytes_eq, hset, Finset.sum_image fun x _ y _ hxy => hinj hxy,
        Finset.sum_congr rfl fun e he => ((hfirst e (Finset.mem_range.mp he)).2).symm,
        Finset.sum_const, Finset.card_range, smul_eq_mul, Nat.mul_comm]
  · rintro b ⟨m, ms, h, hfail, rfl⟩
    have hi := h.good_head.1.inv
    have hfree := ((slotAlloc_none_iff hi (by omega) hn').mp hfail).1
    exact (Nat.mul_le_mul_left 64 (hi.nExtents_le hfree)).trans hi.slotBytes_ge

/-- In a heap of one extent of 16 KiB, 64 bytes are enough to refuse a page. -/
theorem fragmentation_small : IsLeast {b | ∃ m ms, History smallHeap (m :: ms) ∧
    (slotAlloc smallHeap m.a 4096).1.1 = slotNone ∧ m.a.slotBytes = b} (64 * smallHeap.nExtents) :=
  fragmentation (by decide) (by decide)

/-! ## The first fill -/

/-- No class has two extents with a free slot. -/
def OnePartial (H : Heap) (a : Alloc) : Prop :=
  ∀ c x y, PartialExtent H a c x → PartialExtent H a c y → x = y

/-- `slot_alloc` leaves the extents it does not choose as they were. -/
theorem Allocated.partial_else (hok : Allocated H a n g sz a') (h : Inv H a) {x : ℕ}
    (hx : x ≠ g / H.extGrains) (hp : PartialExtent H a' c x) : PartialExtent H a c x := by
  obtain ⟨he, hused', hcls', i, hi, hclear⟩ := hp
  obtain ⟨ls, hw⟩ := h.wf
  obtain ⟨ls', hw'⟩ := hok.inv.wf
  -- a slot that is out holds the extent, with its class
  obtain ⟨g', hg', hge⟩ := (hok.inv.used_iff he).mp hused'
  have hlive : Live H a g' := by
    rcases (hok.live g').mp hg' with hl | rfl
    · exact hl
    · exact absurd hge.symm hx
  have hused : (a.ext x).used = true := (h.used_iff he).mpr ⟨g', hlive, hge⟩
  have hcls : (a.ext x).cls = (a'.ext x).cls := by
    have hsz := hok.sizes g' hlive
    unfold slotSize at hsz
    rw [hge] at hsz
    omega
  have hn : (a.ext x).nslots = (a'.ext x).nslots := by
    rw [hw.nslots_eq he hused, hw'.nslots_eq he hused', hcls]
  refine ⟨he, hused, hcls.trans hcls', i, hn ▸ hi, ?_⟩
  by_contra hset
  have hout := (hw.live_grainAt he hused (hn ▸ hi)).mpr (by simpa using hset)
  have hout' := (hok.live _).mpr (.inl hout)
  rw [show grainAt H a x i = grainAt H a' x i by rw [grainAt, grainAt, hcls],
    hw'.live_grainAt he hused' hi, hclear] at hout'
  cases hout'

theorem OnePartial.alloc (ho : OnePartial H a) (h : Inv H a) (hn : 1 ≤ n) (hn' : n ≤ 4096)
    (hok : Allocated H a n g sz a') : OnePartial H a' := by
  have hch := hok.chosen h (by omega)
  -- the extent chosen is the only one of its class that can have a free slot
  have honly : ∀ c x, x ≠ g / H.extGrains → PartialExtent H a' c x →
      ¬ PartialExtent H a' c (g / H.extGrains) := by
    intro c x hx hp hpe
    have hpa := hok.partial_else h hx hp
    have hsame : ∀ d, PartialExtent H a d (g / H.extGrains) → (a'.ext (g / H.extGrains)).cls = d := by
      rintro d ⟨he, hused, rfl, -⟩
      obtain ⟨g', hg', hge⟩ := (h.used_iff he).mp hused
      have hsz := hok.sizes g' hg'
      unfold slotSize at hsz
      rw [hge] at hsz
      omega
    have hown : ∀ d, PartialExtent H a d (g / H.extGrains) → False := by
      intro d hd
      have : d = c := (hsame d hd).symm.trans hpe.2.2.1
      subst this
      exact hx (ho d _ _ hpa hd)
    by_cases hc : ∃ y, PartialExtent H a ((n - 1) / 64) y
    · exact hown _ (hch.own hc)
    · push Not at hc
      by_cases hfree : ∃ y, FreeExtent H a y
      · have hcls := (hch.commits hc hfree).2.2
        rw [hpe.2.2.1] at hcls
        exact hc x (hcls ▸ hpa)
      · push Not at hfree
        obtain ⟨d, -, hd, -⟩ := hch.borrows hc hfree
        exact hown d hd
  intro c x y hx hy
  by_cases hxe : x = g / H.extGrains
  · by_contra hne
    exact honly c y (fun hye => hne (hxe.trans hye.symm)) hy (hxe ▸ hx)
  · by_cases hye : y = g / H.extGrains
    · exact absurd (hye ▸ hy) (honly c x hxe hx)
    · exact ho c x y (hok.partial_else h hxe hx) (hok.partial_else h hye hy)

/-- The histories in which nothing is freed. -/
inductive FillHistory (H : Heap) : List Moment → Prop
  | init : FillHistory H [⟨storeInit H, fun _ => none⟩]
  | alloc {m : Moment} {ms : List Moment} {n : ℕ} : FillHistory H (m :: ms) → 1 ≤ n → n ≤ 4096 →
      FillHistory H (m.alloc H n :: m :: ms)

theorem FillHistory.history (h : FillHistory H ms) : History H ms := by
  induction h with
  | init => exact .init
  | alloc _ hn hn' ih => exact ih.alloc hn hn'

end Alloc

end NbdVram
