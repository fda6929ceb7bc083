import NbdVram.AllocHistory

/-!
# What `slot_alloc` chooses

`slot_alloc` looks at list heads only. Through the representation invariant those
heads speak for every bitmap of the heap: a class list is empty exactly when no
extent of that class has a clear bit. So the order in which `slot_alloc` tries its
own class, a fresh extent and the larger classes can be stated over the extents
themselves, and so can the one situation in which it gives up.
-/

namespace NbdVram

open LinkedArray Bitmap

namespace Alloc

variable {H : Heap} {a : Alloc} {ls : Option ℕ → List ℕ} {m : Moment} {ms : List Moment}
  {c e n : ℕ}

/-- Extent `e` belongs to no class. -/
def FreeExtent (H : Heap) (a : Alloc) (e : ℕ) : Prop :=
  e < H.nExtents ∧ (a.ext e).used = false

/-- Extent `e` is used by class `c` and its bitmap has a free slot. -/
def PartialExtent (H : Heap) (a : Alloc) (c e : ℕ) : Prop :=
  e < H.nExtents ∧ (a.ext e).used = true ∧ (a.ext e).cls = c ∧
    ∃ i < (a.ext e).nslots, bit (a.bm e) i = false

theorem Wf.mem_part_iff (h : Wf H a ls) : e ∈ ls (some c) ↔ PartialExtent H a c e := by
  rw [h.mem_part]
  refine and_congr_right fun he => and_congr_right fun hu => and_congr_right fun _ => ?_
  rw [(h.extent e he hu).nfree_eq, Nat.pos_iff_ne_zero, ne_eq, clearBits_eq_zero]
  push Not
  simp only [ne_eq, Bool.not_eq_true]

/-- The head of a class list speaks for all extents of the class. -/
theorem Wf.classHead_none_iff (h : Wf H a ls) :
    a.classHead c = extNone ↔ ∀ e, ¬ PartialExtent H a c e := by
  rw [h.classHead_eq, List.eq_nil_iff_forall_not_mem]
  simp only [h.mem_part_iff]

theorem Wf.freeHead_none_iff (h : Wf H a ls) :
    a.freeHead = extNone ↔ ∀ e, ¬ FreeExtent H a e := by
  rw [h.freeHead_eq, List.eq_nil_iff_forall_not_mem]
  simp only [h.mem_free, FreeExtent]

theorem Wf.partial_head (h : Wf H a ls) (hc : a.classHead c ≠ extNone) :
    PartialExtent H a c (a.classHead c) :=
  h.mem_part_iff.mp (h.classHead_mem hc)

theorem Wf.free_head (h : Wf H a ls) (hf : a.freeHead ≠ extNone) : FreeExtent H a a.freeHead :=
  (h.mem_free _).mp (h.freeHead_mem hf)

/-- A handed-out grain lies in a real extent, so the choice was not "nothing". -/
theorem Allocated.picked {g sz : ℕ} {a' : Alloc} (h : Allocated H a n g sz a') :
    (pickExtent H a ((n - 1) / 64)).1 < H.nExtents := by
  rw [← h.extent_eq]
  exact ((h.live g).mpr (.inr rfl)).1

/-- **When `slot_alloc` fails.** -/
theorem slotAlloc_none_iff (h : Inv H a) (hn : 1 ≤ n) (hn' : n ≤ 4096) :
    (slotAlloc H a n).1.1 = slotNone ↔
      (∀ e, ¬ FreeExtent H a e) ∧ ∀ d e, (n - 1) / 64 ≤ d → ¬ PartialExtent H a d e := by
  obtain ⟨ls, hw⟩ := h.wf
  rcases slotAlloc_spec h hn hn' with ⟨hr, -, hf, hcl⟩ | hok
  · refine ⟨fun _ => ⟨hw.freeHead_none_iff.mp hf, ?_⟩, fun _ => by rw [hr]⟩
    intro d e hd hp
    have hlt : d < 64 := by
      have := (hw.extent e hp.1 hp.2.1).cls_lt
      rwa [hp.2.2.1] at this
    exact hw.classHead_none_iff.mp (hcl d hd hlt) e hp
  · refine ⟨fun hz => absurd hz hok.ne_none, ?_⟩
    rintro ⟨hf, hp⟩
    exfalso
    have hlt := hok.picked
    rcases pickExtent_cases H a ((n - 1) / 64) with ⟨hc, -⟩ | ⟨-, hfr, -⟩ |
      ⟨-, d, hd, -, hc, -⟩ | ⟨-, -, he⟩
    · exact hp _ _ le_rfl (hw.partial_head hc)
    · exact hf _ (hw.free_head hfr)
    · exact hp d _ hd.le (hw.partial_head hc)
    · rw [he] at hlt
      exact H.ne_extNone hlt rfl

/-- The extent a successful `slot_alloc` took its slot from. -/
structure Chosen (H : Heap) (a : Alloc) (c : ℕ) (a' : Alloc) (e : ℕ) : Prop where
  commits_iff : (∃ x, FreeExtent H a x ∧ (a'.ext x).used = true) ↔
    (∀ x, ¬ PartialExtent H a c x) ∧ ∃ x, FreeExtent H a x
  own : (∃ x, PartialExtent H a c x) → PartialExtent H a c e
  commits : (∀ x, ¬ PartialExtent H a c x) → (∃ x, FreeExtent H a x) →
    FreeExtent H a e ∧ (a'.ext e).used = true ∧ (a'.ext e).cls = c
  borrows : (∀ x, ¬ PartialExtent H a c x) → (∀ x, ¬ FreeExtent H a x) →
    ∃ d, c < d ∧ PartialExtent H a d e ∧ ∀ d' x, c ≤ d' → d' < d → ¬ PartialExtent H a d' x

/-- An allocation that commits nothing uses the extents that were used. -/
theorem not_commits {a' : Alloc} (hu : ∀ x, (a'.ext x).used = (a.ext x).used) :
    ¬ ∃ x, FreeExtent H a x ∧ (a'.ext x).used = true := by
  rintro ⟨x, hf, hx⟩
  rw [hu, hf.2] at hx
  exact absurd hx (by decide)

theorem Allocated.chosen {g sz : ℕ} {a' : Alloc} (h : Inv H a) (hc : (n - 1) / 64 < 64)
    (hok : Allocated H a n g sz a') : Chosen H a ((n - 1) / 64) a' (g / H.extGrains) := by
  obtain ⟨ls, hw⟩ := h.wf
  have hlt := hok.picked
  have hext := hok.extent_eq
  have hused := hok.used_eq
  have hcls := hok.cls_eq
  rcases pickExtent_cases H a ((n - 1) / 64) with ⟨hown, he⟩ | ⟨hnone, hfr, he⟩ |
    ⟨hfr, d, hd, hd64, hne, hbefore, he⟩ | ⟨-, -, he⟩ <;> rw [he] at hlt hext hused hcls
  · have hpart := hw.partial_head hown
    have hsome : ¬ ∀ x, ¬ PartialExtent H a ((n - 1) / 64) x := fun hall => hall _ hpart
    rw [hext]
    exact ⟨iff_of_false (not_commits hused) fun hall => hsome hall.1, fun _ => hpart,
      fun hall => absurd hall hsome, fun hall => absurd hall hsome⟩
  · have hno := hw.classHead_none_iff.mp hnone
    have hfree := hw.free_head hfr
    have hp := h.picked_commit hfr hc
    have hu : (a'.ext a.freeHead).used = true := by
      rw [hused]
      exact hp.used
    have hc' : (a'.ext a.freeHead).cls = (n - 1) / 64 := by
      obtain ⟨-, -, -, -, hbody, -⟩ := commitExtent_spec hw hfr hc
      rw [hcls]
      show ((commitExtent H a ((n - 1) / 64)).ext a.freeHead).toExtentBody.cls = _
      rw [hbody]
      rfl
    rw [hext]
    exact ⟨iff_of_true ⟨_, hfree, hu⟩ ⟨hno, _, hfree⟩, fun ⟨x, hx⟩ => absurd hx (hno x),
      fun _ _ => ⟨hfree, hu, hc'⟩, fun _ hall => absurd hfree (hall _)⟩
  · have hnofree := hw.freeHead_none_iff.mp hfr
    have hno := hw.classHead_none_iff.mp (hbefore _ le_rfl hd)
    rw [hext]
    refine ⟨iff_of_false (not_commits hused) fun hall => hall.2.elim hnofree,
      fun ⟨x, hx⟩ => absurd hx (hno x), fun _ ⟨x, hx⟩ => absurd hx (hnofree x),
      fun _ _ => ⟨d, hd, hw.partial_head hne, ?_⟩⟩
    intro d' x hd' hlt'
    exact hw.classHead_none_iff.mp (hbefore d' hd' hlt') x
  · exact absurd rfl (H.ne_extNone hlt)

/-- The used extents are those with a live grain, so equal live grains mean equal counts. -/
theorem Inv.extentsUsed_congr {a' : Alloc} (h : Inv H a) (h' : Inv H a')
    (hl : ∀ g, Live H a' g ↔ Live H a g) : a'.extentsUsed = a.extentsUsed := by
  rw [h.used_eq, h'.used_eq]
  congr 1
  apply Finset.filter_congr
  intro e he
  rw [h.used_iff (Finset.mem_range.mp he), h'.used_iff (Finset.mem_range.mp he)]
  simp only [hl]

/-- **`slot_alloc` fails only when it must.** At every moment of every history and for every
request: it fails exactly when no extent is free and no used extent of a sufficient class has
a free slot, and then changes nothing; when it succeeds, the slot comes from the extent
described by `Chosen`; and giving that slot back at once restores which slots are allocated,
`g_slot_bytes` and `g_extents_used`. -/
theorem history_slotAlloc (h : History H (m :: ms)) (hn : 1 ≤ n) (hn' : n ≤ 4096) :
    let r := slotAlloc H m.a n
    (r.1.1 = slotNone ↔ (∀ e, ¬ FreeExtent H m.a e) ∧
      ∀ d e, (n - 1) / 64 ≤ d → ¬ PartialExtent H m.a d e) ∧
    (r.1.1 = slotNone → r.2 = m.a) ∧
    (r.1.1 ≠ slotNone →
      ¬ Live H m.a r.1.1 ∧
      Chosen H m.a ((n - 1) / 64) r.2 (r.1.1 / H.extGrains) ∧
      (∀ g, Live H (slotFree H r.2 r.1.1).2 g ↔ Live H m.a g) ∧
      (∀ g, Live H m.a g → slotSize H (slotFree H r.2 r.1.1).2 g = slotSize H m.a g) ∧
      (slotFree H r.2 r.1.1).2.slotBytes = m.a.slotBytes ∧
      (slotFree H r.2 r.1.1).2.extentsUsed = m.a.extentsUsed) := by
  intro r
  have hi := h.good_head.1.inv
  refine ⟨slotAlloc_none_iff hi hn hn', ?_⟩
  rcases slotAlloc_spec hi hn hn' with ⟨hr, ha, -, -⟩ | hok
  · exact ⟨fun _ => ha, fun hne => absurd (congrArg Prod.fst hr) hne⟩
  · refine ⟨fun hz => absurd hz hok.ne_none, fun _ => ?_⟩
    have hlive : Live H r.2 r.1.1 := (hok.live _).mpr (.inr rfl)
    have hf := slotFree_live hok.inv hlive
    have hback : ∀ g, Live H (slotFree H r.2 r.1.1).2 g ↔ Live H m.a g := by
      intro g
      rw [hf.live, hok.live]
      constructor
      · rintro ⟨hl | rfl, hne⟩
        · exact hl
        · exact absurd rfl hne
      · intro hl
        refine ⟨.inl hl, ?_⟩
        rintro rfl
        exact hok.fresh hl
    refine ⟨hok.fresh, hok.chosen hi (by omega), hback, ?_, ?_, hi.extentsUsed_congr hf.inv hback⟩
    · intro g hg
      rw [hf.sizes g ((hback g).mpr hg), hok.sizes g hg]
    · have hsz : (slotFree H r.2 r.1.1).1 = r.1.2 := by rw [hf.size_eq, hok.size_eq]
      have hfree : (slotFree H r.2 r.1.1).2.slotBytes + (slotFree H r.2 r.1.1).1 = r.2.slotBytes :=
        hf.bytes_eq
      have halloc : r.2.slotBytes = m.a.slotBytes + r.1.2 := hok.bytes_eq
      omega

/-- The first allocation of a 16 KiB heap commits its only extent. -/
theorem history_slotAlloc_first :
    let r := slotAlloc smallHeap (storeInit smallHeap) 100
    r.1.1 ≠ slotNone ∧ Chosen smallHeap (storeInit smallHeap) 1 r.2 (r.1.1 / smallHeap.extGrains) := by
  have hne : (slotAlloc smallHeap (storeInit smallHeap) 100).1.1 ≠ slotNone := by decide
  exact ⟨hne, ((history_slotAlloc (n := 100) .init (by decide) (by decide)).2.2 hne).2.1⟩

/-! ## Which slot of the extent -/

/-- What happens to the extents, one call at a time: `ext_init` hands the first free extent to
any class, `ext_take` takes a slot of any used extent with room (`slot_alloc` then adds to
`g_slot_bytes`), and `slot_free` gives a handed-out grain back. -/
inductive ExtentHistory (H : Heap) : Alloc → Prop
  | init : ExtentHistory H (storeInit H)
  | commit {a : Alloc} {c : ℕ} : ExtentHistory H a → a.freeHead ≠ extNone → c < 64 →
      ExtentHistory H (commitExtent H a c)
  | take {a : Alloc} {e sz : ℕ} : ExtentHistory H a → e < H.nExtents → (a.ext e).used = true →
      0 < (a.ext e).nfree → ExtentHistory H { (extTake H a e).2 with slotBytes := sz }
  | free {a : Alloc} {g : ℕ} : ExtentHistory H a → Live H a g →
      ExtentHistory H (slotFree H a g).2

/-- Extents with room are well formed whether they belong to a class or have been recycled;
the others have no words below `hint` unless they are in use. -/
def Ready (H : Heap) (a : Alloc) : Prop :=
  ∀ e < H.nExtents, ExtentWf H (a.ext e).toExtentBody (a.bm e) ∨
    (a.ext e).nfree = 0 ∧ (a.ext e).hint = 0

theorem Ready.else {a' : Alloc} (h : Ready H a) (helse : SameElse a a' e)
    (hwf : ExtentWf H (a'.ext e).toExtentBody (a'.bm e)) : Ready H a' := by
  intro x hx
  by_cases hxe : x = e
  · subst hxe
    exact .inl hwf
  · obtain ⟨hb, hm⟩ := helse x hxe
    rw [hb, hm]
    exact h x hx

/-- One call at a time: each keeps the lists well formed and the extents ready. -/
theorem ExtentHistory.ready (h : ExtentHistory H a) : (∃ ls, Wf H a ls) ∧ Ready H a := by
  induction h with
  | init =>
      refine ⟨(storeInit_inv H).1.wf, fun e _ => .inr ?_⟩
      rw [(storeInit_lists H).2 e]
      exact ⟨rfl, rfl⟩
  | @commit a c _ hf hc ih =>
      obtain ⟨⟨ls, hw⟩, hr⟩ := ih
      obtain ⟨-, -, hwf, helse, hbody, hbits⟩ := commitExtent_spec hw hf hc
      refine ⟨hwf, hr.else helse ?_⟩
      rw [hbody]
      exact fresh_wf hc hbits
  | @take a e sz _ he hu hn ih =>
      obtain ⟨⟨ls, hw⟩, hr⟩ := ih
      obtain ⟨slot, hs, hclear, hfirst, -, ⟨ls', hw'⟩, helse, hbody, hbits⟩ :=
        extTake_spec hw he hu hn
      refine ⟨⟨ls', hw'.lists, hw'.mem_free, hw'.mem_part, hw'.extent⟩, hr.else helse ?_⟩
      show ExtentWf H ((extTake H a e).2.ext e).toExtentBody ((extTake H a e).2.bm e)
      rw [hbody]
      exact taken_wf (hw.extent e he hu) hs hclear hfirst hbits
  | @free a g _ hg ih =>
      obtain ⟨⟨ls, hw⟩, hr⟩ := ih
      obtain ⟨e, slot, he, hu, hs, hb, hgr⟩ := hw.live_iff.mp hg
      obtain ⟨-, hwf, helse, hbody, hbits, -⟩ := slotFree_spec hw he hu hs hb hgr
      refine ⟨hwf, hr.else helse ?_⟩
      rw [hbody]
      exact freed_wf (hw.extent e he hu) hs hb hbits

theorem ExtentHistory.pick (h : ExtentHistory H a) (hc : c < 64) :
    ExtentHistory H (pickExtent H a c).2 := by
  rcases pickExtent_cases H a c with ⟨-, hp⟩ | ⟨-, hfr, hp⟩ | ⟨-, d, -, -, -, -, hp⟩ | ⟨-, -, hp⟩
  · rwa [hp]
  · rw [hp]
    exact h.commit hfr hc
  · rwa [hp]
  · rwa [hp]

theorem ExtentHistory.alloc (h : ExtentHistory H a) (hi : Inv H a) (hn : 1 ≤ n) (hn' : n ≤ 4096) :
    ExtentHistory H (slotAlloc H a n).2 := by
  have hc : (n - 1) / 64 < 64 := by omega
  rcases hi.pickExtent_spec hc with ⟨he, -⟩ | ⟨hne, hpick⟩
  · simp only [slotAlloc, he, ne_eq, not_true_eq_false, if_false]
    exact h.pick hc
  · have htake := hi.extTake_ne_none hc hne
    simp only [slotAlloc, ne_eq, hne, htake, not_false_eq_true, if_true]
    exact (h.pick hc).take hpick.lt hpick.used hpick.room

/-- The calls that `slot_alloc` and `slot_free` make are such a sequence. -/
theorem History.extents (h : History H ms) : ∀ m ms', ms = m :: ms' → ExtentHistory H m.a := by
  induction h with
  | init =>
      rintro m ms' ⟨rfl, rfl⟩
      exact .init
  | @alloc m ms n hm hn hn' ih =>
      rintro m' ms' ⟨rfl, rfl⟩
      exact (ih m ms rfl).alloc hm.good_head.1.inv hn hn'
  | @free m ms g hm hg ih =>
      rintro m' ms' ⟨rfl, rfl⟩
      exact (ih m ms rfl).free (hm.good_head.1.live_iff.mpr hg)

/-- The slot a plain scan from bit 0 finds: the first clear bit below `n`. -/
def plainScan (bm : ℕ → BitVec 64) (n : ℕ) : Option ℕ := (List.range n).find? fun i => !bit bm i

theorem plainScan_eq {bm : ℕ → BitVec 64} {k : ℕ} (hn : k < n) (hc : bit bm k = false)
    (hb : ∀ j < k, bit bm j = true) : plainScan bm n = some k := by
  rw [plainScan, List.find?_range_eq_some]
  exact ⟨by simp [hc], List.mem_range.mpr hn, fun j hj => by simp [hb j hj]⟩

/-- **The hinted scan is first fit.** After every sequence of `ext_init`, `ext_take` and
`slot_free` calls: every word below the hint of an extent is full, and for an extent with room
`ext_take` returns the slot that a plain scan from bit 0 returns, the lowest free one, found
at or above the hint without wrapping around. -/
theorem extent_first_fit (h : ExtentHistory H a) (he : e < H.nExtents) :
    (∀ w < (a.ext e).hint, a.bm e w = BitVec.allOnes 64) ∧
    (0 < (a.ext e).nfree → ∃ slot,
      plainScan (a.bm e) (a.ext e).nslots = some slot ∧
      (∀ j, j < (a.ext e).nslots → bit (a.bm e) j = false → slot ≤ j) ∧
      (extTake H a e).1 = e * H.extGrains + slot * ((a.ext e).cls + 1) ∧
      scanWords (a.bm e) H.extBmwords (a.ext e).hint H.extBmwords 0 = some (slot / 64) ∧
      (a.ext e).hint ≤ slot / 64) := by
  rcases h.ready.2 e he with hx | ⟨hz, hh⟩
  · refine ⟨hx.hint_full, fun hn => ?_⟩
    obtain ⟨slot, hscan, hhint, hs, hclear, hfirst, hgr⟩ := extTake_fst hx he hn
    refine ⟨slot, plainScan_eq hs hclear hfirst, fun j _ hj => ?_, hgr, hscan, hhint⟩
    by_contra hlt
    have := hfirst j (by omega)
    simp [hj] at this
  · refine ⟨fun w hw => ?_, fun hn => ?_⟩
    · omega
    · omega

/-- The state after the first `slot_alloc(100)` of a 16 KiB heap: the next slot is number 1. -/
theorem extent_first_fit_second :
    let a := (slotAlloc smallHeap (storeInit smallHeap) 100).2
    0 < (a.ext 0).nfree ∧ ∃ slot, plainScan (a.bm 0) (a.ext 0).nslots = some slot ∧
      (extTake smallHeap a 0).1 = 0 * smallHeap.extGrains + slot * ((a.ext 0).cls + 1) := by
  have hh : ExtentHistory smallHeap (slotAlloc smallHeap (storeInit smallHeap) 100).2 :=
    ExtentHistory.init.alloc (storeInit_inv smallHeap).1 (by decide) (by decide)
  have hn : 0 < ((slotAlloc smallHeap (storeInit smallHeap) 100).2.ext 0).nfree := by decide
  obtain ⟨slot, h1, -, h3, -⟩ := (extent_first_fit (e := 0) hh (by decide)).2 hn
  exact ⟨hn, slot, h1, h3⟩

end Alloc

end NbdVram
