import NbdVram.AllocSpec

/-!
# Histories of the allocator

A history starts with `store_init` and continues with any calls of `slot_alloc`
for 1 to 4096 bytes, successful or not, and of `slot_free` for grains that were
handed out and not yet given back. The ghost field `out` remembers, for each such
grain, the number of bytes that `slot_alloc` reported.
-/

namespace NbdVram

open LinkedArray Bitmap

namespace Alloc

structure Moment where
  a : Alloc
  out : ℕ → Option ℕ

/-- `slot_alloc`, recording what it hands out. -/
def Moment.alloc (H : Heap) (m : Moment) (n : ℕ) : Moment :=
  let r := slotAlloc H m.a n
  ⟨r.2, if r.1.1 = slotNone then m.out else Function.update m.out r.1.1 (some r.1.2)⟩

/-- `slot_free`, striking the grain out. -/
def Moment.free (H : Heap) (m : Moment) (g : ℕ) : Moment :=
  ⟨(slotFree H m.a g).2, Function.update m.out g none⟩

/-- The moments of a history, newest first. -/
inductive History (H : Heap) : List Moment → Prop
  | init : History H [⟨storeInit H, fun _ => none⟩]
  | alloc {m : Moment} {ms : List Moment} {n : ℕ} : History H (m :: ms) → 1 ≤ n → n ≤ 4096 →
      History H (m.alloc H n :: m :: ms)
  | free {m : Moment} {ms : List Moment} {g : ℕ} : History H (m :: ms) → m.out g ≠ none →
      History H (m.free H g :: m :: ms)

/-- The largest `g_extents_used` of a history. -/
def peakOf : List Moment → ℕ
  | [] => 0
  | m :: ms => max m.a.extentsUsed (peakOf ms)

/-- What every moment of a history keeps. -/
structure Moment.Good (H : Heap) (m : Moment) : Prop where
  inv : Inv H m.a
  out_iff : ∀ g sz, m.out g = some sz ↔ Live H m.a g ∧ sz = slotSize H m.a g

variable {H : Heap} {m : Moment} {ms : List Moment} {g n : ℕ}

theorem Moment.Good.live_iff (h : m.Good H) : Live H m.a g ↔ m.out g ≠ none := by
  rw [Option.ne_none_iff_exists']
  constructor
  · exact fun hl => ⟨_, (h.out_iff g _).mpr ⟨hl, rfl⟩⟩
  · rintro ⟨sz, hsz⟩
    exact ((h.out_iff g sz).mp hsz).1

theorem Moment.Good.alloc (h : m.Good H) (hn : 1 ≤ n) (hn' : n ≤ 4096) : (m.alloc H n).Good H := by
  rcases slotAlloc_spec h.inv hn hn' with ⟨hr, ha, -, -⟩ | hok
  · have he : m.alloc H n = m := by
      simp only [Moment.alloc, hr, ha, if_true]
    rw [he]
    exact h
  · refine ⟨hok.inv, fun g sz => ?_⟩
    simp only [Moment.alloc, if_neg hok.ne_none]
    by_cases hg : g = (slotAlloc H m.a n).1.1
    · subst hg
      rw [Function.update_self, hok.live, ← hok.size_eq, Option.some.injEq]
      simp only [or_true, true_and, eq_comm]
    · rw [Function.update_of_ne hg, h.out_iff, hok.live]
      simp only [hg, or_false]
      refine and_congr_right fun hl => ?_
      rw [hok.sizes g hl]

theorem Moment.Good.free (h : m.Good H) (hg : m.out g ≠ none) : (m.free H g).Good H := by
  have hf := slotFree_live h.inv (h.live_iff.mpr hg)
  refine ⟨hf.inv, fun g' sz => ?_⟩
  simp only [Moment.free]
  by_cases hgg : g' = g
  · subst hgg
    simp [Function.update_self, hf.live]
  · rw [Function.update_of_ne hgg, h.out_iff, hf.live]
    simp only [hgg, ne_eq, not_false_eq_true, and_true]
    refine and_congr_right fun hl => ?_
    rw [hf.sizes g' ((hf.live g').mpr ⟨hl, hgg⟩)]

/-- Every moment is good, and `g_extents_peak` is the largest `g_extents_used` so far. -/
theorem History.good (h : History H ms) :
    ∀ m ms', ms = m :: ms' → m.Good H ∧ m.a.extentsPeak = peakOf ms := by
  induction h with
  | init =>
      rintro m ms' ⟨rfl, rfl⟩
      obtain ⟨hi, hl⟩ := storeInit_inv H
      exact ⟨⟨hi, fun g sz => by simp [hl g]⟩, rfl⟩
  | @alloc m ms n hm hn hn' ih =>
      rintro m' ms' ⟨rfl, rfl⟩
      obtain ⟨hgood, hpk⟩ := ih m ms rfl
      refine ⟨hgood.alloc hn hn', ?_⟩
      have hle : m.a.extentsUsed ≤ m.a.extentsPeak := by
        rw [hpk]
        exact le_max_left _ _
      show (slotAlloc H m.a n).2.extentsPeak = max (slotAlloc H m.a n).2.extentsUsed _
      rcases slotAlloc_spec hgood.inv hn hn' with ⟨-, ha, -, -⟩ | hok
      · rw [ha, ← hpk, max_eq_right hle]
      · rw [hok.peak_eq hle, ← hpk, max_comm]
  | @free m ms g hm hg ih =>
      rintro m' ms' ⟨rfl, rfl⟩
      obtain ⟨hgood, hpk⟩ := ih m ms rfl
      refine ⟨hgood.free hg, ?_⟩
      have hf := slotFree_live hgood.inv (hgood.live_iff.mpr hg)
      have hle : m.a.extentsUsed ≤ m.a.extentsPeak := by
        rw [hpk]
        exact le_max_left _ _
      show (slotFree H m.a g).2.extentsPeak = max (slotFree H m.a g).2.extentsUsed _
      rw [hf.peak_eq, ← hpk, max_eq_right (hf.used_le.trans hle)]

theorem History.good_head (h : History H (m :: ms)) :
    m.Good H ∧ m.a.extentsPeak = peakOf (m :: ms) :=
  h.good m ms rfl

/-- A committed extent has a slot handed out, and only a committed extent has. -/
theorem Inv.used_iff {a : Alloc} (h : Inv H a) {e : ℕ} (he : e < H.nExtents) :
    (a.ext e).used = true ↔ ∃ g, Live H a g ∧ g / H.extGrains = e := by
  obtain ⟨ls, hw⟩ := h.wf
  constructor
  · intro hu
    have hx := hw.extent e he hu
    have hlt := h.nonempty e he hu
    -- not every bit below `nslots` is clear, as the free count is short of it
    obtain ⟨i, hi, hb⟩ : ∃ i < (a.ext e).nslots, bit (a.bm e) i = true := by
      by_contra hall
      push Not at hall
      have hcl : clearBits (a.bm e) (a.ext e).nslots = (a.ext e).nslots :=
        clearBits_eq_self.mpr fun i hi => by simpa using hall i hi
      have := hx.nfree_eq
      omega
    have hl := (hw.live_grainAt he hu hi).mpr hb
    exact ⟨_, hl, (hw.grainAt_decode he hu hi).1⟩
  · rintro ⟨g, hg, rfl⟩
    exact hg.2.1

theorem Moment.Good.used_iff (h : m.Good H) {e : ℕ} (he : e < H.nExtents) :
    (m.a.ext e).used = true ↔ ∃ g, m.out g ≠ none ∧ g / H.extGrains = e := by
  simp only [h.inv.used_iff he, h.live_iff]

/-- `sz` bytes from grain `g` on lie inside one extent, and inside the heap. -/
structure InExtent (H : Heap) (g sz : ℕ) : Prop where
  lo : H.extentSize * (g / H.extGrains) ≤ g * 64
  hi : g * 64 + sz ≤ H.extentSize * (g / H.extGrains + 1)
  heap : g * 64 + sz ≤ H.nExtents * H.extentSize

/-- The byte ranges of two slots have nothing in common. -/
def Apart (g sz g' sz' : ℕ) : Prop := g * 64 + sz ≤ g' * 64 ∨ g' * 64 + sz' ≤ g * 64

theorem Moment.Good.inExtent {sz : ℕ} (h : m.Good H) (hg : m.out g = some sz) :
    InExtent H g sz := by
  obtain ⟨hl, rfl⟩ := (h.out_iff g sz).mp hg
  obtain ⟨ls, hw⟩ := h.inv.wf
  obtain ⟨h1, h2, h3⟩ := hw.live_range hl
  exact ⟨h1, h2, h3⟩

theorem Moment.Good.apart {g' sz sz' : ℕ} (h : m.Good H) (hg : m.out g = some sz)
    (hg' : m.out g' = some sz') (hne : g ≠ g') : Apart g sz g' sz' := by
  obtain ⟨hl, rfl⟩ := (h.out_iff g sz).mp hg
  obtain ⟨hl', rfl⟩ := (h.out_iff g' sz').mp hg'
  obtain ⟨ls, hw⟩ := h.inv.wf
  exact hw.live_disjoint hl hl' hne

/-- What a successful `slot_alloc` hands out. -/
theorem Moment.Good.alloc_out (h : m.Good H) (hn : 1 ≤ n) (hn' : n ≤ 4096)
    (hok : (slotAlloc H m.a n).1.1 ≠ slotNone) :
    (m.alloc H n).out (slotAlloc H m.a n).1.1 = some (slotAlloc H m.a n).1.2 ∧
      n ≤ (slotAlloc H m.a n).1.2 ∧ m.out (slotAlloc H m.a n).1.1 = none := by
  rcases slotAlloc_spec h.inv hn hn' with ⟨hr, -⟩ | ha
  · exact absurd (by rw [hr]) hok
  · refine ⟨?_, ha.size_ge, ?_⟩
    · simp only [Moment.alloc, if_neg hok, Function.update_self]
    · by_contra hne
      exact ha.fresh (h.live_iff.mpr hne)

/-- `ext_take` finds a slot in whatever extent `slot_alloc` settles on. -/
theorem Inv.extTake_ne_none {a : Alloc} (h : Inv H a) {c : ℕ} (hc : c < 64)
    (hp : (pickExtent H a c).1 ≠ extNone) :
    (extTake H (pickExtent H a c).2 (pickExtent H a c).1).1 ≠ slotNone := by
  rcases h.pickExtent_spec hc with ⟨he, -⟩ | ⟨-, hpick⟩
  · exact absurd he hp
  · obtain ⟨ls, hw⟩ := hpick.wf
    obtain ⟨slot, hs, -, -, hg, ⟨ls', hw'⟩, -, hbody, hbits⟩ :=
      extTake_spec hw hpick.lt hpick.used hpick.room
    have hle := (hw.grainAt_decode hpick.lt hpick.used hs).2.2.2
    have h1 := H.grains_lt
    have h2 : ((pickExtent H a c).1 + 1) * H.extGrains ≤ H.nExtents * H.extGrains :=
      Nat.mul_le_mul_right _ hpick.lt
    rw [hg]
    unfold slotNone
    rw [Nat.add_mul] at h2 hle
    omega

/-- **The allocator's representation invariant.** After every operation of every history:
well-formed disjoint lists, whose membership is what the extent's record says; free counts,
bitmaps and hints that agree; `ext_take` always finds its slot; and exact extent counters. -/
theorem history_representation (h : History H (m :: ms)) :
    (∃ ls : Option ℕ → List ℕ,
      (∀ k, IsList m.a.nextOf m.a.prevOf extNone (m.a.head k) (ls k)) ∧
      (∀ k k', k ≠ k' → List.Disjoint (ls k) (ls k')) ∧
      (∀ k, ∀ e ∈ ls k, e < H.nExtents) ∧
      ∀ e < H.nExtents,
        (e ∈ ls none ↔ (m.a.ext e).used = false) ∧
        (∀ c, e ∈ ls (some c) ↔
          (m.a.ext e).used = true ∧ (m.a.ext e).cls = c ∧ 0 < (m.a.ext e).nfree) ∧
        ((∀ k, e ∉ ls k) ↔ (m.a.ext e).used = true ∧ (m.a.ext e).nfree = 0)) ∧
    (∀ e < H.nExtents, (m.a.ext e).used = true →
      (m.a.ext e).cls < 64 ∧ (m.a.ext e).nslots = H.extentSize / (((m.a.ext e).cls + 1) * 64) ∧
      (m.a.ext e).nfree < (m.a.ext e).nslots ∧
      (m.a.ext e).nfree = clearBits (m.a.bm e) (m.a.ext e).nslots ∧
      (∀ i, (m.a.ext e).nslots ≤ i → bit (m.a.bm e) i = true) ∧
      (m.a.ext e).hint < H.extBmwords) ∧
    (∀ n, 1 ≤ n → n ≤ 4096 → (pickExtent H m.a ((n - 1) / 64)).1 ≠ extNone →
      (extTake H (pickExtent H m.a ((n - 1) / 64)).2 (pickExtent H m.a ((n - 1) / 64)).1).1 ≠
        slotNone) ∧
    m.a.extentsUsed =
      Set.ncard {e | e < H.nExtents ∧ ∃ g, m.out g ≠ none ∧ g / H.extGrains = e} ∧
    m.a.extentsPeak = peakOf (m :: ms) := by
  obtain ⟨hgood, hpk⟩ := h.good_head
  obtain ⟨ls, hw⟩ := hgood.inv.wf
  refine ⟨⟨ls, hw.lists.isList, fun k k' hk e he he' => hk (hw.lists.disjoint he he'),
    fun k e he => ?_, fun e he => ⟨?_, fun c => ?_, ?_⟩⟩, fun e he hu => ?_, ?_, ?_, hpk⟩
  · cases k with
    | none => exact ((hw.mem_free e).mp he).1
    | some c => exact ((hw.mem_part c e).mp he).1
  · simp only [hw.mem_free, he, true_and]
  · simp only [hw.mem_part, he, true_and]
  · -- on no list: neither free nor partial
    constructor
    · intro hno
      have h1 := mt (hw.mem_free e).mpr (hno none)
      have h2 := mt (hw.mem_part (m.a.ext e).cls e).mpr (hno (some _))
      simp only [he, true_and, Bool.not_eq_false] at h1
      simp only [he, h1, true_and, not_lt, Nat.le_zero] at h2
      exact ⟨h1, h2⟩
    · rintro ⟨hu, hz⟩ k hk
      cases k with
      | none => simp [hw.mem_free, hu] at hk
      | some c => simp [hw.mem_part, hz] at hk
  · have hx := hw.extent e he hu
    exact ⟨hx.cls_lt, hx.nslots_eq, hgood.inv.nonempty e he hu, hx.nfree_eq, hx.tail_set, hx.hint_lt⟩
  · exact fun n hn hn' hp => hgood.inv.extTake_ne_none (by omega) hp
  · rw [hgood.inv.used_eq, ← Set.ncard_coe_finset]
    congr 1
    ext e
    simp only [usedSet, Finset.coe_filter, Finset.mem_range, Set.mem_ofPred_eq]
    exact and_congr_right hgood.used_iff

/-- A first slot taken: the representation invariant after `slot_alloc(100)`. -/
theorem history_representation_first :
    let m : Moment := ⟨storeInit smallHeap, fun _ => none⟩
    (m.alloc smallHeap 100).a.extentsPeak = peakOf [m.alloc smallHeap 100, m] :=
  (history_representation (.alloc .init (by decide) (by decide))).2.2.2.2

end Alloc

end NbdVram
