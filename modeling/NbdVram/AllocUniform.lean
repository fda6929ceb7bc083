import NbdVram.Accounts
import NbdVram.AllocChoice

/-!
# A heap that serves one size class

Extents are given to size classes, and a free slot of one class is of no use to a
larger one: this is how a heap comes to refuse an allocation while it has room.
When all slots belong to one class nothing of the kind can happen. Every extent is
free or of that class, so `slot_alloc` fails only when every slot of every extent is
handed out, whatever was allocated and freed before, and in which order.
-/

namespace NbdVram

namespace Alloc

open Bitmap

variable {H : Heap} {a : Alloc} {ls : Option ℕ → List ℕ} {m : Moment} {ms : List Moment}
  {c e g n : ℕ}

/-- All slots handed out are of class `c`. -/
def Uniform (H : Heap) (a : Alloc) (c : ℕ) : Prop :=
  ∀ g, Live H a g → slotSize H a g = (c + 1) * 64

/-- The number of slots that the whole heap has in class `c`. -/
def capacity (H : Heap) (c : ℕ) : ℕ := H.nExtents * H.slots c

theorem Uniform.init (c : ℕ) : Uniform H (storeInit H) c := by
  intro g hg
  exact absurd hg ((storeInit_inv H).2 g)

/-- A used extent of a uniform heap is of its class. -/
theorem Uniform.cls (hu : Uniform H a c) (h : Inv H a) (he : e < H.nExtents)
    (hused : (a.ext e).used = true) : (a.ext e).cls = c := by
  obtain ⟨g, hg, rfl⟩ := (h.used_iff he).mp hused
  have := hu g hg
  unfold slotSize at this
  omega

/-- A slot taken for the class belongs to the class. -/
theorem Uniform.alloc (hu : Uniform H a c) (h : Inv H a) (hc : c < 64) (hn : (n - 1) / 64 = c)
    {sz : ℕ} {a' : Alloc} (hok : Allocated H a n g sz a') : Uniform H a' c := by
  have hch := hok.chosen h (by omega)
  rw [hn] at hch
  -- the extent the slot comes from: one of the class, else a fresh one
  have hcls : (a'.ext (g / H.extGrains)).cls = c := by
    by_cases hown : ∃ x, PartialExtent H a c x
    · obtain ⟨he, hused, hcls, -⟩ := hch.own hown
      obtain ⟨g', hg', hext⟩ := (h.used_iff he).mp hused
      have hsz := hok.sizes g' hg'
      unfold slotSize at hsz
      rw [hext] at hsz
      omega
    · push Not at hown
      by_cases hfree : ∃ x, FreeExtent H a x
      · exact (hch.commits hown hfree).2.2
      · push Not at hfree
        obtain ⟨d, hd, ⟨he, hused, hcls, -⟩, -⟩ := hch.borrows hown hfree
        have := hu.cls h he hused
        omega
  intro g' hg'
  rcases (hok.live g').mp hg' with hl | rfl
  · rw [hok.sizes g' hl]
    exact hu g' hl
  · rw [slotSize, hcls]

theorem Uniform.free (hu : Uniform H a c) (h : Inv H a) (hg : Live H a g) :
    Uniform H (slotFree H a g).2 c := by
  have hf := slotFree_live h hg
  intro g' hg'
  rw [hf.sizes g' hg']
  exact hu g' ((hf.live g').mp hg').1

/-- The slots handed out by one extent. -/
theorem Wf.fiber_card (h : Wf H a ls) (he : e < H.nExtents) (hused : (a.ext e).used = true) :
    ((liveSet H a).filter fun g => g / H.extGrains = e).card =
      ((Finset.range (a.ext e).nslots).filter fun i => bit (a.bm e) i = true).card := by
  rw [h.fiber he hused]
  refine Finset.card_image_of_injOn fun i _ j _ hij => ?_
  have hpos : 0 < (a.ext e).cls + 1 := Nat.succ_pos _
  simpa [grainAt] using hij

/-- All grains handed out, extent by extent. -/
theorem Wf.card_liveSet (h : Wf H a ls) : (liveSet H a).card =
    ∑ e ∈ Finset.range H.nExtents, ((liveSet H a).filter fun g => g / H.extGrains = e).card := by
  refine Finset.card_eq_sum_card_fiberwise fun g hg => ?_
  exact Finset.mem_coe.mpr (Finset.mem_range.mpr (h.mem_liveSet.mp hg).1)

/-- A uniform heap hands out no more slots than it has. -/
theorem Uniform.card_le (hu : Uniform H a c) (h : Inv H a) : (liveSet H a).card ≤ capacity H c := by
  obtain ⟨ls, hw⟩ := h.wf
  rw [hw.card_liveSet, capacity]
  refine (Finset.sum_le_card_nsmul (Finset.range H.nExtents) _ (H.slots c) fun e he => ?_).trans ?_
  · have he := Finset.mem_range.mp he
    by_cases hused : (a.ext e).used = true
    · rw [hw.fiber_card he hused, ← hu.cls h he hused, ← hw.nslots_eq he hused]
      exact (Finset.card_filter_le _ _).trans_eq (Finset.card_range _)
    · refine (Finset.card_eq_zero.mpr ?_).trans_le (Nat.zero_le _)
      refine Finset.filter_eq_empty_iff.mpr fun g hg hge => hused ?_
      rw [← hge]
      exact (hw.mem_liveSet.mp hg).2.1
  · rw [Finset.card_range, smul_eq_mul]

/-- **The exact failure condition of a uniform heap**: `slot_alloc` fails if and only if every
slot of every extent is handed out. -/
theorem Uniform.full_iff (hu : Uniform H a c) (h : Inv H a) (hc : c < 64) (hn : 1 ≤ n)
    (hnc : (n - 1) / 64 = c) :
    (slotAlloc H a n).1.1 = slotNone ↔ (liveSet H a).card = capacity H c := by
  obtain ⟨ls, hw⟩ := h.wf
  have hn' : n ≤ 4096 := by omega
  constructor
  · intro hfail
    obtain ⟨hnofree, hnopart⟩ := (slotAlloc_none_iff h hn hn').mp hfail
    rw [hnc] at hnopart
    rw [hw.card_liveSet, capacity, Finset.sum_congr rfl (g := fun _ => H.slots c)]
    · rw [Finset.sum_const, Finset.card_range, smul_eq_mul]
    · intro e he
      have he := Finset.mem_range.mp he
      have hused : (a.ext e).used = true := by
        by_contra hno
        exact hnofree e ⟨he, by simpa using hno⟩
      have hcls := hu.cls h he hused
      -- no bit of an extent of the class is clear
      have hall : ∀ i < (a.ext e).nslots, bit (a.bm e) i = true := by
        intro i hi
        by_contra hclear
        exact hnopart c e le_rfl ⟨he, hused, hcls, i, hi, by simpa using hclear⟩
      rw [hw.fiber_card he hused, Finset.filter_true_of_mem fun i hi => hall i (Finset.mem_range.mp hi),
        Finset.card_range, hw.nslots_eq he hused, hcls]
  · intro hcard
    rcases slotAlloc_spec h hn hn' with ⟨hr, -⟩ | hok
    · rw [hr]
    · -- one more slot would be one too many
      exfalso
      obtain ⟨ls', hw'⟩ := hok.inv.wf
      have hle := (hu.alloc h hc hnc hok).card_le hok.inv
      have hins : liveSet H (slotAlloc H a n).2 = insert (slotAlloc H a n).1.1 (liveSet H a) := by
        ext g'
        rw [hw'.mem_liveSet, Finset.mem_insert, hw.mem_liveSet, hok.live, or_comm]
      rw [hins, Finset.card_insert_of_notMem (fun hg => hok.fresh (hw.mem_liveSet.mp hg))] at hle
      omega

/-! ## Histories -/

/-- The histories in which every call of `slot_alloc` is for class `c`. -/
inductive ClassHistory (H : Heap) (c : ℕ) : List Moment → Prop
  | init : ClassHistory H c [⟨storeInit H, fun _ => none⟩]
  | alloc {m : Moment} {ms : List Moment} {n : ℕ} : ClassHistory H c (m :: ms) → 1 ≤ n → n ≤ 4096 →
      (n - 1) / 64 = c → ClassHistory H c (m.alloc H n :: m :: ms)
  | free {m : Moment} {ms : List Moment} {g : ℕ} : ClassHistory H c (m :: ms) → m.out g ≠ none →
      ClassHistory H c (m.free H g :: m :: ms)

theorem ClassHistory.history (h : ClassHistory H c ms) : History H ms := by
  induction h with
  | init => exact .init
  | alloc _ hn hn' _ ih => exact ih.alloc hn hn'
  | free _ hg ih => exact ih.free hg

theorem ClassHistory.uniform (h : ClassHistory H c ms) :
    ∀ m ms', ms = m :: ms' → Uniform H m.a c := by
  induction h with
  | init =>
      rintro m ms' ⟨rfl, rfl⟩
      exact .init c
  | @alloc m ms n hm hn hn' hc ih =>
      rintro m' ms' ⟨rfl, rfl⟩
      have hi := hm.history.good_head.1.inv
      have hu := ih m ms rfl
      rcases slotAlloc_spec hi hn hn' with ⟨-, ha, -, -⟩ | hok
      · show Uniform H (slotAlloc H m.a n).2 c
        rw [ha]
        exact hu
      · exact hu.alloc hi (by omega) hc hok
  | @free m ms g hm hg ih =>
      rintro m' ms' ⟨rfl, rfl⟩
      have hgood := hm.history.good_head.1
      exact (ih m ms rfl).free hgood.inv (hgood.live_iff.mpr hg)

/-- **One size class leaves no gaps.** In every history whose allocations all fall into one class,
however frees are mixed in, `slot_alloc` fails if and only if as many slots are out as the heap
has in that class: `nExtents` times the slots of one extent. -/
theorem class_history_full (h : ClassHistory H c (m :: ms)) (hn : 1 ≤ n) (hn' : n ≤ 4096)
    (hc : (n - 1) / 64 = c) :
    (slotAlloc H m.a n).1.1 = slotNone ↔ {g | m.out g ≠ none}.ncard = H.nExtents * H.slots c := by
  have hgood := h.history.good_head.1
  obtain ⟨ls, hw⟩ := hgood.inv.wf
  have hset : {g | m.out g ≠ none} = ↑(liveSet H m.a) := by
    ext g
    rw [Set.mem_ofPred_eq, Finset.mem_coe, hw.mem_liveSet, hgood.live_iff]
  rw [(h.uniform m ms rfl).full_iff hgood.inv (by omega) hn hc, hset, Set.ncard_coe_finset, capacity]

/-- A heap from which nothing is out is not full. -/
theorem class_history_full_first :
    (slotAlloc smallHeap (storeInit smallHeap) 4096).1.1 ≠ slotNone := by
  have h : ClassHistory smallHeap 63 [⟨storeInit smallHeap, fun _ => none⟩] := .init
  intro hfail
  have := (class_history_full h (n := 4096) (by decide) (by decide) (by decide)).mp hfail
  simp only [ne_eq, not_true_eq_false, Set.ofPred_false, Set.ncard_empty] at this
  exact absurd this (by decide)

end Alloc

end NbdVram
