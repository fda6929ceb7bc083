import NbdVram.AllocInvariant

/-!
# What the allocator promises about grains

`Live` is the set of grains handed out and not yet given back, read off the
bitmaps. `slotAlloc_spec` and `slotFree_live` are all that the block store uses
of the allocator: a fresh live grain with enough room, or an unchanged state; one
live grain less. `Live` slots lie inside one extent and never overlap.
-/

namespace NbdVram

open LinkedArray Bitmap

namespace Alloc

variable {H : Heap} {a a' : Alloc} {ls : Option ℕ → List ℕ} {e c g g' : ℕ}

/-- The grain `g` is the start of a slot that is handed out. -/
def Live (H : Heap) (a : Alloc) (g : ℕ) : Prop :=
  g / H.extGrains < H.nExtents ∧ (a.ext (g / H.extGrains)).used = true ∧
    g % H.extGrains % ((a.ext (g / H.extGrains)).cls + 1) = 0 ∧
    g % H.extGrains / ((a.ext (g / H.extGrains)).cls + 1) < (a.ext (g / H.extGrains)).nslots ∧
    bit (a.bm (g / H.extGrains)) (g % H.extGrains / ((a.ext (g / H.extGrains)).cls + 1)) = true

instance (H : Heap) (a : Alloc) (g : ℕ) : Decidable (Live H a g) :=
  inferInstanceAs (Decidable (_ ∧ _ ∧ _ ∧ _ ∧ _))

/-- The bytes reserved for the slot at `g`: the class comes from the owning extent. -/
def slotSize (H : Heap) (a : Alloc) (g : ℕ) : ℕ := ((a.ext (g / H.extGrains)).cls + 1) * 64

/-- The grain of slot `slot` of extent `e`. -/
def grainAt (H : Heap) (a : Alloc) (e slot : ℕ) : ℕ :=
  e * H.extGrains + slot * ((a.ext e).cls + 1)

theorem Wf.nslots_eq (h : Wf H a ls) (he : e < H.nExtents) (hu : (a.ext e).used = true) :
    (a.ext e).nslots = H.slots (a.ext e).cls :=
  (h.extent e he hu).nslots_eq

theorem Wf.grainAt_decode (h : Wf H a ls) (he : e < H.nExtents) (hu : (a.ext e).used = true)
    {slot : ℕ} (hs : slot < (a.ext e).nslots) :
    grainAt H a e slot / H.extGrains = e ∧
      grainAt H a e slot % H.extGrains = slot * ((a.ext e).cls + 1) ∧
      slot * ((a.ext e).cls + 1) / ((a.ext e).cls + 1) = slot ∧
      (slot + 1) * ((a.ext e).cls + 1) ≤ H.extGrains :=
  grain_decode H (by rw [← h.nslots_eq he hu]; exact hs)

/-- The live grains are the taken slots of the committed extents. -/
theorem Wf.live_iff (h : Wf H a ls) :
    Live H a g ↔ ∃ e slot, e < H.nExtents ∧ (a.ext e).used = true ∧ slot < (a.ext e).nslots ∧
      bit (a.bm e) slot = true ∧ g = grainAt H a e slot := by
  constructor
  · rintro ⟨he, hu, hm, hs, hb⟩
    refine ⟨_, _, he, hu, hs, hb, ?_⟩
    rw [grainAt, Nat.div_mul_cancel (Nat.dvd_of_mod_eq_zero hm), Nat.mul_comm]
    exact (Nat.div_add_mod g H.extGrains).symm
  · rintro ⟨e, slot, he, hu, hs, hb, rfl⟩
    obtain ⟨hd, hm, hq, -⟩ := h.grainAt_decode he hu hs
    simp only [Live, hd, hm, hq]
    exact ⟨he, hu, Nat.mul_mod_left _ _, hs, hb⟩

theorem Wf.live_grainAt (h : Wf H a ls) (he : e < H.nExtents) (hu : (a.ext e).used = true)
    {slot : ℕ} (hs : slot < (a.ext e).nslots) :
    Live H a (grainAt H a e slot) ↔ bit (a.bm e) slot = true := by
  obtain ⟨hd, hm, hq, -⟩ := h.grainAt_decode he hu hs
  simp only [Live, hd, hm, hq, he, hu, hs, Nat.mul_mod_left, true_and]

/-- Liveness of a grain only looks at its own extent. -/
theorem live_congr (hb : (a'.ext (g / H.extGrains)).toExtentBody =
      (a.ext (g / H.extGrains)).toExtentBody)
    (hm : a'.bm (g / H.extGrains) = a.bm (g / H.extGrains)) : Live H a' g ↔ Live H a g := by
  simp only [Live, hb, hm]

theorem slotSize_congr (hb : (a'.ext (g / H.extGrains)).toExtentBody =
      (a.ext (g / H.extGrains)).toExtentBody) : slotSize H a' g = slotSize H a g := by
  simp only [slotSize, hb]

/-- A live slot lies inside its extent, hence inside the heap. -/
theorem Wf.live_range (h : Wf H a ls) (hg : Live H a g) :
    H.extentSize * (g / H.extGrains) ≤ g * 64 ∧
      g * 64 + slotSize H a g ≤ H.extentSize * (g / H.extGrains + 1) ∧
      g * 64 + slotSize H a g ≤ H.nExtents * H.extentSize := by
  obtain ⟨e, slot, he, hu, hs, -, rfl⟩ := h.live_iff.mp hg
  obtain ⟨hd, hm, hq, hle⟩ := h.grainAt_decode he hu hs
  have hg : grainAt H a e slot = e * H.extGrains + slot * ((a.ext e).cls + 1) := rfl
  have hes := H.extentSize_eq
  have hmul : (slot + 1) * ((a.ext e).cls + 1) =
      slot * ((a.ext e).cls + 1) + ((a.ext e).cls + 1) := by ring
  have h1 : H.extentSize * e = 64 * (e * H.extGrains) := by rw [hes]; ring
  have h2 : H.extentSize * (e + 1) = 64 * (e * H.extGrains) + 64 * H.extGrains := by
    rw [hes]; ring
  have h3 : H.extentSize * (e + 1) ≤ H.nExtents * H.extentSize := by
    rw [Nat.mul_comm]
    exact Nat.mul_le_mul_right _ he
  rw [slotSize, hd]
  refine ⟨?_, ?_, ?_⟩ <;> omega

theorem Wf.live_lt (h : Wf H a ls) (hg : Live H a g) : g < 2 ^ 30 := by
  have h1 := (h.live_range hg).2.2
  have h2 := H.grains_lt
  have h3 : H.nExtents * H.extentSize = 64 * (H.nExtents * H.extGrains) := by
    rw [H.extentSize_eq]; ring
  have h4 : 64 ≤ slotSize H a g := by
    unfold slotSize
    omega
  omega

/-- Two live slots never overlap. -/
theorem Wf.live_disjoint (h : Wf H a ls) (hg : Live H a g) (hg' : Live H a g') (hne : g ≠ g') :
    g * 64 + slotSize H a g ≤ g' * 64 ∨ g' * 64 + slotSize H a g' ≤ g * 64 := by
  have hr := h.live_range hg
  have hr' := h.live_range hg'
  rcases Nat.lt_trichotomy (g / H.extGrains) (g' / H.extGrains) with hlt | heq | hgt
  · have := Nat.mul_le_mul_left H.extentSize (show g / H.extGrains + 1 ≤ g' / H.extGrains from hlt)
    exact .inl (by omega)
  · obtain ⟨e, s, he, hu, hs, -, rfl⟩ := h.live_iff.mp hg
    obtain ⟨e', s', he', hu', hs', -, rfl⟩ := h.live_iff.mp hg'
    have hd := (h.grainAt_decode he hu hs).1
    have hd' := (h.grainAt_decode he' hu' hs').1
    have hee : e = e' := by rw [← hd, ← hd']; exact heq
    subst hee
    have hstep : ∀ {s t : ℕ}, s < t →
        s * ((a.ext e).cls + 1) + ((a.ext e).cls + 1) ≤ t * ((a.ext e).cls + 1) := by
      intro s t hst
      have := Nat.mul_le_mul_right ((a.ext e).cls + 1) (show s + 1 ≤ t from hst)
      rwa [Nat.add_mul, Nat.one_mul] at this
    rcases Nat.lt_trichotomy s s' with hlt | rfl | hgt
    · have := hstep hlt
      refine .inl ?_
      rw [slotSize, hd, grainAt, grainAt]
      omega
    · exact absurd rfl hne
    · have := hstep hgt
      refine .inr ?_
      rw [slotSize, hd', grainAt, grainAt]
      omega
  · have := Nat.mul_le_mul_left H.extentSize (show g' / H.extGrains + 1 ≤ g / H.extGrains from hgt)
    exact .inr (by omega)

/-! ## Counting -/

theorem usedSet_else (helse : SameElse a a' e) (he : e < H.nExtents) :
    usedSet H a' = if (a'.ext e).used = true then insert e (usedSet H a)
      else (usedSet H a).erase e := by
  ext x
  by_cases hx : x = e
  · subst hx
    split <;> simp_all [usedSet]
  · have := (helse x hx).1
    split <;> simp [usedSet, this, hx]

theorem slotSum_else (helse : SameElse a a' e) (he : e < H.nExtents) :
    slotSum H a' + bytesOf (a.ext e).toExtentBody =
      slotSum H a + bytesOf (a'.ext e).toExtentBody := by
  have hmem : e ∈ Finset.range H.nExtents := Finset.mem_range.mpr he
  unfold slotSum
  rw [← Finset.add_sum_erase _ _ hmem, ← Finset.add_sum_erase _ (fun x => bytesOf (a.ext x).toExtentBody) hmem]
  have : ∑ x ∈ (Finset.range H.nExtents).erase e, bytesOf (a'.ext x).toExtentBody =
      ∑ x ∈ (Finset.range H.nExtents).erase e, bytesOf (a.ext x).toExtentBody :=
    Finset.sum_congr rfl fun x hx => by rw [(helse x (Finset.ne_of_mem_erase hx)).1]
  rw [this]
  omega

/-! ## Choosing an extent -/

/-- `pickExtent` found extent `ei`, of class at least `c` and with a free slot. At most it has
committed that extent; which grains are live, and their sizes, are as before. -/
structure Picked (H : Heap) (a : Alloc) (c : ℕ) (a' : Alloc) (ei : ℕ) : Prop where
  wf : ∃ ls, Wf H a' ls
  lt : ei < H.nExtents
  used : (a'.ext ei).used = true
  room : 0 < (a'.ext ei).nfree
  cls_ge : c ≤ (a'.ext ei).cls
  live : ∀ g, Live H a' g ↔ Live H a g
  size : ∀ g, Live H a g → slotSize H a' g = slotSize H a g
  nonempty : ∀ x < H.nExtents, x ≠ ei → (a'.ext x).used = true →
    (a'.ext x).nfree < (a'.ext x).nslots
  used_eq : a'.extentsUsed = (usedSet H a').card
  sum_eq : slotSum H a' = slotSum H a
  bytes_eq : a'.slotBytes = a.slotBytes
  peak_eq : a.extentsUsed ≤ a.extentsPeak → a'.extentsPeak = max a.extentsPeak a'.extentsUsed

theorem Inv.picked_self (h : Inv H a) {ei : ℕ} (hlt : ei < H.nExtents)
    (hu : (a.ext ei).used = true) (hr : 0 < (a.ext ei).nfree) (hc : c ≤ (a.ext ei).cls) :
    Picked H a c a ei :=
  ⟨h.wf, hlt, hu, hr, hc, fun _ => Iff.rfl, fun _ _ => rfl, fun x hx _ => h.nonempty x hx,
    h.used_eq, rfl, rfl, fun hp => (max_eq_left hp).symm⟩

theorem Inv.picked_commit (h : Inv H a) (hf : a.freeHead ≠ extNone) (hc : c < 64) :
    Picked H a c (commitExtent H a c) a.freeHead := by
  obtain ⟨ls, hw⟩ := h.wf
  obtain ⟨hlt, hu, hwf', helse, hbody, hbits⟩ := commitExtent_spec hw hf hc
  have hslots := H.slots_ge hc
  -- a fresh extent has no slot taken, and a free one had none either
  have hlive : ∀ g, Live H (commitExtent H a c) g ↔ Live H a g := by
    intro g
    by_cases hg : g / H.extGrains = a.freeHead
    · have h1 : ¬ Live H a g := by
        rintro ⟨-, hu', -⟩
        rw [hg, hu] at hu'
        simp at hu'
      have h2 : ¬ Live H (commitExtent H a c) g := by
        rintro ⟨-, -, -, hs, hb⟩
        rw [hg, hbody] at hs hb
        have hb' := of_decide_eq_true ((hbits _).symm.trans hb)
        have hs' : g % H.extGrains / (c + 1) < H.slots c := hs
        have hb'' : H.slots c ≤ g % H.extGrains / (c + 1) := hb'
        omega
      exact ⟨fun h => absurd h h2, fun h => absurd h h1⟩
    · exact live_congr (helse _ hg).1 (helse _ hg).2
  have huse := usedSet_else helse hlt
  rw [if_pos (by rw [hbody]; rfl)] at huse
  have hnot : a.freeHead ∉ usedSet H a := by simp [usedSet, hu]
  have hcard : (usedSet H (commitExtent H a c)).card = (usedSet H a).card + 1 := by
    rw [huse, Finset.card_insert_of_notMem hnot]
  have hle := usedSet_card_le H (commitExtent H a c)
  have hn := H.nExtents_lt
  have hused : (commitExtent H a c).extentsUsed = a.extentsUsed + 1 := by
    show (a.extentsUsed + 1) % 2 ^ 32 = _
    have := h.used_eq
    exact Nat.mod_eq_of_lt (by omega)
  refine ⟨hwf', hlt, by rw [hbody]; rfl, ?_, by rw [hbody]; exact le_rfl, hlive, ?_, ?_, ?_, ?_,
    rfl, ?_⟩
  · rw [hbody]
    show 0 < H.slots c
    omega
  · intro g hg
    apply slotSize_congr
    refine (helse _ fun heq => ?_).1
    have := hg.2.1
    rw [heq, hu] at this
    simp at this
  · intro x hx hne hxu
    rw [(helse x hne).1] at hxu ⊢
    exact h.nonempty x hx hxu
  · rw [hused, hcard, h.used_eq]
  · have hsum := slotSum_else helse hlt
    have h0 : bytesOf (a.ext a.freeHead).toExtentBody = 0 := by simp [bytesOf, hu]
    have h1 : bytesOf ((commitExtent H a c).ext a.freeHead).toExtentBody = 0 := by
      rw [hbody]
      simp [bytesOf, freshBody]
    omega
  · intro hp
    rw [hused]
    show (if a.extentsPeak < (a.extentsUsed + 1) % 2 ^ 32 then (a.extentsUsed + 1) % 2 ^ 32
      else a.extentsPeak) = _
    have hmod : (a.extentsUsed + 1) % 2 ^ 32 = a.extentsUsed + 1 := hused
    rw [hmod]
    split <;> omega

/-- **The choice of `slot_alloc`.** The class's own partial extent, else a fresh extent, else
the smallest larger class with a partial extent, else nothing. -/
theorem pickExtent_cases (H : Heap) (a : Alloc) (c : ℕ) :
    (a.classHead c ≠ extNone ∧ pickExtent H a c = (a.classHead c, a)) ∨
    (a.classHead c = extNone ∧ a.freeHead ≠ extNone ∧
      pickExtent H a c = (a.freeHead, commitExtent H a c)) ∨
    (a.freeHead = extNone ∧ ∃ d, c < d ∧ d < 64 ∧ a.classHead d ≠ extNone ∧
      (∀ d', c ≤ d' → d' < d → a.classHead d' = extNone) ∧
      pickExtent H a c = (a.classHead d, a)) ∨
    (a.freeHead = extNone ∧ (∀ d, c ≤ d → d < 64 → a.classHead d = extNone) ∧
      pickExtent H a c = (extNone, a)) := by
  by_cases hcl : a.classHead c = extNone
  · by_cases hfr : a.freeHead = extNone
    · -- neither a partial extent of the class nor a fresh one: look at the larger classes
      have hp : pickExtent H a c = ((List.range' (c + 1) (63 - c)).find?
          (fun d => decide (a.classHead d ≠ extNone))).elim (extNone, a)
            fun d => (a.classHead d, a) := by
        simp only [pickExtent, hcl, hfr, ne_eq, not_true_eq_false, and_false, if_false, if_true]
        cases (List.range' (c + 1) (63 - c)).find? _ <;> rfl
      cases hfind : (List.range' (c + 1) (63 - c)).find? fun d => decide (a.classHead d ≠ extNone) with
      | none =>
          rw [hfind] at hp
          refine .inr (.inr (.inr ⟨hfr, ?_, hp⟩))
          intro d hd hd'
          rcases Nat.eq_or_lt_of_le hd with rfl | hlt
          · exact hcl
          · have := List.find?_eq_none.mp hfind d (List.mem_range'_1.mpr ⟨by omega, by omega⟩)
            simpa using this
      | some d =>
          rw [hfind] at hp
          have hd := List.find?_some hfind
          have hm := List.mem_range'_1.mp (List.mem_of_find?_eq_some hfind)
          have hne : a.classHead d ≠ extNone := by simpa using hd
          refine .inr (.inr (.inl ⟨hfr, d, by omega, by omega, hne, ?_, hp⟩))
          intro d' hd' hlt
          rcases Nat.eq_or_lt_of_le hd' with rfl | hgt
          · exact hcl
          · -- the search passed over every class before the one it found
            obtain ⟨-, as, bs, hsplit, hbefore⟩ := List.find?_eq_some_iff_append.mp hfind
            have hmem : d' ∈ List.range' (c + 1) (63 - c) :=
              List.mem_range'_1.mpr ⟨by omega, by omega⟩
            have hsorted : (List.range' (c + 1) (63 - c)).Pairwise (· < ·) :=
              List.pairwise_lt_range'
            rw [hsplit] at hmem hsorted
            rcases List.mem_append.mp hmem with hin | hin
            · simpa using hbefore d' hin
            · rcases List.mem_cons.mp hin with rfl | hin
              · exact absurd hlt (lt_irrefl _)
              · have := (List.pairwise_cons.mp (List.pairwise_append.mp hsorted).2.1).1 d' hin
                omega
    · exact .inr (.inl ⟨hcl, hfr, by simp [pickExtent, hcl, hfr]⟩)
  · exact .inl ⟨hcl, by simp [pickExtent, hcl]⟩

/-- Either there is nothing to take, and nothing has changed, or an extent with room has been
found. -/
theorem Inv.pickExtent_spec (h : Inv H a) (hc : c < 64) :
    ((pickExtent H a c).1 = extNone ∧ (pickExtent H a c).2 = a ∧ a.freeHead = extNone ∧
      ∀ d, c ≤ d → d < 64 → a.classHead d = extNone) ∨
    ((pickExtent H a c).1 ≠ extNone ∧
      Picked H a c (pickExtent H a c).2 (pickExtent H a c).1) := by
  obtain ⟨ls, hw⟩ := h.wf
  have hown : ∀ d, c ≤ d → a.classHead d ≠ extNone → Picked H a c a (a.classHead d) := by
    intro d hd hne
    obtain ⟨h1, h2, h3, h4⟩ := (hw.mem_part d _).mp (hw.classHead_mem hne)
    exact h.picked_self h1 h2 h4 (by omega)
  rcases pickExtent_cases H a c with ⟨hcl, hp⟩ | ⟨-, hfr, hp⟩ | ⟨-, d, hd, -, hne, -, hp⟩ |
    ⟨hfr, hall, hp⟩ <;> rw [hp]
  · exact .inr ⟨hcl, hown c le_rfl hcl⟩
  · exact .inr ⟨hfr, h.picked_commit hfr hc⟩
  · exact .inr ⟨hne, hown d hd.le hne⟩
  · exact .inl ⟨rfl, rfl, hfr, hall⟩

theorem extTake_counters (H : Heap) (a : Alloc) (e : ℕ) :
    (extTake H a e).2.extentsUsed = a.extentsUsed ∧
      (extTake H a e).2.extentsPeak = a.extentsPeak ∧
      (extTake H a e).2.slotBytes = a.slotBytes := by
  simp only [extTake]
  cases scanWords (a.bm e) H.extBmwords (a.ext e).hint H.extBmwords 0 with
  | none => simp only [and_self]
  | some w =>
      by_cases hz : ((a.ext e).nfree + (2 ^ 16 - 1)) % 2 ^ 16 = 0
      · simp only [hz, if_true, and_self]
      · simp only [hz, if_false, and_self]

/-- What a successful `slot_alloc` gives. -/
structure Allocated (H : Heap) (a : Alloc) (n g sz : ℕ) (a' : Alloc) : Prop where
  inv : Inv H a'
  ne_none : g ≠ slotNone
  fresh : ¬ Live H a g
  live : ∀ g', Live H a' g' ↔ Live H a g' ∨ g' = g
  size_eq : sz = slotSize H a' g
  size_ge : n ≤ sz
  size_le : sz ≤ 4096
  sizes : ∀ g', Live H a g' → slotSize H a' g' = slotSize H a g'
  peak_eq : a.extentsUsed ≤ a.extentsPeak → a'.extentsPeak = max a.extentsPeak a'.extentsUsed
  bytes_eq : a'.slotBytes = a.slotBytes + sz
  extent_eq : g / H.extGrains = (pickExtent H a ((n - 1) / 64)).1
  used_eq : ∀ x, (a'.ext x).used = ((pickExtent H a ((n - 1) / 64)).2.ext x).used
  cls_eq : ∀ x, (a'.ext x).cls = ((pickExtent H a ((n - 1) / 64)).2.ext x).cls

/-- The bytes handed out fit the heap, so the 64-bit sum never wraps. -/
theorem Wf.slotSum_le (h : Wf H a ls) : slotSum H a ≤ 2 ^ 36 := by
  have hterm : ∀ e ∈ Finset.range H.nExtents, bytesOf (a.ext e).toExtentBody ≤ H.extentSize := by
    intro e he
    unfold bytesOf
    split
    · rename_i hu
      have hx := h.extent e (Finset.mem_range.mp he) hu
      have h1 : (a.ext e).nslots - (a.ext e).nfree ≤ H.slots (a.ext e).cls := by
        have := hx.nslots_eq
        omega
      have h2 := H.slots_mul_le (a.ext e).cls
      have h3 := H.extentSize_eq
      calc ((a.ext e).nslots - (a.ext e).nfree) * (((a.ext e).cls + 1) * 64)
          ≤ H.slots (a.ext e).cls * (((a.ext e).cls + 1) * 64) := Nat.mul_le_mul_right _ h1
        _ = 64 * (H.slots (a.ext e).cls * ((a.ext e).cls + 1)) := by ring
        _ ≤ H.extentSize := by omega
    · exact Nat.zero_le _
  have hsum := Finset.sum_le_sum hterm
  rw [Finset.sum_const, Finset.card_range, smul_eq_mul] at hsum
  have h1 := H.grains_lt
  have h2 : H.nExtents * H.extentSize = 64 * (H.nExtents * H.extGrains) := by
    rw [H.extentSize_eq]; ring
  unfold slotSum
  omega

/-- **`slot_alloc`.** It either fails and leaves the allocator exactly as it was, with no free
extent and no partial extent of any class that would do, or hands out a fresh slot with
room for the request. -/
theorem slotAlloc_spec (h : Inv H a) {n : ℕ} (hn : 1 ≤ n) (hn' : n ≤ 4096) :
    ((slotAlloc H a n).1 = (slotNone, 0) ∧ (slotAlloc H a n).2 = a ∧ a.freeHead = extNone ∧
      ∀ d, (n - 1) / 64 ≤ d → d < 64 → a.classHead d = extNone) ∨
    Allocated H a n (slotAlloc H a n).1.1 (slotAlloc H a n).1.2 (slotAlloc H a n).2 := by
  have hc : (n - 1) / 64 < 64 := by omega
  unfold slotAlloc
  generalize hc' : (n - 1) / 64 = c at hc
  rcases h.pickExtent_spec hc with ⟨hp, ha, hf, hcl⟩ | ⟨hp, hpick⟩
  · rw [if_neg (by rw [hp]; simp)]
    exact .inl ⟨rfl, ha, hf, hcl⟩
  · generalize hpe : pickExtent H a c = p at hp hpick
    obtain ⟨ei, a₁⟩ := p
    simp only at hp hpick
    simp only [ne_eq, hp, not_false_eq_true, if_true]
    obtain ⟨ls, hw⟩ := hpick.wf
    obtain ⟨slot, hs, hclr, -, hgr, ⟨ls', hwf'⟩, helse, hbody, hbits⟩ :=
      extTake_spec hw hpick.lt hpick.used hpick.room
    obtain ⟨hcu, hcp, hcb⟩ := extTake_counters H a₁ ei
    generalize extTake H a₁ ei = t at hgr hwf' helse hbody hbits hcu hcp hcb
    obtain ⟨gr, a₂⟩ := t
    simp only at hgr hwf' helse hbody hbits hcu hcp hcb
    have hgr' : gr = grainAt H a₁ ei slot := hgr
    obtain ⟨hd, hm, hq, -⟩ := hw.grainAt_decode hpick.lt hpick.used hs
    rw [← hgr'] at hd hm
    have hcls₂ : (a₂.ext ei).cls = (a₁.ext ei).cls := by rw [hbody]; rfl
    have hns₂ : (a₂.ext ei).nslots = (a₁.ext ei).nslots := by rw [hbody]; rfl
    have hu₂ : (a₂.ext ei).used = true := by rw [hbody]; exact hpick.used
    have hgr₂ : gr = grainAt H a₂ ei slot := by rw [hgr', grainAt, grainAt, hcls₂]
    have hlive₂ : Live H a₂ gr := by
      rw [hgr₂, hwf'.live_grainAt hpick.lt hu₂ (by rw [hns₂]; exact hs), hbits]
      simp
    have hlt := hwf'.live_lt hlive₂
    have hne : gr ≠ slotNone := by
      unfold slotNone
      omega
    simp only [hne, not_false_eq_true, if_true]
    have hx := hw.extent ei hpick.lt hpick.used
    have hfresh : ¬ Live H a₁ gr := by
      rw [hgr', hw.live_grainAt hpick.lt hpick.used hs, hclr]
      simp
    have hlive : ∀ g', Live H a₂ g' ↔ Live H a₁ g' ∨ g' = gr := by
      intro g'
      by_cases hg : g' / H.extGrains = ei
      · constructor
        · intro hl
          obtain ⟨e', s', he', hu', hs', hb', rfl⟩ := hwf'.live_iff.mp hl
          have := (hwf'.grainAt_decode he' hu' hs').1
          have hee : e' = ei := by rw [← this]; exact hg
          subst hee
          rw [hbits] at hb'
          simp only [Bool.or_eq_true, decide_eq_true_eq] at hb'
          rcases hb' with rfl | hb'
          · exact .inr hgr₂.symm
          · left
            rw [show grainAt H a₂ e' s' = grainAt H a₁ e' s' from by
              rw [grainAt, grainAt, hcls₂]]
            exact (hw.live_grainAt hpick.lt hpick.used (by rw [← hns₂]; exact hs')).mpr hb'
        · rintro (hl | rfl)
          · obtain ⟨e', s', he', hu', hs', hb', rfl⟩ := hw.live_iff.mp hl
            have := (hw.grainAt_decode he' hu' hs').1
            have hee : e' = ei := by rw [← this]; exact hg
            subst hee
            rw [show grainAt H a₁ e' s' = grainAt H a₂ e' s' from by
              rw [grainAt, grainAt, hcls₂]]
            refine (hwf'.live_grainAt hpick.lt hu₂ (by rw [hns₂]; exact hs')).mpr ?_
            rw [hbits, hb', Bool.or_true]
          · exact hlive₂
      · rw [live_congr (helse _ hg).1 (helse _ hg).2]
        exact ⟨.inl, fun hl => hl.resolve_right fun heq => hg (heq ▸ hd)⟩
    have hsz : ((a₂.ext ei).cls + 1) * 64 = slotSize H a₂ gr := by rw [slotSize, hd]
    have hsz' : bytesOf (a₂.ext ei).toExtentBody =
        bytesOf (a₁.ext ei).toExtentBody + ((a₂.ext ei).cls + 1) * 64 := by
      have hnf : (a₁.ext ei).nfree ≤ (a₁.ext ei).nslots := by
        rw [hx.nfree_eq]
        exact clearBits_le _ _
      have hr := hpick.room
      have hsub : (a₁.ext ei).nslots - ((a₁.ext ei).nfree - 1) =
          (a₁.ext ei).nslots - (a₁.ext ei).nfree + 1 := by omega
      rw [hbody]
      simp only [bytesOf, takenBody, hpick.used, if_true, hsub]
      ring
    have hsum := slotSum_else helse hpick.lt
    have hsumle := hwf'.slotSum_le
    have hpow : (2 : ℕ) ^ 36 < 2 ^ 64 := by decide
    have hbytes : (a₂.slotBytes + ((a₂.ext ei).cls + 1) * 64) % 2 ^ 64 = slotSum H a₂ := by
      rw [hcb, hpick.bytes_eq, h.bytes_eq, ← hpick.sum_eq]
      rw [show slotSum H a₁ + ((a₂.ext ei).cls + 1) * 64 = slotSum H a₂ from by omega]
      exact Nat.mod_eq_of_lt (by omega)
    have huse : usedSet H a₂ = usedSet H a₁ := by
      rw [usedSet_else helse hpick.lt, if_pos hu₂, Finset.insert_eq_self]
      simp [usedSet, hpick.lt, hpick.used]
    right
    refine ⟨⟨⟨ls', hwf'.lists, hwf'.mem_free, hwf'.mem_part, hwf'.extent⟩, ?_, ?_, hbytes⟩, hne,
      fun hl => hfresh ((hpick.live gr).mpr hl), ?_, hsz, ?_, ?_, ?_, ?_, ?_, ?_, ?_, ?_⟩
    · intro x hx' hxu
      by_cases hxe : x = ei
      · subst hxe
        show (a₂.ext x).nfree < (a₂.ext x).nslots
        have hr := hpick.room
        have hnf : (a₁.ext x).nfree ≤ (a₁.ext x).nslots := by
          rw [hx.nfree_eq]
          exact clearBits_le _ _
        rw [hbody]
        simp only [takenBody]
        omega
      · show (a₂.ext x).nfree < (a₂.ext x).nslots
        have hxu' : (a₂.ext x).used = true := hxu
        rw [(helse x hxe).1] at hxu' ⊢
        exact hpick.nonempty x hx' hxe hxu'
    · show a₂.extentsUsed = (usedSet H a₂).card
      rw [huse, hcu, hpick.used_eq]
    · intro g'
      have : Live H a₂ g' ↔ Live H a g' ∨ g' = gr := by rw [hlive, hpick.live]
      exact this
    · show n ≤ ((a₂.ext ei).cls + 1) * 64
      have := hpick.cls_ge
      rw [hcls₂]
      omega
    · show ((a₂.ext ei).cls + 1) * 64 ≤ 4096
      have := hx.cls_lt
      rw [hcls₂]
      omega
    · intro g' hl
      show slotSize H a₂ g' = slotSize H a g'
      rw [← hpick.size g' hl]
      by_cases hg : g' / H.extGrains = ei
      · simp only [slotSize, hg, hcls₂]
      · exact slotSize_congr (helse _ hg).1
    · intro hp'
      show a₂.extentsPeak = max a.extentsPeak a₂.extentsUsed
      rw [hcp, hcu, hpick.peak_eq hp']
    · show (a₂.slotBytes + ((a₂.ext ei).cls + 1) * 64) % 2 ^ 64 = _
      have hsame := hpick.sum_eq
      rw [hbytes, h.bytes_eq]
      omega
    · rw [hc', hpe]
      exact hd
    · intro x
      rw [hc', hpe]
      show (a₂.ext x).used = (a₁.ext x).used
      by_cases hxe : x = ei
      · rw [hxe, hu₂, hpick.used]
      · rw [(helse x hxe).1]
    · intro x
      rw [hc', hpe]
      show (a₂.ext x).cls = (a₁.ext x).cls
      by_cases hxe : x = ei
      · rw [hxe, hcls₂]
      · rw [(helse x hxe).1]

/-! ## Giving a grain back -/

/-- What `slot_free` of a live grain does. -/
structure Freed (H : Heap) (a : Alloc) (g sz : ℕ) (a' : Alloc) : Prop where
  inv : Inv H a'
  size_eq : sz = slotSize H a g
  live : ∀ g', Live H a' g' ↔ Live H a g' ∧ g' ≠ g
  sizes : ∀ g', Live H a' g' → slotSize H a' g' = slotSize H a g'
  peak_eq : a'.extentsPeak = a.extentsPeak
  used_le : a'.extentsUsed ≤ a.extentsUsed
  bytes_eq : a'.slotBytes + sz = a.slotBytes

/-- **`slot_free`.** Freeing a live grain releases exactly that one. -/
theorem slotFree_live (h : Inv H a) (hg : Live H a g) :
    Freed H a g (slotFree H a g).1 (slotFree H a g).2 := by
  obtain ⟨ls, hw⟩ := h.wf
  obtain ⟨e, slot, he, hu, hs, hb, hgr⟩ := hw.live_iff.mp hg
  obtain ⟨hsz, ⟨ls', hwf'⟩, helse, hbody, hbits, hused, hpeak, hbytes⟩ :=
    slotFree_spec hw he hu hs hb hgr
  generalize slotFree H a g = t at hsz hwf' helse hbody hbits hused hpeak hbytes
  obtain ⟨sz, a'⟩ := t
  simp only at hsz hwf' helse hbody hbits hused hpeak hbytes
  obtain ⟨hd, hm, hq, -⟩ := hw.grainAt_decode he hu hs
  rw [← hgr] at hd hm
  have hx := hw.extent e he hu
  have hcls : (a'.ext e).cls = (a.ext e).cls := by rw [hbody]; rfl
  have hns : (a'.ext e).nslots = (a.ext e).nslots := by rw [hbody]; rfl
  have hne := h.nonempty e he hu
  have hslots := H.slots_ge hx.cls_lt
  have hnseq := hx.nslots_eq
  -- an extent that has just become empty has no other slot taken
  have hlast : (a.ext e).nfree + 1 = (a.ext e).nslots → ∀ j < (a.ext e).nslots, j ≠ slot →
      bit (a.bm e) j = false := by
    intro hfull j hj hjs
    have hcount := clearBits_clear hs hb hbits
    have hall : clearBits (a'.bm e) (a.ext e).nslots = (a.ext e).nslots := by
      have := hx.nfree_eq
      omega
    have := clearBits_eq_self.mp hall j hj
    rw [hbits] at this
    simpa [hjs] using this
  have hused' : (a'.ext e).used = true ↔ (a.ext e).nfree + 1 ≠ (a.ext e).nslots := by
    rw [hbody]
    simp [freedBody]
  have hlive : ∀ g', Live H a' g' ↔ Live H a g' ∧ g' ≠ g := by
    intro g'
    by_cases hg' : g' / H.extGrains = e
    · constructor
      · intro hl
        obtain ⟨e', s', he', hu', hs', hb', rfl⟩ := hwf'.live_iff.mp hl
        have hdec := hwf'.grainAt_decode he' hu' hs'
        have hee : e' = e := by rw [← hdec.1]; exact hg'
        subst hee
        rw [hns] at hs'
        rw [hbits] at hb'
        simp only [Bool.and_eq_true, Bool.not_eq_true', decide_eq_false_iff_not] at hb'
        have hsame : grainAt H a' e' s' = grainAt H a e' s' := by rw [grainAt, grainAt, hcls]
        rw [hsame]
        refine ⟨(hw.live_grainAt he hu hs').mpr hb'.2, fun heq => hb'.1 ?_⟩
        have h1 := (hw.grainAt_decode he hu hs').2
        rw [heq, hm] at h1
        have h2 := congrArg (· / ((a.ext e').cls + 1)) h1.1
        simp only [hq, h1.2.1] at h2
        exact h2.symm
      · rintro ⟨hl, hgg⟩
        obtain ⟨e', s', he', hu', hs', hb', rfl⟩ := hw.live_iff.mp hl
        have hdec := hw.grainAt_decode he' hu' hs'
        have hee : e' = e := by rw [← hdec.1]; exact hg'
        subst hee
        have hss : s' ≠ slot := by
          rintro rfl
          exact hgg hgr.symm
        have hstill : (a'.ext e').used = true := by
          rw [hused']
          intro hfull
          rw [hlast hfull s' hs' hss] at hb'
          simp at hb'
        rw [show grainAt H a e' s' = grainAt H a' e' s' from by rw [grainAt, grainAt, hcls]]
        refine (hwf'.live_grainAt he hstill (by rw [hns]; exact hs')).mpr ?_
        rw [hbits, hb']
        simp [hss]
    · rw [live_congr (helse _ hg').1 (helse _ hg').2]
      exact ⟨fun hl => ⟨hl, fun heq => hg' (heq ▸ hd)⟩, fun hl => hl.1⟩
  have hmemu : e ∈ usedSet H a := by simp [usedSet, he, hu]
  have hcardpos : 0 < (usedSet H a).card := Finset.card_pos.mpr ⟨e, hmemu⟩
  have hcardle := usedSet_card_le H a
  have hnlt := H.nExtents_lt
  have huse : a'.extentsUsed = (usedSet H a').card ∧ a'.extentsUsed ≤ a.extentsUsed := by
    rw [hused, usedSet_else helse he]
    have hueq := h.used_eq
    by_cases hfull : (a.ext e).nfree + 1 = (a.ext e).nslots
    · rw [if_pos hfull, if_neg (by rw [hused']; simpa using hfull), Finset.card_erase_of_mem hmemu]
      omega
    · rw [if_neg hfull, if_pos (hused'.mpr hfull), Finset.insert_eq_self.mpr hmemu]
      exact ⟨hueq, le_rfl⟩
  have hsum := slotSum_else helse he
  have hsz' : bytesOf (a.ext e).toExtentBody =
      bytesOf (a'.ext e).toExtentBody + ((a.ext e).cls + 1) * 64 := by
    rw [hbody]
    have hsub : (a.ext e).nslots - (a.ext e).nfree =
        (a.ext e).nslots - ((a.ext e).nfree + 1) + 1 := by omega
    by_cases hfull : (a.ext e).nfree + 1 = (a.ext e).nslots
    · simp only [bytesOf, hu, if_true, freedBody, hfull, ne_eq, not_true_eq_false, decide_false,
        Bool.false_eq_true, if_false, hsub, Nat.sub_self]
      ring
    · simp only [bytesOf, hu, if_true, freedBody, ne_eq, hfull, not_false_eq_true, decide_true, hsub]
      ring
  have hsumle := hw.slotSum_le
  have hpow : (2 : ℕ) ^ 36 < 2 ^ 64 := by decide
  have hbeq := h.bytes_eq
  refine ⟨⟨⟨ls', hwf'⟩, ?_, huse.1, ?_⟩, ?_, hlive, ?_, hpeak, huse.2, ?_⟩
  · intro x hx' hxu
    by_cases hxe : x = e
    · subst hxe
      have := hused'.mp hxu
      show (a'.ext x).nfree < (a'.ext x).nslots
      rw [hbody]
      show (a.ext x).nfree + 1 < (a.ext x).nslots
      omega
    · show (a'.ext x).nfree < (a'.ext x).nslots
      have hxu' : (a'.ext x).used = true := hxu
      rw [(helse x hxe).1] at hxu' ⊢
      exact h.nonempty x hx' hxu'
  · show a'.slotBytes = slotSum H a'
    have hc := hx.cls_lt
    rw [hbytes, hbeq]
    omega
  · rw [hsz, slotSize, hd]
  · intro g' hl
    show slotSize H a' g' = slotSize H a g'
    by_cases hg' : g' / H.extGrains = e
    · simp only [slotSize, hg', hcls]
    · exact slotSize_congr (helse _ hg').1
  · show a'.slotBytes + sz = a.slotBytes
    have hc := hx.cls_lt
    rw [hsz, hbytes, hbeq]
    omega

/-! ## The initial state -/

theorem buildFree_spec (ext : ℕ → Extent) (head : ℕ) (l : List ℕ) (i : ℕ)
    (hl : IsList (fun x => (ext x).next) (fun x => (ext x).prev) extNone head l)
    (hge : ∀ x ∈ l, i ≤ x) (hi : i ≤ extNone) :
    IsList (fun x => ((buildFree ext head i).1 x).next) (fun x => ((buildFree ext head i).1 x).prev)
      extNone (buildFree ext head i).2 (List.range i ++ l) ∧
    ∀ x, ((buildFree ext head i).1 x).toExtentBody = (ext x).toExtentBody := by
  induction i generalizing ext head l with
  | zero => exact ⟨by simpa [buildFree] using hl, fun x => rfl⟩
  | succ i ih =>
      rw [buildFree]
      set ext₁ := Function.update ext i { ext i with next := extNone, prev := extNone } with hext₁
      have hil : i ∉ l := fun hm => by
        have := hge i hm
        omega
      have hl₁ : IsList (fun x => (ext₁ x).next) (fun x => (ext₁ x).prev) extNone head l := by
        refine hl.congr fun x hx => ?_
        have hxi : x ≠ i := by
          rintro rfl
          exact hil hx
        simp only [hext₁, Function.update_of_ne hxi, and_self]
      have hb₁ : ∀ x, (ext₁ x).toExtentBody = (ext x).toExtentBody := by
        intro x
        by_cases hx : x = i
        · subst hx
          simp [hext₁]
        · simp only [hext₁, Function.update_of_ne hx]
      have hl₂ : IsList (fun x => ((lstPush ext₁ head i).1 x).next)
          (fun x => ((lstPush ext₁ head i).1 x).prev) extNone i (i :: l) :=
        hl₁.push hil (by omega) (fun x => by simp only [lstPush_apply])
          (fun x => by simp only [lstPush_apply])
      obtain ⟨h1, h2⟩ := ih (lstPush ext₁ head i).1 i (i :: l) hl₂ (fun x hx => by
        rcases List.mem_cons.mp hx with rfl | hx
        · exact le_rfl
        · have := hge x hx
          omega) (by omega)
      refine ⟨?_, fun x => ?_⟩
      · rw [List.range_succ, List.append_assoc, List.singleton_append]
        exact h1
      · rw [show (lstPush ext₁ head i).2 = i from rfl, h2 x, lstPush_apply]
        exact hb₁ x

/-- `store_init` chains every extent, in order, on the free list and leaves all else zero. -/
theorem storeInit_lists (H : Heap) :
    IsList (storeInit H).nextOf (storeInit H).prevOf extNone (storeInit H).freeHead
      (List.range H.nExtents) ∧
    ∀ x, ((storeInit H).ext x).toExtentBody = ⟨0, 0, 0, false, 0⟩ := by
  have hn := H.nExtents_lt
  obtain ⟨hl, hb⟩ := buildFree_spec (fun _ => ⟨⟨0, 0, 0, false, 0⟩, 0, 0⟩) extNone [] H.nExtents
    ⟨rfl, List.nodup_nil⟩ (by simp) (by unfold extNone; omega)
  rw [List.append_nil] at hl
  exact ⟨hl, hb⟩

/-- `store_init` establishes the invariant, with no grain live. -/
theorem storeInit_inv (H : Heap) : Inv H (storeInit H) ∧ ∀ g, ¬ Live H (storeInit H) g := by
  obtain ⟨hl, hb⟩ := storeInit_lists H
  have hused : ∀ x, ((storeInit H).ext x).used = false := fun x => by
    show ((storeInit H).ext x).toExtentBody.used = false
    rw [hb x]
  have hnone : usedSet H (storeInit H) = ∅ := by
    ext x
    simp [usedSet, hused]
  refine ⟨⟨⟨fun k => k.elim (List.range H.nExtents) fun _ => [], ?_⟩, ?_, ?_, ?_⟩, ?_⟩
  · refine ⟨⟨fun k => ?_, fun {k k' x} h h' => ?_⟩, fun x => ?_, fun c x => ?_, fun x _ hx => ?_⟩
    · cases k with
      | none => exact hl
      | some c => exact ⟨rfl, List.nodup_nil⟩
    · cases k <;> cases k' <;> simp_all
    · simp [hused]
    · simp [hused]
    · simp [hused] at hx
  · intro x _ hx
    simp [hused] at hx
  · rw [hnone]
    rfl
  · show 0 = _
    exact (Finset.sum_eq_zero fun x _ => by simp [bytesOf, hused]).symm
  · rintro g ⟨-, hu, -⟩
    simp [hused] at hu

end Alloc

end NbdVram
