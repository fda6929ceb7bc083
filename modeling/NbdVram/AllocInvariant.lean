import NbdVram.Alloc

/-!
# The representation invariant of the allocator

`Wf` ties the linked lists, the extent records and the bitmaps together and holds
also in the middle of `slot_alloc`, between committing an extent and taking its
first slot. `Inv` adds what holds between calls: no committed extent is empty,
and the two global counts are exact.

Each of the three building blocks (`commitExtent`, `extTake`, `slotFree`) gets
one theorem that says everything it does to the extents; the statements about
grains are derived from those in `AllocSpec`.
-/

namespace NbdVram

open LinkedArray Bitmap

/-! ## Heap geometry -/

namespace Heap

variable (H : Heap)

theorem extBmwords_bounds : 4 ≤ H.extBmwords ∧ H.extBmwords ≤ 256 := by
  have hlo := H.shift_lo
  have hhi := H.shift_hi
  unfold extBmwords extGrains extentSize
  interval_cases H.extentShift <;> decide

theorem extGrains_eq : H.extGrains = 64 * H.extBmwords := by
  have hlo := H.shift_lo
  have hhi := H.shift_hi
  unfold extBmwords extGrains extentSize
  interval_cases H.extentShift <;> decide

theorem extentSize_eq : H.extentSize = 64 * H.extGrains := by
  have hlo := H.shift_lo
  have hhi := H.shift_hi
  unfold extGrains extentSize
  interval_cases H.extentShift <;> decide

theorem nExtents_eq : H.nExtents = H.vramSize / H.extentSize := by
  have hg : 64 * (H.vramSize / H.extentSize) ≤ H.vramSize := by
    have h1 := Nat.div_mul_le_self H.vramSize H.extentSize
    have h2 := H.extentSize_eq
    have h3 := H.extGrains_eq
    have h4 := H.extBmwords_bounds.1
    have h5 : 64 ≤ H.extentSize := by omega
    calc 64 * (H.vramSize / H.extentSize)
        ≤ H.extentSize * (H.vramSize / H.extentSize) := Nat.mul_le_mul_right _ h5
      _ ≤ H.vramSize := by rw [Nat.mul_comm]; exact h1
  have := H.indexable
  exact Nat.mod_eq_of_lt (by omega)

theorem extents_le_vram : H.nExtents * H.extentSize ≤ H.vramSize := by
  rw [nExtents_eq]
  exact Nat.div_mul_le_self _ _

theorem nExtents_pos : 0 < H.nExtents := by
  rw [nExtents_eq]
  exact Nat.div_pos H.one_extent (by unfold extentSize; positivity)

/-- All grains of the heap fit the 30 bits of an index entry. -/
theorem grains_lt : H.nExtents * H.extGrains < 2 ^ 30 := by
  have h1 := H.extents_le_vram
  have h2 := H.indexable
  rw [H.extentSize_eq, ← Nat.mul_assoc, Nat.mul_comm H.nExtents, Nat.mul_assoc] at h1
  omega

theorem nExtents_lt : H.nExtents < 2 ^ 22 := by
  have h1 := H.grains_lt
  have h2 := H.extGrains_eq
  have h3 := H.extBmwords_bounds.1
  have h4 : 256 ≤ H.extGrains := by omega
  have := Nat.mul_le_mul_left H.nExtents h4
  omega

theorem ne_extNone {e : ℕ} (he : e < H.nExtents) : e ≠ extNone := by
  have := H.nExtents_lt
  unfold extNone
  omega

/-- The number of slots of an extent of class `c`. -/
def slots (c : ℕ) : ℕ := H.extentSize / ((c + 1) * 64)

theorem slots_eq (c : ℕ) : H.slots c = H.extGrains / (c + 1) := by
  rw [slots, H.extentSize_eq, Nat.mul_comm (c + 1), Nat.mul_div_mul_left _ _ (by decide)]

theorem slots_mul_le (c : ℕ) : H.slots c * (c + 1) ≤ H.extGrains := by
  rw [slots_eq]
  exact Nat.div_mul_le_self _ _

theorem slots_le (c : ℕ) : H.slots c ≤ 64 * H.extBmwords := by
  rw [slots_eq, ← H.extGrains_eq]
  exact Nat.div_le_self _ _

theorem slots_ge {c : ℕ} (hc : c < 64) : 4 ≤ H.slots c := by
  rw [slots_eq, Nat.le_div_iff_mul_le (by omega)]
  have h1 := H.extGrains_eq
  have h2 := H.extBmwords_bounds.1
  omega

end Heap

/-! ## What the list operations do to each record -/

theorem lstPush_apply (ext : ℕ → Extent) (head e x : ℕ) :
    (lstPush ext head e).1 x =
      { ext x with
        next := if x = e then head else (ext x).next
        prev := if x = head ∧ head ≠ extNone then e
          else if x = e then extNone else (ext x).prev } := by
  unfold lstPush
  by_cases hh : head = extNone
  · simp only [hh, ne_eq, not_true_eq_false, if_false, and_false]
    by_cases hx : x = e
    · subst hx
      simp
    · simp [hx]
  · simp only [ne_eq, hh, not_false_eq_true, if_true, and_true]
    by_cases hx : x = head
    · subst hx
      by_cases hxe : x = e
      · subst hxe
        simp
      · simp [hxe]
    · rw [Function.update_of_ne hx]
      by_cases hxe : x = e
      · subst hxe
        simp [hx]
      · simp [hxe, hx]

theorem lstRemove_apply (ext : ℕ → Extent) (head e x : ℕ) :
    (lstRemove ext head e).1 x =
      { ext x with
        next := if x = e then extNone
          else if x = (ext e).prev ∧ (ext e).prev ≠ extNone then (ext e).next else (ext x).next
        prev := if x = e then extNone
          else if x = (ext e).next ∧ (ext e).next ≠ extNone then (ext e).prev
          else (ext x).prev } := by
  unfold lstRemove
  -- the forward link of the predecessor, seen from any index
  have h1 : ∀ y, (if (ext e).prev ≠ extNone then
        Function.update ext (ext e).prev { ext (ext e).prev with next := (ext e).next }
        else ext) y =
      { ext y with
        next := if y = (ext e).prev ∧ (ext e).prev ≠ extNone then (ext e).next
          else (ext y).next } := by
    intro y
    by_cases hp : (ext e).prev = extNone
    · simp [hp]
    · by_cases hy : y = (ext e).prev
      · subst hy
        simp [hp]
      · simp [hp, hy]
  dsimp only at h1 ⊢
  generalize (if (ext e).prev ≠ extNone then
    Function.update ext (ext e).prev { ext (ext e).prev with next := (ext e).next }
    else ext) = ext₁ at h1 ⊢
  have hnext : (ext₁ e).next = (ext e).next := by simp [h1]
  simp only [hnext]
  by_cases hx : x = e
  · subst hx
    by_cases hn : (ext x).next = extNone
    · simp [hn, h1]
    · by_cases hxn : x = (ext x).next
      · have hx0 : x ≠ extNone := fun h0 => hn (hxn ▸ h0)
        simp [← hxn, hx0, h1]
      · simp [hn, Function.update_of_ne hxn, h1]
  · rw [Function.update_of_ne hx]
    by_cases hn : (ext e).next = extNone
    · simp [hn, hx, h1]
    · by_cases hxn : x = (ext e).next
      · subst hxn
        simp [hn, hx, h1]
      · simp [hn, hx, hxn, h1]

theorem lstRemove_head (ext : ℕ → Extent) (head e : ℕ) :
    (lstRemove ext head e).2 = if (ext e).prev = extNone then (ext e).next else head := by
  unfold lstRemove
  by_cases h : (ext e).prev = extNone <;> simp [h]

/-! ## The invariant -/

/-- One committed extent: its geometry, its free count and its bitmap agree, the bits past
the last slot are set, and no word below `hint` has room. -/
structure ExtentWf (H : Heap) (x : ExtentBody) (bm : ℕ → BitVec 64) : Prop where
  cls_lt : x.cls < 64
  nslots_eq : x.nslots = H.slots x.cls
  nfree_eq : x.nfree = clearBits bm x.nslots
  tail_set : ∀ i, x.nslots ≤ i → bit bm i = true
  hint_lt : x.hint < H.extBmwords
  hint_full : ∀ w < x.hint, bm w = BitVec.allOnes 64

namespace Alloc

/-- The heads of all lists: `none` is the free list, `some c` that of class `c`. -/
def head (a : Alloc) : Option ℕ → ℕ
  | none => a.freeHead
  | some c => a.classHead c

def nextOf (a : Alloc) (x : ℕ) : ℕ := (a.ext x).next

def prevOf (a : Alloc) (x : ℕ) : ℕ := (a.ext x).prev

structure Wf (H : Heap) (a : Alloc) (ls : Option ℕ → List ℕ) : Prop where
  lists : Family a.nextOf a.prevOf extNone a.head ls
  mem_free : ∀ e, e ∈ ls none ↔ e < H.nExtents ∧ (a.ext e).used = false
  mem_part : ∀ c e, e ∈ ls (some c) ↔
    e < H.nExtents ∧ (a.ext e).used = true ∧ (a.ext e).cls = c ∧ 0 < (a.ext e).nfree
  extent : ∀ e < H.nExtents, (a.ext e).used = true → ExtentWf H (a.ext e).toExtentBody (a.bm e)

/-- The extents that belong to a class. -/
def usedSet (H : Heap) (a : Alloc) : Finset ℕ :=
  (Finset.range H.nExtents).filter fun e => (a.ext e).used = true

/-- The bytes of all slots handed out by an extent. -/
def bytesOf (x : ExtentBody) : ℕ :=
  if x.used then (x.nslots - x.nfree) * ((x.cls + 1) * 64) else 0

def slotSum (H : Heap) (a : Alloc) : ℕ :=
  ∑ e ∈ Finset.range H.nExtents, bytesOf (a.ext e).toExtentBody

structure Inv (H : Heap) (a : Alloc) : Prop where
  wf : ∃ ls, Wf H a ls
  nonempty : ∀ e < H.nExtents, (a.ext e).used = true → (a.ext e).nfree < (a.ext e).nslots
  used_eq : a.extentsUsed = (usedSet H a).card
  bytes_eq : a.slotBytes = slotSum H a

variable {H : Heap} {a : Alloc} {ls : Option ℕ → List ℕ} {e c : ℕ}

/-- Everything the invariant says about extents other than `e` survives an operation that
only touches `e` and the links. -/
def SameElse (a a' : Alloc) (e : ℕ) : Prop :=
  ∀ x, x ≠ e → (a'.ext x).toExtentBody = (a.ext x).toExtentBody ∧ a'.bm x = a.bm x

theorem Wf.extent_else {a' : Alloc} (h : Wf H a ls) (helse : SameElse a a' e)
    (hwf : ExtentWf H (a'.ext e).toExtentBody (a'.bm e)) :
    ∀ x < H.nExtents, (a'.ext x).used = true → ExtentWf H (a'.ext x).toExtentBody (a'.bm x) := by
  intro x hx hxu
  by_cases hxe : x = e
  · subst hxe
    exact hwf
  · obtain ⟨hb, hm⟩ := helse x hxe
    rw [hb, hm]
    rw [hb] at hxu
    exact h.extent x hx hxu

theorem usedSet_card_le (H : Heap) (a : Alloc) : (usedSet H a).card ≤ H.nExtents := by
  have := Finset.card_filter_le (Finset.range H.nExtents) fun e => (a.ext e).used = true
  rwa [Finset.card_range] at this

theorem Wf.classHead_mem (h : Wf H a ls) (hc : a.classHead c ≠ extNone) :
    a.classHead c ∈ ls (some c) :=
  (h.lists.isList (some c)).head_mem hc

theorem Wf.freeHead_mem (h : Wf H a ls) (hf : a.freeHead ≠ extNone) : a.freeHead ∈ ls none :=
  (h.lists.isList none).head_mem hf

theorem Wf.classHead_eq (h : Wf H a ls) : a.classHead c = extNone ↔ ls (some c) = [] :=
  (h.lists.isList (some c)).head_eq_nil

theorem Wf.freeHead_eq (h : Wf H a ls) : a.freeHead = extNone ↔ ls none = [] :=
  (h.lists.isList none).head_eq_nil

/-! ## Committing an extent -/

theorem lists_push {a' : Alloc} {k : Option ℕ} (hf : Family a.nextOf a.prevOf extNone a.head ls)
    (he : ∀ j, e ∉ ls j) (hne : e ≠ extNone)
    (hext : ∀ x, (a'.ext x).next = ((lstPush a.ext (a.head k) e).1 x).next ∧
      (a'.ext x).prev = ((lstPush a.ext (a.head k) e).1 x).prev)
    (hhead : a'.head = Function.update a.head k e) :
    Family a'.nextOf a'.prevOf extNone a'.head (Function.update ls k (e :: ls k)) := by
  rw [hhead]
  refine hf.push he hne (fun x => ?_) fun x => ?_
  · exact (hext x).1.trans (congrArg Extent.next (lstPush_apply _ _ _ x))
  · exact (hext x).2.trans (congrArg Extent.prev (lstPush_apply _ _ _ x))

theorem lists_remove {a' : Alloc} {k : Option ℕ}
    (hf : Family a.nextOf a.prevOf extNone a.head ls) (he : e ∈ ls k)
    (hext : ∀ x, x ≠ e → (a'.ext x).next = ((lstRemove a.ext (a.head k) e).1 x).next ∧
      (a'.ext x).prev = ((lstRemove a.ext (a.head k) e).1 x).prev)
    (hhead : a'.head = Function.update a.head k (lstRemove a.ext (a.head k) e).2) :
    Family a'.nextOf a'.prevOf extNone a'.head (Function.update ls k ((ls k).erase e)) := by
  rw [hhead, lstRemove_head]
  refine hf.remove he (fun x hx hx0 => ?_) fun x hx hx0 => ?_
  · have h := (hext x hx).1
    simp only [lstRemove_apply, if_neg hx] at h
    refine h.trans (if_congr ?_ rfl rfl)
    exact ⟨fun hp => hp.1, fun hp => ⟨hp, fun h0 => hx0 (hp.trans h0)⟩⟩
  · have h := (hext x hx).2
    simp only [lstRemove_apply, if_neg hx] at h
    refine h.trans (if_congr ?_ rfl rfl)
    exact ⟨fun hp => hp.1, fun hp => ⟨hp, fun h0 => hx0 (hp.trans h0)⟩⟩

/-- The bitmap `ext_init` writes: clear below `n`, set from `n` on. -/
theorem init_bit (n i : ℕ) :
    bit (fun w => if n % 64 ≠ 0 ∧ w = n / 64 then BitVec.allOnes 64 <<< (n % 64)
      else if n / 64 + (if n % 64 ≠ 0 then 1 else 0) ≤ w then BitVec.allOnes 64 else 0#64) i =
      decide (n ≤ i) := by
  have hi : i % 64 < 64 := Nat.mod_lt _ (by decide)
  unfold bit
  by_cases hr : n % 64 = 0
  · by_cases hle : n / 64 ≤ i / 64
    · have : n ≤ i := by omega
      simp only [hr, ne_eq, not_true_eq_false, false_and, if_false, Nat.add_zero, hle, if_true,
        BitVec.getLsbD_allOnes, hi, decide_true, this]
    · have : ¬ n ≤ i := by omega
      simp [hr, hle, this]
  · by_cases hw : i / 64 = n / 64
    · have hcase : decide (n ≤ i) = decide (n % 64 ≤ i % 64) := by
        congr 1
        apply propext
        omega
      simp only [hr, hw, ne_eq, not_false_eq_true, and_self, if_true, BitVec.getLsbD_shiftLeft,
        BitVec.getLsbD_allOnes, hi, decide_true, Bool.true_and, hcase]
      by_cases hlt : i % 64 < n % 64
      · simp [hlt]
      · simp [hlt, show n % 64 ≤ i % 64 from by omega, show i % 64 - n % 64 < 64 from by omega]
    · by_cases hle : n / 64 + 1 ≤ i / 64
      · have : n ≤ i := by omega
        simp only [hr, hw, ne_eq, not_false_eq_true, and_false, if_false, if_true, hle,
          BitVec.getLsbD_allOnes, hi, decide_true, this]
      · have : ¬ n ≤ i := by omega
        simp [hr, hw, hle, this]

theorem nslots_mod (H : Heap) (c : ℕ) : H.extentSize / ((c + 1) * 64) % 2 ^ 16 = H.slots c := by
  have h1 := H.slots_le c
  have h2 := H.extBmwords_bounds.2
  exact Nat.mod_eq_of_lt (by unfold Heap.slots at h1; omega)

/-- The body of a freshly committed extent of class `c`. -/
def freshBody (H : Heap) (c : ℕ) : ExtentBody := ⟨H.slots c, H.slots c, c, true, 0⟩

theorem fresh_wf (hc : c < 64) {bm : ℕ → BitVec 64} (hb : ∀ i, bit bm i = decide (H.slots c ≤ i)) :
    ExtentWf H (freshBody H c) bm := by
  refine ⟨hc, rfl, ?_, fun i hi => ?_, ?_, fun w hw => ?_⟩
  · refine (clearBits_eq_self.mpr fun i hi => ?_).symm
    have : ¬ H.slots c ≤ i := by simpa [freshBody] using hi
    simpa [hb] using this
  · have : H.slots c ≤ i := hi
    simp [hb, this]
  · have := H.extBmwords_bounds.1
    simp only [freshBody]
    omega
  · simp [freshBody] at hw

/-- **Committing an extent.** The first free extent becomes the head of class `c`, with every
slot clear; no other extent changes. -/
theorem commitExtent_spec (h : Wf H a ls) (hf : a.freeHead ≠ extNone) (hc : c < 64) :
    a.freeHead < H.nExtents ∧ (a.ext a.freeHead).used = false ∧
    (∃ ls', Wf H (commitExtent H a c) ls') ∧ SameElse a (commitExtent H a c) a.freeHead ∧
    ((commitExtent H a c).ext a.freeHead).toExtentBody = freshBody H c ∧
    (∀ i, bit ((commitExtent H a c).bm a.freeHead) i = decide (H.slots c ≤ i)) := by
  obtain ⟨hlt, hu⟩ := (h.mem_free _).mp (h.freeHead_mem hf)
  set e := a.freeHead with he
  set a₁ : Alloc := { a with
    ext := (lstRemove a.ext a.freeHead e).1, freeHead := (lstRemove a.ext a.freeHead e).2 }
    with ha₁
  set a₂ : Alloc := extInit H a₁ e c with ha₂
  have hcommit : commitExtent H a c = { a₂ with
      ext := (lstPush a₂.ext (a₂.classHead c) e).1
      classHead := Function.update a₂.classHead c e
      extentsUsed := (a₂.extentsUsed + 1) % 2 ^ 32
      extentsPeak := if a₂.extentsPeak < (a₂.extentsUsed + 1) % 2 ^ 32
        then (a₂.extentsUsed + 1) % 2 ^ 32 else a₂.extentsPeak } := rfl
  -- the links: off the free list, then onto the class list
  have hl₁ : Family a₁.nextOf a₁.prevOf extNone a₁.head
      (Function.update ls none ((ls none).erase e)) := by
    refine lists_remove h.lists ((h.mem_free e).mpr ⟨hlt, hu⟩) (fun x _ => ⟨rfl, rfl⟩) ?_
    funext j
    cases j with
    | none => rfl
    | some c => rfl
  have hl₂ : Family a₂.nextOf a₂.prevOf extNone a₂.head
      (Function.update ls none ((ls none).erase e)) := by
    have hb : a₂.head = a₁.head := by
      funext j
      cases j <;> rfl
    rw [hb]
    refine hl₁.congr fun k x _ => ?_
    simp only [nextOf, prevOf, ha₂, extInit]
    by_cases hx : x = e
    · subst hx
      simp
    · simp [Function.update_of_ne hx]
  have hout : ∀ j, e ∉ Function.update ls none ((ls none).erase e) j := by
    intro j hj
    cases j with
    | none =>
        rw [Function.update_self] at hj
        exact List.Nodup.not_mem_erase (h.lists.isList none).nodup hj
    | some d =>
        rw [Function.update_of_ne (by simp)] at hj
        simp [((h.mem_part d e).mp hj).2.1] at hu
  have hbody : ∀ x, ((commitExtent H a c).ext x).toExtentBody = (a₂.ext x).toExtentBody := by
    intro x
    simp only [hcommit, lstPush_apply]
  have hbody₂ : ∀ x, x ≠ e → (a₂.ext x).toExtentBody = (a.ext x).toExtentBody := by
    intro x hx
    simp only [ha₂, extInit, Function.update_of_ne hx, ha₁, lstRemove_apply]
  have hbodye : (a₂.ext e).toExtentBody = freshBody H c := by
    simp only [ha₂, extInit, Function.update_self, nslots_mod, freshBody,
      Nat.mod_eq_of_lt (show c < 2 ^ 8 from by omega)]
  have hbits : ∀ i, bit ((commitExtent H a c).bm e) i = decide (H.slots c ≤ i) := by
    intro i
    have : (commitExtent H a c).bm e = a₂.bm e := rfl
    rw [this, ha₂]
    simp only [extInit, Function.update_self, nslots_mod]
    exact init_bit (H.slots c) i
  have helse : SameElse a (commitExtent H a c) e := by
    intro x hx
    refine ⟨(hbody x).trans (hbody₂ x hx), ?_⟩
    have : (commitExtent H a c).bm x = a₂.bm x := rfl
    rw [this, ha₂]
    simp only [extInit, Function.update_of_ne hx, ha₁]
  have hfresh : ((commitExtent H a c).ext e).toExtentBody = freshBody H c :=
    (hbody e).trans hbodye
  refine ⟨hlt, hu, ⟨Function.update (Function.update ls none ((ls none).erase e)) (some c)
    (e :: Function.update ls none ((ls none).erase e) (some c)), ?_⟩, helse, hfresh, hbits⟩
  refine ⟨lists_push (k := some c) hl₂ hout (H.ne_extNone hlt) (fun x => ⟨rfl, rfl⟩) ?_, ?_, ?_, ?_⟩
  · funext j
    cases j with
    | none => rfl
    | some d =>
        by_cases hd : d = c
        · subst hd
          simp [hcommit, head]
        · simp [hcommit, head, hd]
  · intro x
    rw [Function.update_of_ne (by simp), Function.update_self,
      (h.lists.isList none).nodup.mem_erase_iff, h.mem_free]
    by_cases hx : x = e
    · subst hx
      simp [hfresh, freshBody]
    · simp [hx, (helse x hx).1]
  · intro d x
    by_cases hx : x = e
    · subst hx
      have hpos := H.slots_ge hc
      simp only [hfresh, freshBody, hlt, true_and]
      by_cases hd : d = c
      · subst hd
        simp
        omega
      · have := hout (some d)
        rw [Function.update_of_ne (by simp)] at this
        rw [Function.update_of_ne (by simpa using hd), Function.update_of_ne (by simp)]
        simp [this, Ne.symm hd]
    · have hmem := h.mem_part d x
      rw [(helse x hx).1, ← hmem]
      by_cases hd : d = c
      · subst hd
        rw [Function.update_self, Function.update_of_ne (by simp), List.mem_cons]
        simp [hx]
      · rw [Function.update_of_ne (by simpa using hd), Function.update_of_ne (by simp)]
  · exact h.extent_else helse (by rw [hfresh]; exact fresh_wf hc hbits)

/-! ## Taking a slot -/

/-- The circular scan started at `hint` stops at the first word `w` from `hint` on that has a
clear bit, before it ever wraps. -/
theorem scanWords_eq {bm : ℕ → BitVec 64} {words hint w : ℕ} (hw : w < words)
    (hne : bm w ≠ BitVec.allOnes 64) (hfull : ∀ v, hint ≤ v → v < w → bm v = BitVec.allOnes 64) :
    ∀ k i, i + k = words → hint + i ≤ w → scanWords bm words hint k i = some w := by
  intro k
  induction k with
  | zero => intro i hi hle; omega
  | succ k ih =>
      intro i hi hle
      rw [scanWords]
      simp only [show ¬ words ≤ hint + i from by omega, if_false]
      rcases Nat.lt_or_ge (hint + i) w with hlt | hge
      · rw [if_pos (hfull (hint + i) (by omega) hlt)]
        exact ih (i + 1) (by omega) (by omega)
      · have : hint + i = w := by omega
        rw [this, if_neg hne]

/-- A used extent with a free slot has a lowest free slot, and the scan finds its word. -/
theorem scanWords_first {x : ExtentBody} {bm : ℕ → BitVec 64} (h : ExtentWf H x bm)
    (hn : 0 < x.nfree) :
    ∃ w, scanWords bm H.extBmwords x.hint H.extBmwords 0 = some w ∧ w < H.extBmwords ∧
      bm w ≠ BitVec.allOnes 64 ∧ ∀ v < w, bm v = BitVec.allOnes 64 := by
  classical
  have hex : ∃ w, bm w ≠ BitVec.allOnes 64 := by
    by_contra hall
    push Not at hall
    have : clearBits bm x.nslots = 0 := by
      rw [clearBits_eq_zero]
      intro i _
      rw [bit, hall, BitVec.getLsbD_allOnes]
      simpa using Nat.mod_lt i (by decide)
    have := h.nfree_eq
    omega
  have hmin : ∀ v < Nat.find hex, bm v = BitVec.allOnes 64 := by
    intro v hv
    by_contra hne
    exact Nat.find_min hex hv hne
  have hlt : Nat.find hex < H.extBmwords := by
    by_contra hge
    apply Nat.find_spec hex
    apply BitVec.eq_of_getLsbD_eq
    intro b hb
    have hs := h.tail_set (Nat.find hex * 64 + b) (by
      have h1 := H.slots_le x.cls
      have h2 := h.nslots_eq
      omega)
    rw [bit_word _ _ _ hb] at hs
    rw [hs, BitVec.getLsbD_allOnes]
    simp [hb]
  have hhint : x.hint ≤ Nat.find hex := by
    by_contra hgt
    exact Nat.find_spec hex (h.hint_full _ (by omega))
  refine ⟨Nat.find hex, ?_, hlt, Nat.find_spec hex, hmin⟩
  exact scanWords_eq hlt (Nat.find_spec hex) (fun v _ hv => hmin v hv) _ 0 (by omega) (by omega)

/-- The bit the scan settles on is the lowest free slot, and its word lies at or above `hint`. -/
theorem scan_lowest {x : ExtentBody} {bm : ℕ → BitVec 64} (h : ExtentWf H x bm)
    (hn : 0 < x.nfree) :
    ∃ w b, scanWords bm H.extBmwords x.hint H.extBmwords 0 = some w ∧ ctz (~~~(bm w)) = b ∧
      w < H.extBmwords ∧ x.hint ≤ w ∧ b < 64 ∧ w * 64 + b < x.nslots ∧
      bit bm (w * 64 + b) = false ∧ ∀ j < w * 64 + b, bit bm j = true := by
  obtain ⟨w, hscan, hw, hne, hbelow⟩ := scanWords_first h hn
  obtain ⟨hb64, hclr, hset⟩ := ctz_not_spec hne
  have hclear : bit bm (w * 64 + ctz (~~~(bm w))) = false := by
    rw [bit_word _ _ _ hb64]
    exact hclr
  refine ⟨w, _, hscan, rfl, hw, ?_, hb64, ?_, hclear, ?_⟩
  · by_contra hgt
    exact hne (h.hint_full w (by omega))
  · by_contra hge
    have := h.tail_set _ (Nat.le_of_not_lt hge)
    simp [hclear] at this
  · intro j hj
    rw [← Nat.div_add_mod j 64, Nat.mul_comm, bit_word _ _ _ (Nat.mod_lt _ (by decide))]
    rcases Nat.lt_or_ge (j / 64) w with hlt | hge
    · rw [hbelow _ hlt, BitVec.getLsbD_allOnes]
      simpa using Nat.mod_lt j (by decide)
    · have : j / 64 = w := by omega
      rw [this]
      exact hset _ (by omega)

/-- A slot of an extent starts below the top of the heap. -/
theorem grain_lt (H : Heap) {e slot c : ℕ} (he : e < H.nExtents) (hs : slot < H.slots c) :
    e * H.extGrains + slot * (c + 1) < H.nExtents * H.extGrains := by
  have h1 := H.slots_mul_le c
  have h2 : (slot + 1) * (c + 1) ≤ H.slots c * (c + 1) := Nat.mul_le_mul_right _ hs
  have h3 : (e + 1) * H.extGrains ≤ H.nExtents * H.extGrains := Nat.mul_le_mul_right _ he
  rw [Nat.add_mul] at h2 h3
  omega

/-- The grain `ext_take` returns for an extent with room. -/
theorem extTake_fst (h : ExtentWf H (a.ext e).toExtentBody (a.bm e))
    (he : e < H.nExtents) (hn : 0 < (a.ext e).nfree) :
    ∃ slot, scanWords (a.bm e) H.extBmwords (a.ext e).hint H.extBmwords 0 = some (slot / 64) ∧
      (a.ext e).hint ≤ slot / 64 ∧ slot < (a.ext e).nslots ∧ bit (a.bm e) slot = false ∧
      (∀ j < slot, bit (a.bm e) j = true) ∧
      (extTake H a e).1 = e * H.extGrains + slot * ((a.ext e).cls + 1) := by
  obtain ⟨w, b, hscan, hb, hw, hhint, hb64, hslot, hclear, hfirst⟩ := scan_lowest h hn
  have hdiv : (w * 64 + b) / 64 = w := by omega
  have hns := h.nslots_eq
  have hgrain := grain_lt H he (hns ▸ hslot)
  have hlt := H.grains_lt
  refine ⟨w * 64 + b, by rw [hdiv]; exact hscan, by rw [hdiv]; exact hhint, hslot, hclear, hfirst, ?_⟩
  simp only [extTake, hscan, hb]
  exact Nat.mod_eq_of_lt (lt_trans hgrain (by omega))

/-- The record of an extent after slot `slot` has been taken from it. -/
def takenBody (x : ExtentBody) (slot : ℕ) : ExtentBody :=
  { x with nfree := x.nfree - 1, hint := slot / 64 }

theorem taken_wf {x : ExtentBody} {bm bm' : ℕ → BitVec 64} {slot : ℕ} (h : ExtentWf H x bm)
    (hs : slot < x.nslots) (hc : bit bm slot = false) (hb : ∀ j < slot, bit bm j = true)
    (hb' : ∀ j, bit bm' j = (decide (j = slot) || bit bm j)) :
    ExtentWf H (takenBody x slot) bm' := by
  have hcount := clearBits_set hs hc hb'
  refine ⟨h.cls_lt, h.nslots_eq, ?_, fun i hi => ?_, ?_, fun w hw => ?_⟩
  · have := h.nfree_eq
    simp only [takenBody]
    omega
  · simp [hb', h.tail_set i hi]
  · have h1 := H.slots_le x.cls
    have h2 := h.nslots_eq
    simp only [takenBody]
    omega
  · apply BitVec.eq_of_getLsbD_eq
    intro b hb64
    have hw' : w < slot / 64 := hw
    have := hb (w * 64 + b) (by omega)
    rw [← bit_word bm' w b hb64, hb', this, BitVec.getLsbD_allOnes]
    simp [hb64]

/-- **Taking a slot.** `ext_take` on a used extent with room never fails: it takes the lowest
free slot, and changes nothing but that extent and, when the extent fills up, the list of its
class. -/
theorem extTake_spec (h : Wf H a ls) (he : e < H.nExtents) (hu : (a.ext e).used = true)
    (hn : 0 < (a.ext e).nfree) :
    ∃ slot, slot < (a.ext e).nslots ∧ bit (a.bm e) slot = false ∧
      (∀ j < slot, bit (a.bm e) j = true) ∧
      (extTake H a e).1 = e * H.extGrains + slot * ((a.ext e).cls + 1) ∧
      (∃ ls', Wf H (extTake H a e).2 ls') ∧ SameElse a (extTake H a e).2 e ∧
      ((extTake H a e).2.ext e).toExtentBody = takenBody (a.ext e).toExtentBody slot ∧
      (∀ j, bit ((extTake H a e).2.bm e) j = (decide (j = slot) || bit (a.bm e) j)) := by
  have hx := h.extent e he hu
  obtain ⟨w, b, hscan, hb, hw, -, hb64, hslot, hclear, hfirst⟩ := scan_lowest hx hn
  have hdiv : (w * 64 + b) / 64 = w := by omega
  have hmod : (w * 64 + b) % 64 = b := by omega
  -- the machine widths never bite
  have hsl := H.slots_le (a.ext e).cls
  have hns := hx.nslots_eq
  have hbw := H.extBmwords_bounds
  have hnf : (a.ext e).nfree ≤ (a.ext e).nslots := by
    rw [hx.nfree_eq]
    exact clearBits_le _ _
  have hwrap : ((a.ext e).nfree + (2 ^ 16 - 1)) % 2 ^ 16 = (a.ext e).nfree - 1 := by omega
  have hw16 : w % 2 ^ 16 = w := Nat.mod_eq_of_lt (by omega)
  have hgrain := grain_lt H he (hns ▸ hslot)
  have hlt := H.grains_lt
  set bm' := Function.update (a.bm e) w (a.bm e w ||| 1#64 <<< b) with hbm'
  have hbits : ∀ j, bit bm' j = (decide (j = w * 64 + b) || bit (a.bm e) j) := by
    intro j
    have := bit_set (a.bm e) (w * 64 + b) j
    rwa [hdiv, hmod] at this
  set a₁ : Alloc := { a with
    bm := Function.update a.bm e bm'
    ext := Function.update a.ext e
      { a.ext e with hint := w, nfree := (a.ext e).nfree - 1 } } with ha₁
  have htake : extTake H a e = (e * H.extGrains + (w * 64 + b) * ((a.ext e).cls + 1),
      if (a.ext e).nfree - 1 = 0 then
        { a₁ with
          ext := (lstRemove a₁.ext (a₁.classHead (a.ext e).cls) e).1
          classHead := Function.update a₁.classHead (a.ext e).cls
            (lstRemove a₁.ext (a₁.classHead (a.ext e).cls) e).2 }
      else a₁) := by
    simp only [extTake, hscan, hb, hwrap, hw16]
    rw [Nat.mod_eq_of_lt (lt_trans hgrain (by omega))]
  have hl₁ : Family a₁.nextOf a₁.prevOf extNone a₁.head ls := by
    have hh : a₁.head = a.head := by
      funext j
      cases j <;> rfl
    rw [hh]
    refine h.lists.congr fun k x _ => ?_
    simp only [nextOf, prevOf, ha₁]
    by_cases hxe : x = e
    · subst hxe
      simp
    · simp [Function.update_of_ne hxe]
  have hmem : e ∈ ls (some (a.ext e).cls) := (h.mem_part _ _).mpr ⟨he, hu, rfl, hn⟩
  have hbody₁ : (a₁.ext e).toExtentBody = takenBody (a.ext e).toExtentBody (w * 64 + b) := by
    simp only [ha₁, Function.update_self, takenBody, hdiv]
  have helse₁ : SameElse a a₁ e := by
    intro x hxe
    simp only [ha₁, Function.update_of_ne hxe, and_self]
  have hwf₁ : ExtentWf H (takenBody (a.ext e).toExtentBody (w * 64 + b)) bm' :=
    taken_wf hx hslot hclear hfirst hbits
  refine ⟨w * 64 + b, hslot, hclear, hfirst, by rw [htake], ?_⟩
  by_cases hz : (a.ext e).nfree - 1 = 0
  · -- the extent is now full and leaves its class's list
    rw [if_pos hz] at htake
    simp only [htake]
    set a₂ : Alloc := { a₁ with
      ext := (lstRemove a₁.ext (a₁.classHead (a.ext e).cls) e).1
      classHead := Function.update a₁.classHead (a.ext e).cls
        (lstRemove a₁.ext (a₁.classHead (a.ext e).cls) e).2 } with ha₂
    have hbody : ∀ x, (a₂.ext x).toExtentBody = (a₁.ext x).toExtentBody := by
      intro x
      simp only [ha₂, lstRemove_apply]
    have helse : SameElse a a₂ e := fun x hxe =>
      ⟨(hbody x).trans (helse₁ x hxe).1, (helse₁ x hxe).2⟩
    have hbodye : (a₂.ext e).toExtentBody = takenBody (a.ext e).toExtentBody (w * 64 + b) :=
      (hbody e).trans hbody₁
    have hbme : a₂.bm e = bm' := by simp only [ha₂, ha₁, Function.update_self]
    refine ⟨⟨Function.update ls (some (a.ext e).cls) ((ls (some (a.ext e).cls)).erase e), ?_⟩,
      helse, hbodye, fun j => by rw [hbme]; exact hbits j⟩
    refine ⟨lists_remove hl₁ hmem (fun x _ => ⟨rfl, rfl⟩) ?_, fun x => ?_, fun d x => ?_, ?_⟩
    · funext j
      cases j with
      | none => simp [ha₂, head]
      | some d =>
          by_cases hd : d = (a.ext e).cls
          · subst hd
            simp [ha₂, head]
          · simp [ha₂, head, hd]
    · rw [Function.update_of_ne (by simp), h.mem_free]
      by_cases hxe : x = e
      · subst hxe
        simp [hbodye, takenBody, hu]
      · rw [(helse x hxe).1]
    · by_cases hxe : x = e
      · subst hxe
        simp only [hbodye, takenBody, hz, lt_irrefl, and_false, iff_false]
        by_cases hd : d = (a.ext x).cls
        · subst hd
          rw [Function.update_self]
          exact List.Nodup.not_mem_erase (h.lists.isList _).nodup
        · rw [Function.update_of_ne (by simpa using hd)]
          exact fun hm => hd ((h.mem_part d x).mp hm).2.2.1.symm
      · rw [(helse x hxe).1, ← h.mem_part d x]
        by_cases hd : d = (a.ext e).cls
        · subst hd
          rw [Function.update_self, (h.lists.isList _).nodup.mem_erase_iff]
          simp [hxe]
        · rw [Function.update_of_ne (by simpa using hd)]
    · exact h.extent_else helse (by rwa [hbodye, hbme])
  · rw [if_neg hz] at htake
    simp only [htake]
    have hbme : a₁.bm e = bm' := by simp only [ha₁, Function.update_self]
    refine ⟨⟨ls, hl₁, fun x => ?_, fun d x => ?_, ?_⟩, helse₁, hbody₁,
      fun j => by rw [hbme]; exact hbits j⟩
    · rw [h.mem_free]
      by_cases hxe : x = e
      · subst hxe
        simp [hbody₁, takenBody]
      · rw [(helse₁ x hxe).1]
    · rw [h.mem_part]
      by_cases hxe : x = e
      · subst hxe
        simp only [hbody₁, takenBody]
        have : 0 < (a.ext x).nfree - 1 ↔ 0 < (a.ext x).nfree := by omega
        rw [this]
      · rw [(helse₁ x hxe).1]
    · exact h.extent_else helse₁ (by rwa [hbody₁, hbme])

/-! ## Giving a slot back -/

/-- A grain names its extent and, through the class of that extent, its slot. -/
theorem grain_decode (H : Heap) {e slot c : ℕ} (hs : slot < H.slots c) :
    (e * H.extGrains + slot * (c + 1)) / H.extGrains = e ∧
      (e * H.extGrains + slot * (c + 1)) % H.extGrains = slot * (c + 1) ∧
      slot * (c + 1) / (c + 1) = slot ∧ (slot + 1) * (c + 1) ≤ H.extGrains := by
  have h1 := H.slots_mul_le c
  have h2 : (slot + 1) * (c + 1) ≤ H.slots c * (c + 1) := Nat.mul_le_mul_right _ hs
  have h3 : slot * (c + 1) < H.extGrains := by
    rw [Nat.add_mul] at h2
    omega
  refine ⟨?_, ?_, Nat.mul_div_cancel _ (by omega), h2.trans h1⟩
  · rw [Nat.mul_comm e, Nat.mul_add_div (by omega), Nat.div_eq_of_lt h3, Nat.add_zero]
  · rw [Nat.mul_comm e, Nat.mul_add_mod, Nat.mod_eq_of_lt h3]

/-- The record of an extent after slot `slot` has been given back. -/
def freedBody (x : ExtentBody) (slot : ℕ) : ExtentBody :=
  { x with
    nfree := x.nfree + 1
    hint := if slot / 64 < x.hint then slot / 64 else x.hint
    used := decide (x.nfree + 1 ≠ x.nslots) }

theorem freed_wf {x : ExtentBody} {bm bm' : ℕ → BitVec 64} {slot : ℕ} (h : ExtentWf H x bm)
    (hs : slot < x.nslots) (hc : bit bm slot = true)
    (hb' : ∀ j, bit bm' j = (!decide (j = slot) && bit bm j)) :
    ExtentWf H (freedBody x slot) bm' := by
  have hcount := clearBits_clear hs hc hb'
  refine ⟨h.cls_lt, h.nslots_eq, ?_, fun i hi => ?_, ?_, fun w hw => ?_⟩
  · have := h.nfree_eq
    simp only [freedBody]
    omega
  · have hi' : x.nslots ≤ i := hi
    have : i ≠ slot := by omega
    simp [hb', h.tail_set i hi', this]
  · have := h.hint_lt
    simp only [freedBody]
    split <;> omega
  · have hlt : w < x.hint ∧ w < slot / 64 ∨ w < x.hint ∧ x.hint ≤ slot / 64 := by
      simp only [freedBody] at hw
      split at hw <;> omega
    have hwx : w < x.hint := by omega
    have hws : w < slot / 64 := by omega
    apply BitVec.eq_of_getLsbD_eq
    intro b hb64
    have hne : w * 64 + b ≠ slot := by omega
    have hfull := h.hint_full w hwx
    rw [← bit_word bm' w b hb64, hb', bit_word bm w b hb64, hfull]
    simp [hne]

/-- **Giving a slot back.** `slot_free` recovers the extent and the slot number from the grain,
clears that one bit, and moves the extent between the lists as its free count demands. -/
theorem slotFree_spec (h : Wf H a ls) (he : e < H.nExtents) (hu : (a.ext e).used = true)
    {slot : ℕ} (hs : slot < (a.ext e).nslots) (hb : bit (a.bm e) slot = true) {g : ℕ}
    (hg : g = e * H.extGrains + slot * ((a.ext e).cls + 1)) :
    (slotFree H a g).1 = ((a.ext e).cls + 1) * 64 ∧
    (∃ ls', Wf H (slotFree H a g).2 ls') ∧ SameElse a (slotFree H a g).2 e ∧
    ((slotFree H a g).2.ext e).toExtentBody = freedBody (a.ext e).toExtentBody slot ∧
    (∀ j, bit ((slotFree H a g).2.bm e) j = (!decide (j = slot) && bit (a.bm e) j)) ∧
    (slotFree H a g).2.extentsUsed = (if (a.ext e).nfree + 1 = (a.ext e).nslots
      then (a.extentsUsed + (2 ^ 32 - 1)) % 2 ^ 32 else a.extentsUsed) ∧
    (slotFree H a g).2.extentsPeak = a.extentsPeak ∧
    (slotFree H a g).2.slotBytes =
      (a.slotBytes + (2 ^ 64 - ((a.ext e).cls + 1) * 64)) % 2 ^ 64 := by
  have hx := h.extent e he hu
  have hns := hx.nslots_eq
  obtain ⟨hge, hgm, hgs, -⟩ := @grain_decode H e slot (a.ext e).cls (by omega)
  have hsl := H.slots_le (a.ext e).cls
  have hbw := H.extBmwords_bounds
  -- at least this slot is taken, so the count has room
  have hnf : (a.ext e).nfree < (a.ext e).nslots := by
    rw [hx.nfree_eq]
    refine lt_of_le_of_ne (clearBits_le _ _) fun hall => ?_
    have := clearBits_eq_self.mp hall slot hs
    simp [hb] at this
  have h16 : ((a.ext e).nfree + 1) % 2 ^ 16 = (a.ext e).nfree + 1 := Nat.mod_eq_of_lt (by omega)
  have hh16 : slot / 64 % 2 ^ 16 = slot / 64 := Nat.mod_eq_of_lt (by omega)
  set x := a.ext e with hxdef
  set bm' := Function.update (a.bm e) (slot / 64)
    (a.bm e (slot / 64) &&& ~~~(1#64 <<< (slot % 64))) with hbm'
  have hbits : ∀ j, bit bm' j = (!decide (j = slot) && bit (a.bm e) j) := bit_clear _ _
  set a₁ : Alloc := { a with bm := Function.update a.bm e bm' } with ha₁
  set a₂ : Alloc := (if x.nfree = 0 then
      { a₁ with
        ext := (lstPush a₁.ext (a₁.classHead x.cls) e).1
        classHead := Function.update a₁.classHead x.cls e }
    else a₁) with ha₂
  set a₃ : Alloc := { a₂ with
    ext := Function.update a₂.ext e
      { a₂.ext e with
        nfree := x.nfree + 1
        hint := if slot / 64 < x.hint then slot / 64 else x.hint } } with ha₃
  set a₄ : Alloc := (if x.nfree + 1 = x.nslots then
      { a₃ with
        ext := (lstPush (Function.update (lstRemove a₃.ext (a₃.classHead x.cls) e).1 e
          { (lstRemove a₃.ext (a₃.classHead x.cls) e).1 e with used := false }) a₃.freeHead e).1
        classHead := Function.update a₃.classHead x.cls
          (lstRemove a₃.ext (a₃.classHead x.cls) e).2
        freeHead := e
        extentsUsed := (a₃.extentsUsed + (2 ^ 32 - 1)) % 2 ^ 32 }
    else a₃) with ha₄
  have hfree : slotFree H a g = ((x.cls + 1) * 64,
      { a₄ with slotBytes := (a₄.slotBytes + (2 ^ 64 - (x.cls + 1) * 64)) % 2 ^ 64 }) := by
    rw [hg]
    simp only [slotFree, hge, hgm, hgs, ← hxdef, h16, hh16]
    rfl
  -- back on the class list, wherever the extent was
  have hh₁ : a₁.head = a.head := by
    funext j
    cases j <;> rfl
  have hl₂ : ∃ ls₂, Family a₂.nextOf a₂.prevOf extNone a₂.head ls₂ ∧
      (∀ y, y ∈ ls₂ none ↔ y ∈ ls none) ∧ e ∈ ls₂ (some x.cls) ∧
      ∀ d y, y ≠ e → (y ∈ ls₂ (some d) ↔ y ∈ ls (some d)) := by
    by_cases hz : x.nfree = 0
    · have hout : ∀ j, e ∉ ls j := by
        intro j hj
        cases j with
        | none =>
            have := ((h.mem_free e).mp hj).2
            rw [← hxdef, hu] at this
            simp at this
        | some d =>
            have := ((h.mem_part d e).mp hj).2.2.2
            rw [← hxdef] at this
            omega
      refine ⟨Function.update ls (some x.cls) (e :: ls (some x.cls)), ?_, fun y => ?_, ?_, ?_⟩
      · refine lists_push (a := a₁) (k := some x.cls) (e := e)
          (by rw [hh₁]; exact h.lists) hout (H.ne_extNone he) ?_ ?_
        · intro y
          simp only [ha₂, if_pos hz]
          exact ⟨rfl, rfl⟩
        · funext j
          cases j with
          | none => simp [ha₂, hz, head]
          | some d =>
              by_cases hd : d = x.cls
              · subst hd
                simp [ha₂, hz, head]
              · simp [ha₂, hz, head, hd]
      · rw [Function.update_of_ne (by simp)]
      · simp
      · intro d y hy
        by_cases hd : d = x.cls
        · subst hd
          simp [hy]
        · rw [Function.update_of_ne (by simpa using hd)]
    · have : a₂ = a₁ := by rw [ha₂, if_neg hz]
      rw [this]
      exact ⟨ls, by rw [hh₁]; exact h.lists, fun _ => Iff.rfl,
        (h.mem_part _ _).mpr ⟨he, hu, rfl, Nat.pos_of_ne_zero hz⟩, fun _ _ _ => Iff.rfl⟩
  obtain ⟨ls₂, hl₂, hfree₂, hmem₂, hpart₂⟩ := hl₂
  have hbody₂ : ∀ y, (a₂.ext y).toExtentBody = (a.ext y).toExtentBody := by
    intro y
    simp only [ha₂]
    split
    · simp only [lstPush_apply, ha₁]
    · rfl
  have hbm₂ : a₂.bm = a₁.bm := by
    simp only [ha₂]
    split <;> rfl
  have hl₃ : Family a₃.nextOf a₃.prevOf extNone a₃.head ls₂ := by
    have hh : a₃.head = a₂.head := by
      funext j
      cases j <;> rfl
    rw [hh]
    refine hl₂.congr fun k y _ => ?_
    simp only [nextOf, prevOf, ha₃]
    by_cases hy : y = e
    · subst hy
      simp
    · simp [Function.update_of_ne hy]
  have hbme : a₄.bm e = bm' := by
    have : a₄.bm = a₁.bm := by
      rw [← hbm₂]
      simp only [ha₄]
      split <;> rfl
    rw [this]
    simp only [ha₁, Function.update_self]
  have hb₃ : ∀ y, y ≠ e → (a₃.ext y).toExtentBody = (a.ext y).toExtentBody := by
    intro y hy
    simp only [ha₃, Function.update_of_ne hy, hbody₂]
  have hused₂ : a₂.extentsUsed = a.extentsUsed ∧ a₂.extentsPeak = a.extentsPeak ∧
      a₂.slotBytes = a.slotBytes := by
    simp only [ha₂]
    split <;> exact ⟨rfl, rfl, rfl⟩
  have helse₄ : SameElse a a₄ e := by
    intro y hy
    constructor
    · rw [← hb₃ y hy]
      simp only [ha₄]
      split
      · simp only [lstPush_apply, Function.update_of_ne hy, lstRemove_apply]
      · rfl
    · have : a₄.bm = a₁.bm := by
        rw [← hbm₂]
        simp only [ha₄]
        split <;> rfl
      rw [this]
      simp only [ha₁, Function.update_of_ne hy]
  have hbody₄ : (a₄.ext e).toExtentBody = freedBody x.toExtentBody slot := by
    have h2 := hbody₂ e
    simp only [ha₄, freedBody]
    split
    · rename_i hfull
      simp only [lstPush_apply, Function.update_self, lstRemove_apply, ha₃, h2, hfull]
      simp [hxdef]
    · rename_i hfull
      simp only [ha₃, Function.update_self, h2, ne_eq, hfull, not_false_eq_true, decide_true]
      rw [← hxdef, hu]
  have hcounts : a₄.extentsUsed = (if x.nfree + 1 = x.nslots
      then (a.extentsUsed + (2 ^ 32 - 1)) % 2 ^ 32 else a.extentsUsed) ∧
      a₄.extentsPeak = a.extentsPeak ∧ a₄.slotBytes = a.slotBytes := by
    obtain ⟨h1, h2, h3⟩ := hused₂
    simp only [ha₄]
    split
    · simp only [ha₃, h1, h2, h3, and_self]
    · simp only [ha₃, h1, h2, h3, and_self]
  have hwf₄ : ∃ ls', Wf H a₄ ls' := by
    have hnodup := (hl₃.isList (some x.cls)).nodup
    have hcls : ∀ d, d ≠ x.cls → e ∉ ls₂ (some d) := fun d hd hm =>
      hd (Option.some.inj (hl₃.disjoint hm hmem₂))
    have hnone : e ∉ ls₂ none := fun hm => by
      have := hl₃.disjoint hm hmem₂
      simp at this
    by_cases hfull : x.nfree + 1 = x.nslots
    · -- fully empty: off the class list and onto the free list
      set ls₃ := Function.update ls₂ (some x.cls) ((ls₂ (some x.cls)).erase e) with hls₃
      set a₃' : Alloc := { a₃ with
        ext := Function.update (lstRemove a₃.ext (a₃.classHead x.cls) e).1 e
          { (lstRemove a₃.ext (a₃.classHead x.cls) e).1 e with used := false }
        classHead := Function.update a₃.classHead x.cls
          (lstRemove a₃.ext (a₃.classHead x.cls) e).2 } with ha₃'
      have hl₃' : Family a₃'.nextOf a₃'.prevOf extNone a₃'.head ls₃ := by
        refine lists_remove (a := a₃) hl₃ hmem₂ (fun y hy => ?_) ?_
        · simp only [ha₃', Function.update_of_ne hy]
          exact ⟨rfl, rfl⟩
        · funext j
          cases j with
          | none => simp [ha₃', head]
          | some d =>
              by_cases hd : d = x.cls
              · subst hd
                simp [ha₃', head]
              · simp [ha₃', head, hd]
      have hout : ∀ j, e ∉ ls₃ j := by
        intro j
        by_cases hj : j = some x.cls
        · subst hj
          rw [hls₃, Function.update_self]
          exact List.Nodup.not_mem_erase hnodup
        · rw [hls₃, Function.update_of_ne hj]
          cases j with
          | none => exact hnone
          | some d => exact hcls d (by simpa using hj)
      refine ⟨Function.update ls₃ none (e :: ls₃ none), ?_, fun y => ?_, fun d y => ?_, ?_⟩
      · refine lists_push (a := a₃') (k := none) hl₃' hout (H.ne_extNone he) ?_ ?_
        · intro y
          simp only [ha₄, if_pos hfull]
          exact ⟨rfl, rfl⟩
        · funext j
          cases j with
          | none => simp [ha₄, hfull, head]
          | some d => simp [ha₄, hfull, head, ha₃']
      · rw [Function.update_self, List.mem_cons, hls₃, Function.update_of_ne (by simp), hfree₂,
          h.mem_free]
        by_cases hy : y = e
        · subst hy
          simp [hbody₄, freedBody, hfull, he]
        · simp [hy, (helse₄ y hy).1]
      · rw [Function.update_of_ne (by simp), hls₃]
        by_cases hy : y = e
        · subst hy
          have := hout (some d)
          rw [hls₃] at this
          simp [this, hbody₄, freedBody, hfull]
        · rw [(helse₄ y hy).1, ← h.mem_part d y, ← hpart₂ d y hy]
          by_cases hd : d = x.cls
          · subst hd
            rw [Function.update_self, hnodup.mem_erase_iff]
            simp [hy]
          · rw [Function.update_of_ne (by simpa using hd)]
      · refine h.extent_else helse₄ ?_
        rw [hbody₄, hbme]
        exact freed_wf hx hs hb hbits
    · have ha : a₄ = a₃ := by rw [ha₄, if_neg hfull]
      refine ⟨ls₂, by rw [ha]; exact hl₃, fun y => ?_, fun d y => ?_, ?_⟩
      · rw [hfree₂, h.mem_free]
        by_cases hy : y = e
        · subst hy
          simp [hbody₄, freedBody, hfull, ← hxdef, hu]
        · rw [(helse₄ y hy).1]
      · by_cases hy : y = e
        · subst hy
          simp only [hbody₄, freedBody, he, true_and]
          by_cases hd : d = x.cls
          · subst hd
            simp [hmem₂, hfull]
          · simp [hcls d hd, Ne.symm hd]
        · rw [(helse₄ y hy).1, ← h.mem_part d y, ← hpart₂ d y hy]
      · refine h.extent_else helse₄ ?_
        rw [hbody₄, hbme]
        exact freed_wf hx hs hb hbits
  rw [hfree]
  refine ⟨rfl, ?_, helse₄, hbody₄, fun j => ?_, hcounts.1, hcounts.2.1, ?_⟩
  · obtain ⟨ls', hw⟩ := hwf₄
    exact ⟨ls', hw.lists, hw.mem_free, hw.mem_part, hw.extent⟩
  · show bit (a₄.bm e) j = _
    rw [hbme]
    exact hbits j
  · show (a₄.slotBytes + _) % _ = _
    rw [hcounts.2.2]

end Alloc

end NbdVram
