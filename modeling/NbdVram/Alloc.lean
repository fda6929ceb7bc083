import NbdVram.Lib.LinkedArray
import NbdVram.Lib.Bitmap

/-!
# The extent allocator

The VRAM heap is cut into extents of `2 ^ EXTENT_SHIFT` bytes. An extent is on
the free list, or belongs to one of 64 size classes and holds a flat array of
equal slots tracked by a bitmap; a class keeps its partly filled extents on a
list of its own. Offsets are counted in grains of 64 bytes.

The functions below are those of the source, on a record of the allocator's
global variables. Machine widths are written out where the source narrows or
wraps: `uint32_t` grains, `uint16_t` slot counts, `uint8_t` classes.
-/

namespace NbdVram

/-- `SLOT_NONE`: allocation failed, or no slot held. -/
def slotNone : ℕ := 0xFFFFFFFF

/-- `EXT_NONE`: the end of an extent list. -/
def extNone : ℕ := 0xFFFFFFFF

/-- The heap `store_init` is called with. `main` has obtained `vramSize` bytes and has
refused sizes whose grains do not fit 30 bits; `EXTENT_SHIFT` is a build-time constant. -/
structure Heap where
  extentShift : ℕ
  vramSize : ℕ
  shift_lo : 14 ≤ extentShift
  shift_hi : extentShift ≤ 20
  one_extent : 2 ^ extentShift ≤ vramSize
  indexable : vramSize / 64 < 2 ^ 30

namespace Heap

/-- `EXTENT_SIZE`. -/
def extentSize (H : Heap) : ℕ := 2 ^ H.extentShift

/-- `EXT_GRAINS`. -/
def extGrains (H : Heap) : ℕ := H.extentSize / 64

/-- `EXT_BMWORDS`. -/
def extBmwords (H : Heap) : ℕ := H.extGrains / 64

/-- `g_n_extents`, a `uint32_t`. -/
def nExtents (H : Heap) : ℕ := H.vramSize / H.extentSize % 2 ^ 32

end Heap

/-- The fields of `struct extent` that describe its slots. -/
structure ExtentBody where
  nfree : ℕ
  nslots : ℕ
  cls : ℕ
  used : Bool
  hint : ℕ
  deriving Repr, DecidableEq

/-- `struct extent`: the slot fields and the intrusive list links. -/
structure Extent extends ExtentBody where
  next : ℕ
  prev : ℕ
  deriving Repr, DecidableEq

/-- The allocator's global variables. -/
structure Alloc where
  ext : ℕ → Extent
  bm : ℕ → ℕ → BitVec 64
  classHead : ℕ → ℕ
  freeHead : ℕ
  extentsUsed : ℕ
  extentsPeak : ℕ
  slotBytes : ℕ

/-- `lst_push`, returning the array and the new head. -/
def lstPush (ext : ℕ → Extent) (head e : ℕ) : (ℕ → Extent) × ℕ :=
  let ext := Function.update ext e { ext e with prev := extNone, next := head }
  let ext := if head ≠ extNone then Function.update ext head { ext head with prev := e } else ext
  (ext, e)

/-- `lst_remove`, returning the array and the new head. -/
def lstRemove (ext : ℕ → Extent) (head e : ℕ) : (ℕ → Extent) × ℕ :=
  let p := (ext e).prev
  let head₁ := if p ≠ extNone then head else (ext e).next
  let ext₁ :=
    if p ≠ extNone then Function.update ext p { ext p with next := (ext e).next } else ext
  let n := (ext₁ e).next
  let ext₂ :=
    if n ≠ extNone then Function.update ext₁ n { ext₁ n with prev := (ext₁ e).prev } else ext₁
  (Function.update ext₂ e { ext₂ e with next := extNone, prev := extNone }, head₁)

namespace Alloc

variable (H : Heap)

/-- `ext_init`: hand extent `ei` to class `cls`. The bits past the last whole slot are
marked used, so that no scan can hand out a slot that runs off the end. -/
def extInit (a : Alloc) (ei cls : ℕ) : Alloc :=
  let nslots := H.extentSize / ((cls + 1) * 64) % 2 ^ 16
  let full := nslots / 64
  let rem := nslots % 64
  { a with
    ext := Function.update a.ext ei
      { a.ext ei with
        cls := cls % 2 ^ 8, used := true, nslots := nslots, nfree := nslots, hint := 0 }
    bm := Function.update a.bm ei fun w =>
      if rem ≠ 0 ∧ w = full then BitVec.allOnes 64 <<< rem
      else if full + (if rem ≠ 0 then 1 else 0) ≤ w then BitVec.allOnes 64 else 0#64 }

/-- The word loop of `ext_take`: from `hint` on, circularly, the first word with a clear bit.
`k` counts the words still to look at. -/
def scanWords (bm : ℕ → BitVec 64) (words hint : ℕ) : ℕ → ℕ → Option ℕ
  | 0, _ => none
  | k + 1, i =>
    let w := if words ≤ hint + i then hint + i - words else hint + i
    if bm w = BitVec.allOnes 64 then scanWords bm words hint k (i + 1) else some w

/-- `ext_take`: claim one slot of extent `ei`. -/
def extTake (a : Alloc) (ei : ℕ) : ℕ × Alloc :=
  let e := a.ext ei
  match scanWords (a.bm ei) H.extBmwords e.hint H.extBmwords 0 with
  | none => (slotNone, a)
  | some w =>
    let b := Bitmap.ctz (~~~(a.bm ei w))
    let nfree := (e.nfree + (2 ^ 16 - 1)) % 2 ^ 16
    let a := { a with
      bm := Function.update a.bm ei
        (Function.update (a.bm ei) w (a.bm ei w ||| 1#64 <<< b))
      ext := Function.update a.ext ei { e with hint := w % 2 ^ 16, nfree := nfree } }
    let a :=
      if nfree = 0 then
        let l := lstRemove a.ext (a.classHead e.cls) ei
        { a with ext := l.1, classHead := Function.update a.classHead e.cls l.2 }
      else a
    ((ei * H.extGrains + (w * 64 + b) * (e.cls + 1)) % 2 ^ 32, a)

/-- The branch of `slot_alloc` that takes the first free extent into class `cls`. -/
def commitExtent (a : Alloc) (cls : ℕ) : Alloc :=
  let ei := a.freeHead
  let l := lstRemove a.ext a.freeHead ei
  let a := extInit H { a with ext := l.1, freeHead := l.2 } ei cls
  let l := lstPush a.ext (a.classHead cls) ei
  let used := (a.extentsUsed + 1) % 2 ^ 32
  { a with
    ext := l.1
    classHead := Function.update a.classHead cls l.2
    extentsUsed := used
    extentsPeak := if a.extentsPeak < used then used else a.extentsPeak }

/-- The extent `slot_alloc` settles on for class `cls`, and the state with it committed:
the class's own partial extent, else a fresh one, else the head of the smallest larger class
that has one. -/
def pickExtent (a : Alloc) (cls : ℕ) : ℕ × Alloc :=
  let fresh := a.classHead cls = extNone ∧ a.freeHead ≠ extNone
  let ei := if fresh then a.freeHead else a.classHead cls
  let a := if fresh then commitExtent H a cls else a
  if ei = extNone then
    match (List.range' (cls + 1) (63 - cls)).find? fun c => a.classHead c ≠ extNone with
    | some c => (a.classHead c, a)
    | none => (extNone, a)
  else (ei, a)

/-- `slot_alloc`: the grain and, when it succeeds, the number of bytes reserved. -/
def slotAlloc (a : Alloc) (nbytes : ℕ) : (ℕ × ℕ) × Alloc :=
  let p := pickExtent H a ((nbytes - 1) / 64)
  if p.1 ≠ extNone then
    let t := extTake H p.2 p.1
    if t.1 ≠ slotNone then
      let sz := ((t.2.ext p.1).cls + 1) * 64
      ((t.1, sz), { t.2 with slotBytes := (t.2.slotBytes + sz) % 2 ^ 64 })
    else ((slotNone, 0), t.2)
  else ((slotNone, 0), p.2)

/-- `slot_free`: the number of bytes released. -/
def slotFree (a : Alloc) (grain : ℕ) : ℕ × Alloc :=
  let ei := grain / H.extGrains
  let e := a.ext ei
  let slot := grain % H.extGrains / (e.cls + 1)
  let sz := (e.cls + 1) * 64
  let a := { a with
    bm := Function.update a.bm ei
      (Function.update (a.bm ei) (slot / 64) (a.bm ei (slot / 64) &&& ~~~(1#64 <<< (slot % 64)))) }
  let a :=
    if e.nfree = 0 then
      let l := lstPush a.ext (a.classHead e.cls) ei
      { a with ext := l.1, classHead := Function.update a.classHead e.cls l.2 }
    else a
  let nfree := (e.nfree + 1) % 2 ^ 16
  let hint := if slot / 64 < e.hint then slot / 64 % 2 ^ 16 else e.hint
  let a := { a with ext := Function.update a.ext ei { a.ext ei with nfree := nfree, hint := hint } }
  let a :=
    if nfree = e.nslots then
      let l := lstRemove a.ext (a.classHead e.cls) ei
      let ext := Function.update l.1 ei { l.1 ei with used := false }
      let p := lstPush ext a.freeHead ei
      { a with
        ext := p.1
        classHead := Function.update a.classHead e.cls l.2
        freeHead := p.2
        extentsUsed := (a.extentsUsed + (2 ^ 32 - 1)) % 2 ^ 32 }
    else a
  (sz, { a with slotBytes := (a.slotBytes + (2 ^ 64 - sz)) % 2 ^ 64 })

/-- The list-building loop of `store_init`, from the last extent down. -/
def buildFree (ext : ℕ → Extent) (head : ℕ) : ℕ → (ℕ → Extent) × ℕ
  | 0 => (ext, head)
  | i + 1 =>
    let ext := Function.update ext i { ext i with next := extNone, prev := extNone }
    let l := lstPush ext head i
    buildFree l.1 l.2 i

/-- The allocator as `store_init` leaves it: zeroed records, all extents on the free list in
ascending order. -/
def storeInit : Alloc :=
  let zero : Extent := ⟨⟨0, 0, 0, false, 0⟩, 0, 0⟩
  let l := buildFree (fun _ => zero) extNone H.nExtents
  { ext := l.1
    bm := fun _ _ => 0#64
    classHead := fun _ => extNone
    freeHead := l.2
    extentsUsed := 0
    extentsPeak := 0
    slotBytes := 0 }

/-- The smallest heap: one extent of 16 KiB. -/
def smallHeap : Heap := ⟨14, 16384, by decide, by decide, by decide, by decide⟩

end Alloc

end NbdVram
