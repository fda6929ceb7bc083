import NbdVram.AllocUniform
import NbdVram.Power

/-!
# How `main` comes to its sizes

Before the first connection `main` reads its environment variables, picks a
compression library, asks the driver for VRAM, 512 MiB less each time it is refused,
and derives from what it got the size of the device that the kernel will see. All
that the rest of the development takes for granted of a configuration is established
here or refused; the configurations a daemon runs with are those `main` produces.
-/

namespace NbdVram

/-! ## Numbers in the environment -/

/-- `isspace`. -/
def isSpace (c : Char) : Bool := c = ' ' || ('\t' ≤ c && c ≤ '\r')

/-- The digits up to the first other character, after `n`. -/
def leading (n : ℕ) : List Char → ℕ
  | [] => n
  | c :: cs => if c.isDigit then leading (10 * n + (c.toNat - '0'.toNat)) cs else n

/-- `atol`: blanks, a sign and digits; what follows is ignored, and a `long` saturates. -/
def atol (s : String) : ℤ :=
  let v : ℤ :=
    match s.toList.dropWhile isSpace with
    | '-' :: cs => -(leading 0 cs : ℤ)
    | '+' :: cs => leading 0 cs
    | cs => leading 0 cs
  max (-(2 ^ 63)) (min v (2 ^ 63 - 1))

/-- `atoi`: the low half of that, as an `int`. -/
def atoi (s : String) : ℤ := (atol s).bmod (2 ^ 32)

/-- A setting that is brought between two bounds. -/
def clamp (lo hi v : ℤ) : ℤ :=
  let v := if v < lo then lo else v
  if hi < v then hi else v

theorem clamp_bounds {lo hi : ℤ} (h : lo ≤ hi) (v : ℤ) : lo ≤ clamp lo hi v ∧ clamp lo hi v ≤ hi := by
  simp only [clamp]
  split <;> split <;> omega

theorem clamp_of_mem {lo hi v : ℤ} (h : lo ≤ v) (h' : v ≤ hi) : clamp lo hi v = v := by
  simp only [clamp]
  split <;> split <;> omega

/-- What a library does with a block. -/
structure Lib where
  compress : List UInt8 → Option (List UInt8)
  decompress : List UInt8 → Option (List UInt8)

/-- What `main` finds: the environment variables, the usable libraries (zstd for each level), and
the answers of the driver and of the C library. `cuMemAlloc k n` is the device address that call
`k` for `n` bytes gives. -/
structure Environment where
  nbdThreads : Option String
  batch : Option String
  batchDepth : Option String
  batchDebug : Option String
  compress : Option String
  compressLevel : Option String
  setupSizeMb : Option String
  diskSizeMb : Option String
  zstd : Option (ℤ → Lib)
  lz4 : Option Lib
  libcuda : Bool
  cuInit : ℕ → Bool
  cuDeviceGet : Bool
  cuCtxCreate : Bool
  cuMemAlloc : ℕ → ℕ → Option ℕ
  indexMapped : Bool
  extentsAllocated : Bool

/-- The build: `EXTENT_SHIFT`, in the range that the 16-bit slot counts are sized for. -/
structure Build where
  extentShift : ℕ
  shift_lo : 14 ≤ extentShift
  shift_hi : extentShift ≤ 20

namespace Environment

variable (e : Environment)

/-- `VRAM_NBD_THREADS`. -/
def threads : ℤ := e.nbdThreads.elim 4 fun s => clamp 1 64 (atoi s)

/-- `VRAM_BATCH_DEPTH`. -/
def depth : ℤ := e.batchDepth.elim 32 fun s => clamp 1 256 (atoi s)

/-- `VRAM_COMPRESS_LEVEL`; empty counts as unset. -/
def level : ℤ := e.compressLevel.elim 1 fun s => if s = "" then 1 else clamp 1 19 (atoi s)

/-- `VRAM_BATCH`. -/
def batchEnabled : Bool := e.batch.elim true fun s => atoi s ≠ 0

/-- `VRAM_BATCH_DEBUG`. -/
def debug : Bool := e.batchDebug.elim false fun s => atoi s ≠ 0

theorem threads_bounds : 1 ≤ e.threads ∧ e.threads ≤ 64 := by
  unfold threads
  cases e.nbdThreads with
  | none => decide
  | some s => exact clamp_bounds (by decide) _

theorem depth_bounds : 1 ≤ e.depth ∧ e.depth ≤ 256 := by
  unfold depth
  cases e.batchDepth with
  | none => decide
  | some s => exact clamp_bounds (by decide) _

theorem level_bounds : 1 ≤ e.level ∧ e.level ≤ 19 := by
  unfold level
  cases e.compressLevel with
  | none => decide
  | some s =>
      simp only [Option.elim_some]
      split
      · exact ⟨le_rfl, by omega⟩
      · exact clamp_bounds (by decide) _

/-- `load_libcompress`. An unknown `VRAM_COMPRESS` passes zstd over. -/
def loadLibcompress : Codec :=
  let none' : Codec := ⟨.none, fun _ => none, fun _ => none⟩
  let lz4 : Codec := e.lz4.elim none' fun l => ⟨.lz4, l.compress, l.decompress⟩
  if e.compress = some "none" ∨ e.compress = some "0" ∨ e.compress = some "off" then none'
  else if e.compress = some "lz4" ∧ e.lz4.isSome then lz4
  else if e.compress = none ∨ e.compress = some "zstd" ∨ e.compress = some "lz4" then
    e.zstd.elim lz4 fun l => ⟨.zstd, (l e.level).compress, (l e.level).decompress⟩
  else lz4

/-- `VRAM_SETUP_SIZE_MB` as a `size_t`. -/
def setupMb : ℕ := e.setupSizeMb.elim 7168 fun s => (atol s % 2 ^ 64).toNat

end Environment

/-! ## Backing off -/

/-- The bytes that are asked for as `mb` MiB. -/
def vramBytes (mb : ℕ) : ℕ := mb * 1024 * 1024 % 2 ^ 64 / 65536 * 65536

/-- The loop around `cuMemAlloc`, from its call `k` on; a null address counts as nothing.
`fuel` bounds the rounds. -/
def backoff (cuMemAlloc : ℕ → ℕ → Option ℕ) : ℕ → ℕ → ℕ → Option ℕ
  | 0, _, _ => none
  | fuel + 1, k, mb =>
    if mb < 1024 then none
    else
      match cuMemAlloc k (vramBytes mb) with
      | some p => if p = 0 then none else some (vramBytes mb)
      | none => backoff cuMemAlloc fuel (k + 1) (mb - 512)

/-- **What the loop settles on**: the first size that is not refused, if the address is good. -/
theorem backoff_eq_some {cuMemAlloc : ℕ → ℕ → Option ℕ} {fuel k mb size : ℕ} :
    backoff cuMemAlloc fuel k mb = some size ↔ ∃ i < fuel, 1024 + 512 * i ≤ mb ∧
      (∀ j < i, cuMemAlloc (k + j) (vramBytes (mb - 512 * j)) = none) ∧
      (∃ p, p ≠ 0 ∧ cuMemAlloc (k + i) (vramBytes (mb - 512 * i)) = some p) ∧
      size = vramBytes (mb - 512 * i) := by
  induction fuel generalizing k mb with
  | zero => simp [backoff]
  | succ fuel ih =>
      unfold backoff
      by_cases hmb : mb < 1024
      · rw [if_pos hmb]
        refine iff_of_false (by simp) ?_
        rintro ⟨i, -, hi, -⟩
        omega
      rw [if_neg hmb]
      cases hc : cuMemAlloc k (vramBytes mb) with
      | some p =>
          dsimp only
          by_cases hp : p = 0
          · rw [if_pos hp]
            refine iff_of_false (by simp) ?_
            rintro ⟨i, -, -, hno, ⟨q, hq, hi⟩, -⟩
            rcases Nat.eq_zero_or_pos i with rfl | hpos
            · rw [Nat.mul_zero, Nat.sub_zero, Nat.add_zero, hc, Option.some.injEq] at hi
              exact hq (hi ▸ hp)
            · have := hno 0 hpos
              rw [Nat.mul_zero, Nat.sub_zero, Nat.add_zero, hc] at this
              cases this
          · rw [if_neg hp, Option.some.injEq]
            constructor
            · rintro rfl
              exact ⟨0, by omega, by omega, fun j hj => absurd hj (Nat.not_lt_zero j), ⟨p, hp, hc⟩, rfl⟩
            · rintro ⟨i, -, -, hno, -, rfl⟩
              rcases Nat.eq_zero_or_pos i with rfl | hpos
              · rfl
              · have := hno 0 hpos
                rw [Nat.mul_zero, Nat.sub_zero, Nat.add_zero, hc] at this
                cases this
      | none =>
          show backoff cuMemAlloc fuel (k + 1) (mb - 512) = some size ↔ _
          rw [ih]
          have hsub : ∀ j, mb - 512 - 512 * j = mb - 512 * (j + 1) := fun j => by omega
          have hadd : ∀ j, k + 1 + j = k + (j + 1) := fun j => by omega
          simp only [hsub, hadd]
          constructor
          · rintro ⟨i, hi, hle, hno, hyes, hsz⟩
            refine ⟨i + 1, by omega, by omega, fun j hj => ?_, hyes, hsz⟩
            cases j with
            | zero => exact hc
            | succ j => exact hno j (by omega)
          · rintro ⟨i, hi, hle, hno, hyes, hsz⟩
            cases i with
            | zero =>
                obtain ⟨q, -, hq⟩ := hyes
                rw [Nat.mul_zero, Nat.sub_zero, Nat.add_zero, hc] at hq
                cases hq
            | succ i =>
                exact ⟨i, by omega, by omega, fun j hj => hno (j + 1) (by omega), hyes, hsz⟩

/-! ## The sizes -/

/-- `g_disk_size`, from `VRAM_DISK_SIZE_MB`, the codec and the VRAM obtained. -/
def diskSize (env : Option String) (codec : CodecKind) (vramSize : ℕ) : ℕ :=
  let asked := match env with
    | some s => if s = "" then vramSize * 2 % 2 ^ 64 else (atol s % 2 ^ 64).toNat * 1024 * 1024 % 2 ^ 64
    | none => vramSize * 2 % 2 ^ 64
  let capped := if codec = .none ∧ vramSize < asked then vramSize else asked
  capped / 4096 * 4096

/-- Why `main` gives up before it serves anybody, with the figures of its message. -/
inductive Refusal
  | cuda
  | allocation
  | indexable (mib : ℕ)
  | diskTooSmall
  | indexMapping (mib : ℕ)
  | noExtent (kib : ℕ)
  | bookkeeping
  deriving DecidableEq

/-! What a configuration promises of its sizes, for the ones `main` builds. -/

theorem one_extent_of (b : Build) (v : ℕ) (h : v / 2 ^ b.extentShift % 2 ^ 32 ≠ 0) :
    2 ^ b.extentShift ≤ v := by
  by_contra hlt
  rw [Nat.div_eq_of_lt (not_le.mp hlt)] at h
  exact h rfl

theorem diskSize_blocks (e : Environment) (v : ℕ) :
    4096 ∣ diskSize e.diskSizeMb e.loadLibcompress.kind v :=
  Dvd.intro_left _ rfl

theorem diskSize_lt (e : Environment) (v : ℕ) (hidx : v / 64 < 2 ^ 30) :
    diskSize e.diskSizeMb e.loadLibcompress.kind v < 2 ^ 64 := by
  refine (Nat.div_mul_le_self _ 4096).trans_lt ?_
  have hasked : ∀ a, a < 2 ^ 64 →
      (if e.loadLibcompress.kind = .none ∧ v < a then v else a) < 2 ^ 64 := by
    intro a ha
    split
    · omega
    · exact ha
  apply hasked
  cases e.diskSizeMb with
  | none => exact Nat.mod_lt _ (by decide)
  | some s =>
      show (if s = "" then _ else _) < _
      split <;> exact Nat.mod_lt _ (by decide)

theorem depth_pos_of (e : Environment) : 0 < e.depth.toNat := by
  have := e.depth_bounds
  omega

theorem depth_le_of (e : Environment) : e.depth.toNat ≤ 256 := by
  have := e.depth_bounds
  omega

/-- `main` up to its first connection: the configuration the daemon runs with. -/
def main (b : Build) (e : Environment) : Except Refusal Config :=
  if ¬ (e.libcuda = true ∧ (∃ i < 10, e.cuInit i = true) ∧ e.cuDeviceGet = true ∧
      e.cuCtxCreate = true) then .error .cuda
  else
    match backoff e.cuMemAlloc e.setupMb 0 e.setupMb with
    | none => .error .allocation
    | some vramSize =>
      if hidx : vramSize / 64 < 2 ^ 30 then
        let codec := e.loadLibcompress
        let disk := diskSize e.diskSizeMb codec.kind vramSize
        if hdisk : 4096 ≤ disk then
          if e.indexMapped = false then .error (.indexMapping (disk / 4096 * 8 / 2 ^ 20))
          else if hext : vramSize / 2 ^ b.extentShift % 2 ^ 32 ≠ 0 then
            if e.extentsAllocated = false then .error .bookkeeping
            else .ok {
              heap := {
                extentShift := b.extentShift
                vramSize := vramSize
                shift_lo := b.shift_lo
                shift_hi := b.shift_hi
                one_extent := one_extent_of b vramSize hext
                indexable := hidx }
              codec := codec
              diskSize := disk
              batchEnabled := e.batchEnabled
              batchDepth := e.depth.toNat
              batchDebug := e.debug
              disk_pos := hdisk
              disk_blocks := diskSize_blocks e vramSize
              disk_lt := diskSize_lt e vramSize hidx
              depth_pos := depth_pos_of e
              depth_le := depth_le_of e }
          else .error (.noExtent (2 ^ b.extentShift / 1024))
        else .error .diskTooSmall
      else .error (.indexable (vramSize / 2 ^ 20))

/-- What a daemon that has come up was started with. -/
structure Started (b : Build) (e : Environment) (cfg : Config) : Prop where
  granted : backoff e.cuMemAlloc e.setupMb 0 e.setupMb = some cfg.heap.vramSize
  shift : cfg.heap.extentShift = b.extentShift
  codec : cfg.codec = e.loadLibcompress
  disk : cfg.diskSize = diskSize e.diskSizeMb cfg.codec.kind cfg.heap.vramSize
  batch : cfg.batchEnabled = e.batchEnabled
  depth : (cfg.batchDepth : ℤ) = e.depth

variable {b : Build} {e : Environment} {cfg : Config}

theorem main_started (h : main b e = .ok cfg) : Started b e cfg := by
  unfold main at h
  split at h
  · cases h
  split at h
  · cases h
  rename_i vramSize hv
  split at h
  · dsimp only at h
    split at h
    · split at h
      · cases h
      split at h
      · split at h
        · cases h
        cases h
        exact ⟨hv, rfl, rfl, rfl, rfl, Int.toNat_of_nonneg (by have := e.depth_bounds; omega)⟩
      · cases h
    · cases h
  · cases h

theorem vramBytes_eq (mb : ℕ) : vramBytes mb = mb % 2 ^ 44 * 2 ^ 20 := by
  unfold vramBytes
  omega

/-- Whatever `VRAM_SETUP_SIZE_MB` says, the VRAM is a whole number of MiB. -/
theorem Started.mib (h : Started b e cfg) : 2 ^ 20 ∣ cfg.heap.vramSize := by
  obtain ⟨i, -, -, -, -, hsz⟩ := backoff_eq_some.mp h.granted
  rw [hsz, vramBytes_eq]
  exact Nat.dvd_mul_left _ _

/-- The extents cover the VRAM: none of it is lost at the end. -/
theorem Started.extents (h : Started b e cfg) :
    cfg.heap.nExtents * cfg.heap.extentSize = cfg.heap.vramSize := by
  have hdvd : cfg.heap.extentSize ∣ cfg.heap.vramSize :=
    (Nat.pow_dvd_pow 2 cfg.heap.shift_hi).trans h.mib
  rw [cfg.heap.nExtents_eq, Nat.div_mul_cancel hdvd]

/-- An extent is a whole number of pages, and all of them are slots of the largest class. -/
theorem Heap.slots_pages (H : Heap) : H.slots 63 * 4096 = H.extentSize := by
  have hlo := H.shift_lo
  have hhi := H.shift_hi
  unfold Heap.slots Heap.extentSize
  interval_cases H.extentShift <;> decide

/-- In pages the heap holds all the VRAM. -/
theorem Started.capacity (h : Started b e cfg) :
    Alloc.capacity cfg.heap 63 * 4096 = cfg.heap.vramSize := by
  rw [Alloc.capacity, Nat.mul_assoc, cfg.heap.slots_pages, h.extents]

theorem diskSize_none_le (env : Option String) (v : ℕ) : diskSize env .none v ≤ v := by
  refine (Nat.div_mul_le_self _ 4096).trans ?_
  have hcap : ∀ a, (if v < a then v else a) ≤ v := by
    intro a
    split <;> omega
  simp only [true_and]
  exact hcap _

/-- Without a codec there is a slot for every block of the device. -/
theorem Started.nblocks_le (h : Started b e cfg) (hcodec : cfg.codec.kind = .none) :
    cfg.nblocks ≤ Alloc.capacity cfg.heap 63 := by
  have hdisk := h.disk
  have hcap := h.capacity
  have hle := diskSize_none_le e.diskSizeMb cfg.heap.vramSize
  rw [hcodec] at hdisk
  unfold Config.nblocks
  omega

/-- **What `main` grants itself.** For every environment in which the daemon comes up: the VRAM is
a whole number of MiB, indexable, and divided into extents without remainder, so that a heap of
pages holds exactly as many as fit the VRAM; the device is a whole number of blocks, within the
VRAM if there is no codec, so that then every block can be stored at once, and twice the VRAM if
there is one and no size was asked for. -/
theorem main_sizes (h : main b e = .ok cfg) :
    2 ^ 20 ∣ cfg.heap.vramSize ∧ cfg.heap.vramSize < 2 ^ 36 ∧
    cfg.heap.nExtents * cfg.heap.extentSize = cfg.heap.vramSize ∧
    cfg.heap.nExtents * cfg.heap.slots 63 = cfg.heap.vramSize / 4096 ∧
    cfg.nblocks * 4096 = cfg.diskSize ∧
    (cfg.codec.kind = .none → cfg.diskSize ≤ cfg.heap.vramSize ∧
      cfg.nblocks ≤ cfg.heap.nExtents * cfg.heap.slots 63) ∧
    (cfg.codec.kind ≠ .none → e.diskSizeMb = none → cfg.diskSize = 2 * cfg.heap.vramSize) := by
  have hs := main_started h
  have hidx := cfg.heap.indexable
  have hcap := hs.capacity
  unfold Alloc.capacity at hcap
  refine ⟨hs.mib, by omega, hs.extents, by omega, Nat.div_mul_cancel cfg.disk_blocks, fun hc => ?_,
    fun hc hunset => ?_⟩
  · refine ⟨?_, hs.nblocks_le hc⟩
    rw [hs.disk, hc]
    exact diskSize_none_le _ _
  · have hdvd : 4096 ∣ cfg.heap.vramSize * 2 :=
      ((show 4096 ∣ 2 ^ 20 by decide).trans hs.mib).mul_right 2
    rw [hs.disk, hunset]
    simp only [diskSize, if_neg (fun hx : cfg.codec.kind = .none ∧ _ => hc hx.1)]
    rw [Nat.mod_eq_of_lt (by omega), Nat.div_mul_cancel hdvd, Nat.mul_comm]

/-- One GiB of VRAM, a disk of four asked for, and no compression. -/
def fillEnvironment : Environment where
  nbdThreads := none
  batch := none
  batchDepth := none
  batchDebug := none
  compress := some "none"
  compressLevel := none
  setupSizeMb := some "1024"
  diskSizeMb := some "4096"
  zstd := none
  lz4 := none
  libcuda := true
  cuInit := fun _ => true
  cuDeviceGet := true
  cuCtxCreate := true
  cuMemAlloc := fun _ _ => some 65536
  indexMapped := true
  extentsAllocated := true

theorem plain_shift_lo : 14 ≤ 20 := by decide

theorem plain_shift_hi : 20 ≤ 20 := le_rfl

/-- The default build. -/
def plainBuild : Build := ⟨20, plain_shift_lo, plain_shift_hi⟩

/-- What `main` makes of that: the device is capped at the VRAM. -/
def fillConfig : Config where
  heap := ⟨20, 2 ^ 30, plain_shift_lo, plain_shift_hi, by decide, by decide⟩
  codec := ⟨.none, fun _ => none, fun _ => none⟩
  diskSize := 2 ^ 30
  batchEnabled := true
  batchDepth := 32
  batchDebug := false
  disk_pos := by decide
  disk_blocks := by decide
  disk_lt := by decide
  depth_pos := by decide
  depth_le := by decide

theorem main_fill : main plainBuild fillEnvironment = .ok fillConfig := by
  have hcuda : fillEnvironment.libcuda = true ∧ (∃ i < 10, fillEnvironment.cuInit i = true) ∧
      fillEnvironment.cuDeviceGet = true ∧ fillEnvironment.cuCtxCreate = true := by decide
  have hback : backoff fillEnvironment.cuMemAlloc fillEnvironment.setupMb 0 fillEnvironment.setupMb =
      some (2 ^ 30) := by decide
  have hdisk : diskSize fillEnvironment.diskSizeMb fillEnvironment.loadLibcompress.kind (2 ^ 30) =
      2 ^ 30 := by decide
  have hdepth : fillEnvironment.depth = 32 := by decide
  unfold main
  rw [if_neg (not_not.mpr hcuda)]
  simp only [hback, hdisk]
  rw [dif_pos (show 2 ^ 30 / 64 < 2 ^ 30 by decide), dif_pos (show 4096 ≤ 2 ^ 30 by decide),
    if_neg (by decide), dif_pos (by decide), if_neg (by decide)]
  simp only [hdepth]
  rfl

theorem main_sizes_fill : fillConfig.diskSize ≤ fillConfig.heap.vramSize ∧
    fillConfig.nblocks ≤ fillConfig.heap.nExtents * fillConfig.heap.slots 63 :=
  (main_sizes main_fill).2.2.2.2.2.1 rfl

/-- A driver that grants whatever fits into `free` bytes. -/
def Grants (free : ℕ) (cuMemAlloc : ℕ → ℕ → Option ℕ) : Prop :=
  ∀ k n, (n ≤ free → ∃ p, p ≠ 0 ∧ cuMemAlloc k n = some p) ∧ (free < n → cuMemAlloc k n = none)

/-- **Backing off costs less than 512 MiB.** If the driver grants what fits into `free` bytes, then
`main` gets what was asked for, or all of `free` but less than 512 MiB; and it gets nothing only
if less than 1 GiB was asked for or less than 1.5 GiB is free. -/
theorem backoff_best {free mb : ℕ} {cuMemAlloc : ℕ → ℕ → Option ℕ} (hg : Grants free cuMemAlloc)
    (hmb : mb < 2 ^ 44) :
    (∀ size, backoff cuMemAlloc mb 0 mb = some size → size ≤ free ∧ size ≤ mb * 2 ^ 20 ∧
      (size = mb * 2 ^ 20 ∨ free < size + 512 * 2 ^ 20)) ∧
    (backoff cuMemAlloc mb 0 mb = none → mb < 1024 ∨ free < 1536 * 2 ^ 20) := by
  have hbytes : ∀ m ≤ mb, vramBytes m = m * 2 ^ 20 := by
    intro m hm
    rw [vramBytes_eq, Nat.mod_eq_of_lt (by omega)]
  constructor
  · intro size hsize
    obtain ⟨i, -, hi, hno, ⟨p, -, hp⟩, rfl⟩ := backoff_eq_some.mp hsize
    have hfit : vramBytes (mb - 512 * i) ≤ free := by
      by_contra hlt
      rw [(hg _ _).2 (not_le.mp hlt)] at hp
      cases hp
    rw [hbytes _ (by omega)] at hfit ⊢
    refine ⟨hfit, by omega, ?_⟩
    cases i with
    | zero => exact .inl rfl
    | succ i =>
        -- the round before was refused
        have hprev : free < vramBytes (mb - 512 * i) := by
          by_contra hle
          obtain ⟨q, -, hq⟩ := (hg (0 + i) (vramBytes (mb - 512 * i))).1 (not_lt.mp hle)
          rw [hno i (Nat.lt_succ_self i)] at hq
          cases hq
        rw [hbytes _ (by omega), show mb - 512 * i = mb - 512 * (i + 1) + 512 by omega,
          Nat.add_mul] at hprev
        exact .inr hprev
  · intro hnone
    by_contra hcon
    obtain ⟨hge, hfree⟩ := not_or.mp hcon
    -- the last round asks for less than 1.5 GiB, so there is a first one that fits
    have hlast : ∃ i, 1024 + 512 * i ≤ mb ∧ vramBytes (mb - 512 * i) ≤ free := by
      refine ⟨(mb - 1024) / 512, by omega, ?_⟩
      rw [hbytes _ (by omega)]
      omega
    classical
    obtain ⟨hi, hfit⟩ := Nat.find_spec hlast
    have hbefore : ∀ j < Nat.find hlast, cuMemAlloc (0 + j) (vramBytes (mb - 512 * j)) = none := by
      intro j hj
      refine (hg _ _).2 ?_
      by_contra hle
      exact Nat.find_min hlast hj ⟨by omega, not_lt.mp hle⟩
    have hfuel : Nat.find hlast < mb := by omega
    have hsome := backoff_eq_some.mpr ⟨Nat.find hlast, hfuel, hi, hbefore,
      (hg (0 + Nat.find hlast) _).1 hfit, rfl⟩
    rw [hnone] at hsome
    cases hsome

/-- Two GiB were asked for and 1.75 GiB are free. -/
theorem backoff_best_some : ∃ size,
    backoff (fun _ n => if n ≤ 1792 * 2 ^ 20 then some 1 else none) 2048 0 2048 = some size ∧
    size ≤ 1792 * 2 ^ 20 ∧ size ≤ 2048 * 2 ^ 20 ∧
    (size = 2048 * 2 ^ 20 ∨ 1792 * 2 ^ 20 < size + 512 * 2 ^ 20) := by
  have hgrants : Grants (1792 * 2 ^ 20) fun _ n => if n ≤ 1792 * 2 ^ 20 then some 1 else none :=
    fun k n => ⟨fun hle => ⟨1, by decide, if_pos hle⟩, fun hlt => if_neg (by omega)⟩
  have hsize : backoff (fun _ n => if n ≤ 1792 * 2 ^ 20 then some 1 else none) 2048 0 2048 =
      some (1536 * 2 ^ 20) := by decide
  exact ⟨_, hsize, (backoff_best hgrants (by decide)).1 _ hsize⟩

end NbdVram
