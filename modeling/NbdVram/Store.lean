import NbdVram.Machine

/-!
# The block store

The functions of the source between the request handlers and the device, as
programs over the actions of `Op`: preparing, publishing and aborting writes, the
validated lock-free read with its retries, the locked single-block paths, and
access to arbitrary byte ranges. A worker's own buffers are ordinary values, passed
along explicitly; only the pinned staging, which the device reads and writes behind
the worker's back, belongs to the machine.
-/

namespace NbdVram

open Interleave Prog Span

/-! ## Actions, under the names of the source -/

def lock (m : Mutex) : Prog sig Unit := call (σ := sig) (.lock m)

def unlock (m : Mutex) : Prog sig Unit := call (σ := sig) (.unlock m)

/-- `idx_load`. -/
def idxLoad (why : LoadFor) (blk : ℕ) : Prog sig ℕ := call (σ := sig) (.idxLoad why blk)

/-- The release store to `g_index[blk]`. -/
def idxStore (req blk ent : ℕ) : Prog sig Unit := call (σ := sig) (.idxStore req blk ent)

def stageWrite (slot : Stage) (bs : List UInt8) : Prog sig Unit :=
  call (σ := sig) (.stageWrite slot bs)

def stageRead (slot : Stage) (n : ℕ) : Prog sig (List UInt8) := call (σ := sig) (.stageRead slot n)

/-- `cuMemcpyHtoDAsync` on the worker's stream: `true` is `CUDA_SUCCESS`. -/
def htod (tag : Tag) (slot : Stage) (grain n : ℕ) : Prog sig Bool :=
  call (σ := sig) (.htod tag slot grain n)

/-- `cuMemcpyDtoHAsync` on the worker's stream. -/
def dtoh (tag : Tag) (slot : Stage) (grain n : ℕ) : Prog sig Bool :=
  call (σ := sig) (.dtoh tag slot grain n)

/-- `cuStreamSynchronize` on the worker's stream. -/
def sync : Prog sig Bool := call (σ := sig) .sync

def ctrAdd (c : Counter) (n : ℕ) : Prog sig Unit := call (σ := sig) (.ctrAdd c n)

def ctrSub (c : Counter) (n : ℕ) : Prog sig Unit := call (σ := sig) (.ctrSub c n)

def event (e : Event) : Prog sig Unit := call (σ := sig) (.event e)

def access (a : Access) : Prog sig Unit := event (.access a)

/-- `slot_alloc`, under `g_alloc_mu`. No caller uses `*slot_bytes`. -/
def slotAlloc (tag : Tag) (nbytes : ℕ) : Prog sig ℕ := do
  lock .alloc
  let r ← call (σ := sig) (.slotAlloc tag nbytes)
  unlock .alloc
  pure (Prod.fst r)

/-- `slot_free`, under `g_alloc_mu`. No caller uses its result. -/
def slotFree (grain : ℕ) : Prog sig Unit := do
  lock .alloc
  let _ ← call (σ := sig) (.slotFree grain)
  unlock .alloc

/-! ## A worker's buffers -/

/-- The field `dma` of a block op: 0, 1 or 2. -/
inductive Dma
  | none
  | queued
  | done
  deriving DecidableEq

/-- `struct blkop`. `cslot` is the number of the staging slot. -/
structure BlkOp where
  blk : ℕ
  ent : ℕ
  grain : ℕ
  clen : ℕ
  req : ℕ
  cmd : Cmd
  err : Err
  dma : Dma
  cslot : ℕ
  page : Ptr

/-- `struct bop`. -/
structure Bop where
  handle : List UInt8
  offset : ℕ
  len : ℕ
  cmd : Cmd
  error : Err
  slot : Ptr
  op0 : ℕ
  nops : ℕ

/-- The parts of `struct worker` that are plain memory. -/
structure Mem where
  buf : Buf → ℕ → UInt8
  ops : ℕ → BlkOp
  reqs : ℕ → Bop

namespace Mem

def read (m : Mem) (p : Ptr) (n : ℕ) : List UInt8 := slice (m.buf p.buf) p.off n

def page (m : Mem) (p : Ptr) : Page := Page.read (m.buf p.buf) p.off

def write (m : Mem) (p : Ptr) (bs : List UInt8) : Mem :=
  { m with buf := Function.update m.buf p.buf (splice (m.buf p.buf) p.off bs) }

def setOp (m : Mem) (i : ℕ) (op : BlkOp) : Mem := { m with ops := Function.update m.ops i op }

def setReq (m : Mem) (i : ℕ) (r : Bop) : Mem := { m with reqs := Function.update m.reqs i r }

end Mem

/-! ## Block primitives -/

/-- `wr_prepare`. -/
def wrPrepare (cfg : Config) (i : ℕ) (m : Mem) : Prog sig Mem := do
  let bo := m.ops i
  let bs := cfg.codec.compBlock (m.page bo.page)
  stageWrite (.cslot bo.cslot) bs
  let grain ← slotAlloc ⟨bo.req, bo.blk⟩ bs.length
  if grain = slotNone then
    ctrAdd .enospc 1
    pure (m.setOp i { bo with clen := bs.length, grain := grain, err := .enospc, dma := .none })
  else
    pure (m.setOp i { bo with clen := bs.length, grain := grain, dma := .queued })

/-- What `wr_publish` and `rmw_block` do once the new entry is in: release the slot it
displaced and keep the counters. -/
def retire (old clen : ℕ) : Prog sig Unit := do
  if entClen old ≠ 0 then
    slotFree (entGrain old)
    ctrSub .codecBytes (entClen old)
    if entClen old = 4096 then ctrSub .rawBlocks 1
  else
    ctrAdd .blocksLive 1
  ctrAdd .codecBytes clen
  if clen = 4096 then ctrAdd .rawBlocks 1

/-- `wr_publish`. -/
def wrPublish (bo : BlkOp) : Prog sig Unit := do
  event .enter
  lock (stripe bo.blk)
  let old ← idxLoad .plain bo.blk
  idxStore bo.req bo.blk (entMake bo.grain bo.clen (entGen old + 1))
  unlock (stripe bo.blk)
  retire old bo.clen
  event .leave

/-- `wr_abort`. -/
def wrAbort (i : ℕ) (m : Mem) : Prog sig Mem := do
  let bo := m.ops i
  if bo.grain ≠ slotNone then slotFree bo.grain
  pure (m.setOp i { bo with grain := slotNone, dma := .none })

/-- `rd_prepare`. -/
def rdPrepare (i : ℕ) (m : Mem) : Prog sig Mem := do
  let bo := m.ops i
  let ent ← idxLoad (.snapshot i) bo.blk
  pure (m.setOp i { bo with
    ent := ent
    clen := entClen ent
    grain := entGrain ent
    dma := if entClen ent ≠ 0 then .queued else .none })

/-- The three results of `rd_finish`. -/
inductive Finish
  | done
  | again
  | corrupt

/-- `rd_finish`. -/
def rdFinish (cfg : Config) (i : ℕ) (m : Mem) : Prog sig (Finish × Mem) := do
  let bo := m.ops i
  if bo.clen = 0 then pure (.done, m.write bo.page Page.zero.bytes)
  else
    let cur ← idxLoad (.recheck i) bo.blk
    if cur ≠ bo.ent then pure (.again, m)
    else
      let bs ← stageRead (.cslot bo.cslot) bo.clen
      match cfg.codec.decompBlock bs with
      | none => do
        event (.corrupt ⟨bo.req, bo.blk⟩)
        pure (.corrupt, m)
      | some p => pure (.done, m.write bo.page p.bytes)

/-- The body that `rd_block_locked` and `rmw_block` share: under the stripe lock, bring the
block named by `ent` to `dst` through `cscratch`. -/
def fetchLocked (cfg : Config) (tag : Tag) (ent : ℕ) (dst : Ptr) (m : Mem) :
    Prog sig (Bool × Mem) := do
  if entClen ent = 0 then pure (true, m.write dst Page.zero.bytes)
  else
    let r ← dtoh tag .cscratch (entGrain ent) (entClen ent)
    if r = false then pure (false, m)
    else
      let _ ← sync
      let bs ← stageRead .cscratch (entClen ent)
      match cfg.codec.decompBlock bs with
      | none => do
        event (.corrupt tag)
        pure (false, m)
      | some p => pure (true, m.write dst p.bytes)

/-- `rd_block_locked`: `false` stands for -1. -/
def rdBlockLocked (cfg : Config) (tag : Tag) (page : Ptr) (m : Mem) : Prog sig (Bool × Mem) := do
  lock (stripe tag.blk)
  let ent ← idxLoad .plain tag.blk
  let r ← fetchLocked cfg tag ent page m
  unlock (stripe tag.blk)
  pure r

/-! ## `do_blocks` -/

/-- `cuStreamSynchronize`, if anything was queued. Its result is not looked at. -/
def syncIf (queued : ℕ) : Prog sig Unit :=
  if queued = 0 then pure () else do
    let _ ← sync

/-- Queue the copy of one op. -/
def issue (i : ℕ) (x : Mem × ℕ) : Prog sig (Mem × ℕ) := do
  let bo := x.1.ops i
  if bo.dma = .none ∨ bo.err ≠ .ok then pure x
  else
    let r ← if bo.cmd = .read
      then dtoh ⟨bo.req, bo.blk⟩ (.cslot bo.cslot) bo.grain bo.clen
      else htod ⟨bo.req, bo.blk⟩ (.cslot bo.cslot) bo.grain bo.clen
    if r = false then pure (x.1.setOp i { bo with err := .eio, dma := .none }, x.2)
    else pure (x.1, x.2 + 1)

/-- A READ that is neither failed nor finished. -/
def BlkOp.Open (bo : BlkOp) : Prop := bo.cmd = .read ∧ bo.err = .ok ∧ bo.dma ≠ .done

instance (bo : BlkOp) : Decidable bo.Open := inferInstanceAs (Decidable (_ ∧ _ ∧ _))

/-- Validate and decompress one op, counting those that lost their race. -/
def finishOne (cfg : Config) (i : ℕ) (x : Mem × ℕ) : Prog sig (Mem × ℕ) := do
  if (x.1.ops i).Open then
    let r ← rdFinish cfg i x.1
    let bo := r.2.ops i
    match r.1 with
    | .done => pure (r.2.setOp i { bo with dma := .done }, x.2)
    | .corrupt => pure (r.2.setOp i { bo with err := .eio }, x.2)
    | .again => pure (r.2, x.2 + 1)
  else pure x

/-- Take a new snapshot for one op that lost its race, and queue its copy again. -/
def reissue (i : ℕ) (x : Mem × ℕ) : Prog sig (Mem × ℕ) := do
  if (x.1.ops i).Open then
    let m ← rdPrepare i x.1
    let bo := m.ops i
    if bo.dma = .none then pure (m, x.2)
    else
      let r ← dtoh ⟨bo.req, bo.blk⟩ (.cslot bo.cslot) bo.grain bo.clen
      if r = false then pure (m.setOp i { bo with err := .eio, dma := .none }, x.2)
      else pure (m, x.2 + 1)
  else pure x

/-- The rounds of the read phase; the source makes four. -/
def rounds (cfg : Config) (n : ℕ) : ℕ → Mem → Prog sig Mem
  | 0, m => pure m
  | k + 1, m => do
    let x ← forRange n (finishOne cfg) (m, 0)
    if x.2 = 0 then pure x.1
    else
      ctrAdd .readRetry x.2
      let y ← forRange n reissue (x.1, 0)
      syncIf y.2
      rounds cfg n k y.1

/-- The locked path for one op that is still contested. -/
def lockedOne (cfg : Config) (i : ℕ) (m : Mem) : Prog sig Mem := do
  if (m.ops i).Open then
    let r ← rdBlockLocked cfg ⟨(m.ops i).req, (m.ops i).blk⟩ (m.ops i).page m
    let bo := r.2.ops i
    pure (r.2.setOp i { bo with err := if r.1 = false then .eio else bo.err, dma := .done })
  else pure m

def publishOne (i : ℕ) (m : Mem) : Prog sig Mem := do
  let bo := m.ops i
  if bo.cmd ≠ .write ∨ bo.err ≠ .ok ∨ bo.grain = slotNone then pure m
  else
    wrPublish bo
    pure m

/-- Mark the completion of a READ op. -/
def announce (i : ℕ) (m : Mem) : Prog sig Mem := do
  let bo := m.ops i
  if bo.cmd = .read then event (.readDone i bo.blk (m.page bo.page) bo.err)
  pure m

/-- `do_blocks`: every copy of the set, one synchronize, then reads, then writes. -/
def doBlocks (cfg : Config) (n : ℕ) (m : Mem) : Prog sig Mem := do
  access (.ops 0 n)
  let x ← forRange n issue (m, 0)
  syncIf x.2
  let m ← rounds cfg n 4 x.1
  let m ← forRange n (lockedOne cfg) m
  let m ← forRange n publishOne m
  forRange n announce m

/-- `blkop_set`. -/
def blkopSet (i blk : ℕ) (cmd : Cmd) (page : Ptr) (req : ℕ) : BlkOp where
  blk := blk
  cmd := cmd
  page := page
  req := req
  err := .ok
  dma := .none
  ent := 0
  clen := 0
  grain := slotNone
  cslot := i

/-- The loop of `blkop_set` over the ops from `i₀` on, one per block of an aligned run. -/
def Mem.setOps (m : Mem) (i₀ n blk : ℕ) (cmd : Cmd) (page : Ptr) (req : ℕ) : Mem :=
  { m with
    ops := fun i => if i₀ ≤ i ∧ i < i₀ + n
      then blkopSet i (blk + (i - i₀)) cmd (page.add ((i - i₀) * 4096)) req
      else m.ops i }

/-- The same loop as it touches memory. -/
def blkopSets (m : Mem) (i₀ n blk : ℕ) (cmd : Cmd) (page : Ptr) (req : ℕ) : Prog sig Mem := do
  access (.ops i₀ n)
  access (.bytes page (n * 4096))
  pure (m.setOps i₀ n blk cmd page req)

/-! ## Byte ranges -/

/-- Which error is kept: the first one, unless a later one is `EIO`. -/
def Err.merge (err e : Err) : Err := if e ≠ .ok ∧ (err = .ok ∨ e = .eio) then e else err

/-- The errors of the first `n` ops merged into `err`. -/
def Mem.mergeErr (m : Mem) (n : ℕ) (err : Err) : Err :=
  (List.range n).foldl (fun err i => err.merge (m.ops i).err) err

/-- The size of the next window of `load_blocks` and `store_blocks`. -/
def Config.window (cfg : Config) (nblocks : ℕ) : ℕ :=
  if cfg.maxops < nblocks then cfg.maxops else nblocks

/-- The loop of `load_blocks`. Every round takes at least one block, so `fuel = nblocks`
rounds are enough. -/
def loadLoop (cfg : Config) : ℕ → ℕ → Ptr → ℕ → Mem → Prog sig (Err × Mem)
  | 0, _, _, _, m => pure (.ok, m)
  | fuel + 1, blk, dst, nblocks, m => do
    if nblocks = 0 then pure (.ok, m)
    else
      let n := cfg.window nblocks
      let m ← blkopSets m 0 n blk .read dst 0
      let m ← forRange n rdPrepare m
      let m ← doBlocks cfg n m
      if ∃ i < n, (m.ops i).err ≠ .ok then pure (.eio, m)
      else loadLoop cfg fuel (blk + n) (dst.add (n * 4096)) (nblocks - n) m

/-- `load_blocks`. -/
def loadBlocks (cfg : Config) (blk : ℕ) (dst : Ptr) (nblocks : ℕ) (m : Mem) :
    Prog sig (Err × Mem) :=
  loadLoop cfg nblocks blk dst nblocks m

def storeLoop (cfg : Config) : ℕ → ℕ → Ptr → ℕ → Err → Mem → Prog sig (Err × Mem)
  | 0, _, _, _, err, m => pure (err, m)
  | fuel + 1, blk, src, nblocks, err, m => do
    if nblocks = 0 then pure (err, m)
    else
      let n := cfg.window nblocks
      let m ← blkopSets m 0 n blk .write src 0
      let m ← forRange n (wrPrepare cfg) m
      let m ← doBlocks cfg n m
      storeLoop cfg fuel (blk + n) (src.add (n * 4096)) (nblocks - n) (m.mergeErr n err) m

/-- `store_blocks`. -/
def storeBlocks (cfg : Config) (blk : ℕ) (src : Ptr) (nblocks : ℕ) (m : Mem) :
    Prog sig (Err × Mem) :=
  storeLoop cfg nblocks blk src nblocks .ok m

/-- The second half of `rmw_block`: compress `scratch`, copy it to a fresh slot, publish. -/
def rmwStore (cfg : Config) (blk old : ℕ) (m : Mem) : Prog sig Err := do
  let bs := cfg.codec.compBlock (m.page ⟨.scratch, 0⟩)
  stageWrite .cscratch bs
  let grain ← slotAlloc ⟨0, blk⟩ bs.length
  if grain = slotNone then
    ctrAdd .enospc 1
    pure .enospc
  else
    let r ← htod ⟨0, blk⟩ .cscratch grain bs.length
    if r = false then
      slotFree grain
      pure .eio
    else
      let _ ← sync
      idxStore 0 blk (entMake grain bs.length (entGen old + 1))
      retire old bs.length
      pure .ok

/-- `rmw_block`: write the `cnt` bytes at `src` to block `blk` from `boff` on. -/
def rmwBlock (cfg : Config) (blk boff : ℕ) (src : Ptr) (cnt : ℕ) (m : Mem) :
    Prog sig (Err × Mem) := do
  event .enter
  lock (stripe blk)
  let old ← idxLoad .plain blk
  let r ← fetchLocked cfg ⟨0, blk⟩ old ⟨.scratch, 0⟩ m
  if r.1 = false then
    unlock (stripe blk)
    event .leave
    pure (.eio, r.2)
  else
    access (.slice boff cnt)
    access (.bytes src cnt)
    let m := r.2.write ⟨.scratch, boff⟩ (r.2.read src cnt)
    let err ← rmwStore cfg blk old m
    unlock (stripe blk)
    event .leave
    pure (err, m)

/-- The bytes of a range of `n` bytes before its first block boundary. -/
def headLen (off n : ℕ) : ℕ := if off % 4096 = 0 then 0 else min (4096 - off % 4096) n

/-- Read one block to `scratch` and copy `cnt` bytes of it, from `boff` on, to `dst`. -/
def loadPart (cfg : Config) (blk boff : ℕ) (dst : Ptr) (cnt : ℕ) (m : Mem) :
    Prog sig (Err × Mem) := do
  let r ← loadBlocks cfg blk ⟨.scratch, 0⟩ 1 m
  if r.1 ≠ .ok then pure (.eio, r.2)
  else
    access (.slice boff cnt)
    access (.bytes dst cnt)
    pure (.ok, r.2.write dst (r.2.read ⟨.scratch, boff⟩ cnt))

/-- The head of `load_range`, through `scratch`. -/
def loadHead (cfg : Config) (off : ℕ) (dst : Ptr) (n : ℕ) (m : Mem) : Prog sig (Err × Mem) :=
  if off % 4096 = 0 then pure (.ok, m)
  else loadPart cfg (off / 4096) (off % 4096) dst (headLen off n) m

/-- The whole blocks of `load_range`. -/
def loadBody (cfg : Config) (off : ℕ) (dst : Ptr) (n : ℕ) (m : Mem) : Prog sig (Err × Mem) := do
  if 4096 ≤ n then
    access (.window n (n / 4096))
    loadBlocks cfg (off / 4096) dst (n / 4096) m
  else pure (.ok, m)

/-- `load_range`. -/
def loadRange (cfg : Config) (off : ℕ) (dst : Ptr) (n : ℕ) (m : Mem) : Prog sig (Err × Mem) := do
  let head ← loadHead cfg off dst n m
  if head.1 ≠ .ok then pure (.eio, head.2)
  else
    access (.sub n (headLen off n))
    let cnt := headLen off n
    let off := off + cnt
    let dst := dst.add cnt
    let n := n - cnt
    let mid ← loadBody cfg off dst n head.2
    if mid.1 ≠ .ok then pure (.eio, mid.2)
    else if n % 4096 = 0 then pure (.ok, mid.2)
    else
      let nb := n / 4096
      loadPart cfg ((off + nb * 4096) / 4096) 0 (dst.add (nb * 4096)) (n % 4096) mid.2

/-- The head of `store_range`. -/
def storeHead (cfg : Config) (off : ℕ) (src : Ptr) (n : ℕ) (m : Mem) : Prog sig (Err × Mem) :=
  if off % 4096 = 0 then pure (.ok, m)
  else rmwBlock cfg (off / 4096) (off % 4096) src (headLen off n) m

/-- The whole blocks of `store_range`. -/
def storeBody (cfg : Config) (off : ℕ) (src : Ptr) (n : ℕ) (m : Mem) : Prog sig (Err × Mem) := do
  if 4096 ≤ n then
    access (.window n (n / 4096))
    storeBlocks cfg (off / 4096) src (n / 4096) m
  else pure (.ok, m)

/-- `store_range`. -/
def storeRange (cfg : Config) (off : ℕ) (src : Ptr) (n : ℕ) (m : Mem) : Prog sig (Err × Mem) := do
  let head ← storeHead cfg off src n m
  access (.sub n (headLen off n))
  let cnt := headLen off n
  let off := off + cnt
  let src := src.add cnt
  let n := n - cnt
  let mid ← storeBody cfg off src n head.2
  let err := head.1.merge mid.1
  if n % 4096 = 0 then pure (err, mid.2)
  else
    let nb := n / 4096
    let tail ← rmwBlock cfg ((off + nb * 4096) / 4096) 0 (src.add (nb * 4096)) (n % 4096) mid.2
    pure (err.merge tail.1, tail.2)

/-- One block of `trim_range`: the unlocked check first, then the same under the lock. -/
def trimOne (b : ℕ) : Prog sig Unit := do
  let e ← idxLoad .plain b
  if entClen e = 0 then pure ()
  else
    event .enter
    lock (stripe b)
    let old ← idxLoad .plain b
    if entClen old ≠ 0 then idxStore 0 b (entMake 0 0 (entGen old + 1))
    unlock (stripe b)
    if entClen old ≠ 0 then
      slotFree (entGrain old)
      ctrSub .codecBytes (entClen old)
      if entClen old = 4096 then ctrSub .rawBlocks 1
      ctrSub .blocksLive 1
      ctrAdd .trimBlocks 1
    event .leave

/-- The first block that a TRIM covers wholly, and the first after them. -/
def trimBounds (cfg : Config) (off len : ℕ) : ℕ × ℕ :=
  let b0 := (off + 4095) % 2 ^ 64 / 4096
  let b1 := (off + len) % 2 ^ 64 / 4096
  (b0, if cfg.nblocks < b1 then cfg.nblocks else b1)

/-- `trim_range`. -/
def trimRange (cfg : Config) (off len : ℕ) : Prog sig Unit :=
  let b := trimBounds cfg off len
  forRange (b.2 - b.1) (fun i _ => trimOne (b.1 + i)) ()

end NbdVram
