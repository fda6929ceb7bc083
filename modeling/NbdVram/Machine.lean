import NbdVram.Alloc
import NbdVram.Block
import NbdVram.Lib.System

/-!
# The daemon's shared state and its atomic actions

Workers share the block index, the extent allocator, the device memory, the
mutexes and the counters; each has its own CUDA stream, pinned staging slots and
socket. An action of `Op` is one indivisible step of a worker. Copies are
asynchronous: a launch only queues the byte moves, the device carries them out in
any order and at any time (`Machine.tau`), and a successful synchronize completes
those that are left. What may go wrong is the environment's choice: a launch or a
synchronize that fails, a refused allocation, a short, empty or failed receive.

History variables are kept beside the real state: the log of index mutations, the
grains a worker has reserved and those it has displaced, and what a worker has
received and sent. No action's answer depends on them.
-/

namespace NbdVram

open Interleave Span

/-- What `main` and the build have fixed before the first connection. -/
structure Config where
  heap : Heap
  codec : Codec
  diskSize : ℕ
  batchEnabled : Bool
  batchDepth : ℕ
  batchDebug : Bool
  disk_pos : 4096 ≤ diskSize
  disk_blocks : 4096 ∣ diskSize
  disk_lt : diskSize < 2 ^ 64
  depth_pos : 1 ≤ batchDepth
  depth_le : batchDepth ≤ 256

/-- `g_nblocks`. -/
def Config.nblocks (cfg : Config) : ℕ := cfg.diskSize / 4096

/-- `w->maxops`, as `worker_init` sets it. -/
def Config.maxops (cfg : Config) : ℕ :=
  if cfg.batchDepth * 16 < 64 then 64 else cfg.batchDepth * 16

/-- `g_idx_lock[i]` and `g_alloc_mu`. -/
inductive Mutex
  | stripe (i : ℕ)
  | alloc
  deriving DecidableEq

/-- `IDXL(blk)`, the stripe lock of a block. -/
def stripe (blk : ℕ) : Mutex := .stripe (blk % 4096)

/-- Pinned staging: the slots of `cstage` and the buffer `cscratch`. -/
inductive Stage
  | cslot (i : ℕ)
  | cscratch
  deriving DecidableEq

inductive Dir
  | up
  | down
  deriving DecidableEq

/-- One byte of a queued copy. -/
structure Move where
  dir : Dir
  dev : ℕ
  slot : Stage
  off : ℕ
  deriving DecidableEq

/-- The error of a block op or a request. -/
inductive Err
  | ok
  | enospc
  | eio
  | einval
  deriving DecidableEq, Repr

/-- The command of a request; `DISC` ends the connection. -/
inductive Cmd
  | read
  | write
  | disc
  | flush
  | trim
  | other
  deriving DecidableEq, Repr

/-- A request as it comes off the wire, a WRITE with its payload. -/
structure Req where
  cmd : Cmd
  handle : List UInt8
  off : ℕ
  len : ℕ
  data : List UInt8
  deriving DecidableEq

/-- The request and the block that an allocation or a launch is made for. -/
structure Tag where
  req : ℕ
  blk : ℕ
  deriving DecidableEq

/-- A refused allocation, or with `eio` a rejected copy or stored bytes that do not decompress. -/
structure Fault where
  tag : Tag
  eio : Bool
  deriving DecidableEq

inductive Counter
  | blocksLive
  | codecBytes
  | rawBlocks
  | trimBlocks
  | readRetry
  | enospc
  | legacyOps
  | flushCount
  | flushOps
  | flushCopies
  | batchCount
  | batchOps
  deriving DecidableEq

/-- The counters that follow the index. -/
def Counter.kept : Counter → Bool
  | .blocksLive | .codecBytes | .rawBlocks | .trimBlocks => true
  | _ => false

/-- What one entry contributes to the figure that a counter stands for. -/
def Counter.share : Counter → ℕ → ℤ
  | .blocksLive, e => if entClen e = 0 then 0 else 1
  | .codecBytes, e => entClen e
  | .rawBlocks, e => if entClen e = 4096 then 1 else 0
  | _, _ => 0

/-- By how much a counter has to change when the entry `old` is replaced by `ent`. -/
def Counter.due : Counter → ℕ → ℕ → ℤ
  | .trimBlocks, old, ent => if entClen old ≠ 0 ∧ entClen ent = 0 then 1 else 0
  | c, old, ent => c.share ent - c.share old

/-- What of it has to be subtracted. -/
def Counter.cost : Counter → ℕ → ℕ → ℤ
  | .blocksLive, old, ent => if entClen old ≠ 0 ∧ entClen ent = 0 then 1 else 0
  | .codecBytes, old, _ => entClen old
  | .rawBlocks, old, _ => if entClen old = 4096 then 1 else 0
  | _, _, _ => 0

/-- Why an index entry is loaded: the snapshot of block op `i`, its validation, or neither. -/
inductive LoadFor
  | plain
  | snapshot (i : ℕ)
  | recheck (i : ℕ)
  deriving DecidableEq

/-- The worker's unpinned buffers. -/
inductive Buf
  | ubuf
  | iobuf
  | scratch
  deriving DecidableEq

structure Ptr where
  buf : Buf
  off : ℕ
  deriving DecidableEq

def Ptr.add (p : Ptr) (n : ℕ) : Ptr := ⟨p.buf, p.off + n⟩

/-- What a worker's code indexes, addresses or subtracts: elements of `w->ops` and `w->reqs`,
`n` bytes of a buffer, part of one page, the blocks of the `n` bytes left of a window, an unsigned
difference. -/
inductive Access
  | ops (i n : ℕ)
  | reqs (i : ℕ)
  | bytes (p : Ptr) (n : ℕ)
  | slice (boff cnt : ℕ)
  | window (n nb : ℕ)
  | sub (a b : ℕ)

/-- Moments of a worker that the results speak about; they change no real state. `enter` and
`leave` enclose an operation that mutates the index, `corrupt` is a failed decompression. -/
inductive Event
  | begin (reqs : List Req)
  | readDone (i blk : ℕ) (page : Page) (err : Err)
  | reply (i : ℕ) (r : Req) (err : Err)
  | deliver (r : Req) (pos : ℕ) (data : List UInt8)
  | enter
  | leave
  | corrupt (tag : Tag)
  | access (a : Access)

/-- One end of a connection: what the client will still send, what has been received and
sent on it so far, its number, and whether a send has failed. -/
structure Net where
  inp : List UInt8
  eof : Bool
  got : List UInt8
  out : List UInt8
  conn : ℕ
  down : Bool

/-- The connection with `k` more bytes received. -/
def Net.take (p : Net) (k : ℕ) : Net :=
  { p with inp := p.inp.drop k, got := p.got ++ p.inp.take k }

/-- The connection with `bs` sent. -/
def Net.put (p : Net) (bs : List UInt8) : Net := { p with out := p.out ++ bs }

/-- What only the worker itself changes: its connection, the log position of each op's last
snapshot (at first that of the start of the request) and of the start of the requests being
served, the faults these have met, by how much its index stores still have to change the counters,
what of that is still to be subtracted, and whether it is inside an operation that does so. -/
structure Priv where
  net : Net
  snap : ℕ → ℕ
  start : ℕ
  faults : List Fault
  owed : Counter → ℤ
  subs : Counter → ℤ
  busy : Bool

/-- The history after counter `c` has been changed by `n`. -/
def Priv.pay (p : Priv) (c : Counter) (n : ℤ) : Priv :=
  if c.kept = true then { p with
    owed := Function.update p.owed c (p.owed c - n)
    subs := Function.update p.subs c (p.subs c + min n 0) }
  else p

/-- The history after an entry `old` has been replaced by `ent`. -/
def Priv.owe (p : Priv) (old ent : ℕ) : Priv :=
  { p with
    owed := fun c => p.owed c + c.due old ent
    subs := fun c => p.subs c + c.cost old ent }

/-- Every counter has been changed as the index stores demand. -/
def Priv.Settled (p : Priv) : Prop := ∀ c, p.owed c = 0 ∧ p.subs c = 0

structure State where
  index : ℕ → ℕ
  alloc : Alloc
  dev : ℕ → UInt8
  lock : Mutex → Option ℕ
  stage : ℕ → Stage → ℕ → UInt8
  pend : ℕ → List Move
  ctr : Counter → ℕ
  running : Bool
  log : List Mut
  births : ℕ
  resv : ℕ → List ℕ
  disp : ℕ → List ℕ
  priv : ℕ → Priv

inductive Op
  | lock (m : Mutex)
  | unlock (m : Mutex)
  | idxLoad (why : LoadFor) (blk : ℕ)
  | idxStore (req blk ent : ℕ)
  | slotAlloc (tag : Tag) (nbytes : ℕ)
  | slotFree (grain : ℕ)
  | stageWrite (slot : Stage) (bs : List UInt8)
  | stageRead (slot : Stage) (n : ℕ)
  | htod (tag : Tag) (slot : Stage) (grain n : ℕ)
  | dtoh (tag : Tag) (slot : Stage) (grain n : ℕ)
  | sync
  | ctrAdd (c : Counter) (n : ℕ)
  | ctrSub (c : Counter) (n : ℕ)
  | recv (n : ℕ)
  | recvNb (n : ℕ)
  | send (bs : List UInt8)
  | accept
  | running
  | event (e : Event)

/-- The answer of a non-blocking receive. -/
inductive Nb
  | closed
  | empty
  | some (bs : List UInt8)

/-- `slotAlloc` answers the grain and the bytes reserved, `htod`, `dtoh` and `sync` whether the
call returned `CUDA_SUCCESS`, `recv` and `send` `none` for a result not above zero. -/
def Op.Res : Op → Type
  | .idxLoad _ _ => ℕ
  | .slotAlloc _ _ => ℕ × ℕ
  | .slotFree _ => ℕ
  | .stageRead _ _ => List UInt8
  | .htod _ _ _ _ | .dtoh _ _ _ _ | .sync | .accept | .running => Bool
  | .recv _ => Option (List UInt8)
  | .recvNb _ => Nb
  | .send _ => Option ℕ
  | _ => Unit

def sig : Sig := ⟨Op, Op.Res⟩

/-- What the environment decides in one action. -/
structure Choice where
  fail : Bool
  n : ℕ
  stream : List UInt8
  eof : Bool

namespace State

def setPriv (s : State) (w : ℕ) (p : Priv) : State :=
  { s with priv := Function.update s.priv w p }

def setNet (s : State) (w : ℕ) (n : Net) : State := s.setPriv w { s.priv w with net := n }

def addFault (s : State) (w : ℕ) (tag : Tag) (eio : Bool) : State :=
  s.setPriv w { s.priv w with faults := ⟨tag, eio⟩ :: (s.priv w).faults }

/-- The stored bytes an entry names. -/
def stored (s : State) (e : ℕ) : List UInt8 := slice s.dev (entGrain e * 64) (entClen e)

/-- What block `b` shows: zeros where it was never written. -/
def content (cfg : Config) (s : State) (b : ℕ) : Page :=
  if entClen (s.index b) = 0 then Page.zero
  else (cfg.codec.decompBlock (s.stored (s.index b))).getD Page.zero

/-- The device carries out one queued byte. -/
def move (s : State) (w : ℕ) (mv : Move) : State :=
  let s := { s with pend := Function.update s.pend w ((s.pend w).erase mv) }
  match mv.dir with
  | .up => { s with dev := Function.update s.dev mv.dev (s.stage w mv.slot mv.off) }
  | .down => { s with
      stage := Function.update s.stage w (Function.update (s.stage w) mv.slot
        (Function.update (s.stage w mv.slot) mv.off (s.dev mv.dev))) }

/-- All of `mvs`, one after the other. -/
def moves (s : State) (w : ℕ) : List Move → State
  | [] => s
  | mv :: mvs => moves (s.move w mv) w mvs

/-- A copy of `n` bytes between a staging slot and a grain is queued. -/
def launch (s : State) (w : ℕ) (dir : Dir) (slot : Stage) (grain n : ℕ) : State :=
  { s with
    pend := Function.update s.pend w
      (s.pend w ++ (List.range n).map fun i => ⟨dir, grain * 64 + i, slot, i⟩) }

/-- Store `ent` as the entry of block `b`: the reservation it names becomes the block's, and
the grain of the entry it replaces becomes the worker's to free. -/
def store (cfg : Config) (s : State) (w req b ent : ℕ) : State :=
  let old := s.index b
  let s := { s with
    index := Function.update s.index b ent
    resv := if entClen ent = 0 then s.resv
      else Function.update s.resv w ((s.resv w).erase (entGrain ent))
    disp := if entClen old = 0 then s.disp
      else Function.update s.disp w (entGrain old :: s.disp w) }
  { s with
    log := s.log ++ [⟨w, req, b, s.content cfg b⟩]
    births := if entClen old = 0 ∧ entClen ent ≠ 0 then s.births + 1 else s.births
    priv := Function.update s.priv w ((s.priv w).owe old ent) }

end State

/-- The step of worker `w` for each action; `none` where it has to wait. -/
def exec (cfg : Config) (w : ℕ) : (o : Op) → Choice → State → Option (o.Res × State)
  | .lock m, _, s =>
    if s.lock m = none then some ((), { s with lock := Function.update s.lock m (some w) })
    else none
  | .unlock m, _, s => some ((), { s with lock := Function.update s.lock m none })
  | .idxLoad why blk, _, s =>
    match why with
    | .snapshot i => some (s.index blk, s.setPriv w
        { s.priv w with snap := Function.update (s.priv w).snap i s.log.length })
    | _ => some (s.index blk, s)
  | .idxStore req blk ent, _, s => some ((), s.store cfg w req blk ent)
  | .slotAlloc tag n, c, s =>
    let r := Alloc.slotAlloc cfg.heap s.alloc n
    if c.fail = true ∨ r.1.1 = slotNone then some ((slotNone, 0), s.addFault w tag false)
    else some (r.1, { s with
      alloc := r.2
      resv := Function.update s.resv w (r.1.1 :: s.resv w) })
  | .slotFree g, _, s =>
    let r := Alloc.slotFree cfg.heap s.alloc g
    some (r.1, { s with
      alloc := r.2
      resv := Function.update s.resv w ((s.resv w).erase g)
      disp := Function.update s.disp w ((s.disp w).erase g) })
  | .stageWrite slot bs, _, s => some ((), { s with
      stage := Function.update s.stage w
        (Function.update (s.stage w) slot (splice (s.stage w slot) 0 bs)) })
  | .stageRead slot n, _, s => some (slice (s.stage w slot) 0 n, s)
  | .htod tag slot g n, c, s =>
    if c.fail = true then some (false, s.addFault w tag true)
    else some (true, s.launch w .up slot g n)
  | .dtoh tag slot g n, c, s =>
    if c.fail = true then some (false, s.addFault w tag true)
    else some (true, s.launch w .down slot g n)
  | .sync, c, s =>
    if c.fail = true then some (false, { s with pend := Function.update s.pend w [] })
    else some (true, s.moves w (s.pend w))
  | .ctrAdd x n, _, s =>
    some ((), { s with
      ctr := Function.update s.ctr x ((s.ctr x + n) % 2 ^ 64)
      priv := Function.update s.priv w ((s.priv w).pay x n) })
  | .ctrSub x n, _, s =>
    some ((), { s with
      ctr := Function.update s.ctr x ((s.ctr x + (2 ^ 64 - n % 2 ^ 64)) % 2 ^ 64)
      priv := Function.update s.priv w ((s.priv w).pay x (-n)) })
  | .recv n, c, s =>
    let p := (s.priv w).net
    let k := min (c.n + 1) (min n p.inp.length)
    if c.fail = true ∨ p.inp = [] ∧ p.eof = true then some (none, s)
    else if p.inp = [] then none
    else some (some (p.inp.take k),
      s.setNet w { p with inp := p.inp.drop k, got := p.got ++ p.inp.take k })
  | .recvNb n, c, s =>
    let p := (s.priv w).net
    let k := min c.n (min n p.inp.length)
    if c.fail = true then some (.closed, s)
    else if k = 0 then some (.empty, s)
    else some (.some (p.inp.take k),
      s.setNet w { p with inp := p.inp.drop k, got := p.got ++ p.inp.take k })
  | .send bs, c, s =>
    let p := (s.priv w).net
    let k := min (c.n + 1) bs.length
    if c.fail = true then some (none, s.setNet w { p with down := true })
    else some (some k, s.setNet w { p with out := p.out ++ bs.take k })
  | .accept, c, s =>
    if c.fail = true then some (false, s)
    else some (true, s.setPriv w { s.priv w with
      net := ⟨c.stream, c.eof, [], [], (s.priv w).net.conn + 1, false⟩
      faults := [] })
  | .running, _, s => some (s.running, s)
  | .event e, _, s =>
    match e with
    | .begin _ => some ((), s.setPriv w { s.priv w with
        start := s.log.length, snap := fun _ => s.log.length, faults := [] })
    | .enter => some ((), s.setPriv w { s.priv w with busy := true })
    | .leave => some ((), s.setPriv w { s.priv w with busy := false })
    | .corrupt tag => some ((), s.addFault w tag true)
    | _ => some ((), s)

/-- Beside the workers the device moves queued bytes, and a signal may stop the daemon. -/
inductive Tau : State → State → Prop
  | move {s : State} {w : ℕ} {mv : Move} : mv ∈ s.pend w → Tau s (s.move w mv)
  | stop {s : State} : Tau s { s with running := false }

def machine (cfg : Config) : Machine sig ℕ where
  State := State
  Choice := Choice
  exec w o := exec cfg w o
  tau := Tau

/-- The state `store_init` and `main` leave: every entry unwritten, nothing allocated, locked
or queued. What the device memory and the staging slots hold is arbitrary. -/
structure State.Initial (cfg : Config) (s : State) : Prop where
  index : ∀ b, s.index b = 0
  alloc : s.alloc = Alloc.storeInit cfg.heap
  lock : ∀ m, s.lock m = none
  pend : ∀ w, s.pend w = []
  log : s.log = []
  resv : ∀ w, s.resv w = []
  disp : ∀ w, s.disp w = []
  ctr : ∀ c, s.ctr c = 0
  births : s.births = 0
  owed : ∀ w, (s.priv w).Settled
  busy : ∀ w, (s.priv w).busy = false
  start : ∀ w, (s.priv w).start = 0

/-- A daemon that has just started. -/
def State.boot (cfg : Config) : State where
  index := fun _ => 0
  alloc := Alloc.storeInit cfg.heap
  dev := fun _ => 0
  lock := fun _ => none
  stage := fun _ _ _ => 0
  pend := fun _ => []
  ctr := fun _ => 0
  running := true
  log := []
  births := 0
  resv := fun _ => []
  disp := fun _ => []
  priv := fun _ => ⟨⟨[], true, [], [], 0, false⟩, fun _ => 0, 0, [], fun _ => 0, fun _ => 0, false⟩

theorem State.boot_initial (cfg : Config) : (State.boot cfg).Initial cfg :=
  ⟨fun _ => rfl, rfl, fun _ => rfl, fun _ => rfl, rfl, fun _ => rfl, fun _ => rfl, fun _ => rfl, rfl,
    fun _ _ => ⟨rfl, rfl⟩, fun _ => rfl, fun _ => rfl⟩

/-- A small device: two blocks without compression on the smallest heap, batches of up to four
requests. -/
def smallConfig : Config where
  heap := Alloc.smallHeap
  codec := ⟨.none, fun _ => none, fun _ => none⟩
  diskSize := 8192
  batchEnabled := true
  batchDepth := 4
  batchDebug := false
  disk_pos := by decide
  disk_blocks := by decide
  disk_lt := by decide
  depth_pos := by decide
  depth_le := by decide

/-! ## Which runs are considered -/

/-- What is assumed of the environment's choices in a run. -/
structure Mode where
  /-- every synchronize succeeds -/
  sync : Bool
  /-- no copy launch is rejected -/
  launch : Bool
  /-- no copy launch of `do_blocks` to the device is rejected -/
  batch : Bool
  /-- no `slot_alloc` fails -/
  alloc : Bool
  /-- fewer than `2 ^ 21` mutations of a block between a snapshot of it and its validation -/
  gen : Bool
  /-- no READ shares a batch with an earlier WRITE to an overlapping block -/
  apart : Bool
  /-- once the log has length `since`, only this worker's requests reach the blocks -/
  solo : Option ℕ
  since : ℕ
  /-- grains that rejected copies have left reserved before -/
  left : List ℕ

/-- Every choice of the environment is allowed. -/
def Mode.any : Mode := ⟨false, false, false, false, false, false, none, 0, []⟩

/-- The requests touch a common block. -/
def Req.Overlap (r r' : Req) : Prop :=
  r.off / 4096 < (r'.off + r'.len + 4095) / 4096 ∧ r'.off / 4096 < (r.off + r.len + 4095) / 4096

/-- No READ follows a WRITE to an overlapping block. -/
def Apart (reqs : List Req) : Prop :=
  reqs.Pairwise fun r r' => r.cmd = .write → r'.cmd = .read → ¬ r.Overlap r'

def Mode.Adm (cfg : Config) (md : Mode) (w : ℕ) (o : Op) (c : Choice) (s : State) : Prop :=
  match o with
  | .sync => md.sync = true → c.fail = false
  | .htod _ slot _ _ =>
    (md.launch = true → c.fail = false) ∧ (md.batch = true → slot ≠ .cscratch → c.fail = false)
  | .dtoh _ _ _ _ => md.launch = true → c.fail = false
  | .slotAlloc _ n => md.alloc = true →
    c.fail = false ∧ (Alloc.slotAlloc cfg.heap s.alloc n).1.1 ≠ slotNone
  | .idxLoad (.recheck i) b => (∀ v, md.solo = some v → w = v) ∧
    (md.gen = true → mutations b (s.log.drop ((s.priv w).snap i)) < 2 ^ 21)
  | .idxStore _ _ _ => ∀ v, md.solo = some v → w = v
  | .event (.begin reqs) => md.apart = true → Apart reqs
  | _ => True

end NbdVram
