import NbdVram.Store

/-!
# Serving a connection

The request loop of the source: receiving and sending in full, the per-request
path, the batched path and the loop of `handle_client`, which is entered in
transmission mode. The endless loops of `handle_client` and `thread_worker` are cut
into rounds: `Phase` says where a worker stands between two rounds, and `next` is
the round that follows. A worker rests where the source blocks: in `poll` for a
connection or in `recv` for the first byte of a request.
-/

namespace NbdVram

open Interleave Prog Span

def recv (n : ℕ) : Prog sig (Option (List UInt8)) := call (σ := sig) (.recv n)

def recvNb (n : ℕ) : Prog sig Nb := call (σ := sig) (.recvNb n)

def send (bs : List UInt8) : Prog sig (Option ℕ) := call (σ := sig) (.send bs)

def accept : Prog sig Bool := call (σ := sig) .accept

def running : Prog sig Bool := call (σ := sig) .running

/-! ## The wire format -/

/-- An unsigned number in network byte order. -/
def be (bs : List UInt8) : ℕ := bs.foldl (fun a b => a * 256 + b.toNat) 0

/-- The `n` bytes of a number in network byte order. -/
def toBe (n x : ℕ) : List UInt8 :=
  (List.range n).map fun i => UInt8.ofNat (x / 256 ^ (n - 1 - i))

theorem be_lt (bs : List UInt8) : be bs < 256 ^ bs.length := by
  have key : ∀ (l : List UInt8) (a : ℕ),
      l.foldl (fun a b => a * 256 + b.toNat) a < (a + 1) * 256 ^ l.length := by
    intro l
    induction l with
    | nil => simp
    | cons b l ih =>
        intro a
        have hb : b.toNat < 256 := b.toNat_lt
        calc l.foldl (fun a b => a * 256 + b.toNat) (a * 256 + b.toNat)
            < (a * 256 + b.toNat + 1) * 256 ^ l.length := ih _
          _ ≤ ((a + 1) * 256) * 256 ^ l.length := Nat.mul_le_mul_right _ (by omega)
          _ = (a + 1) * 256 ^ (b :: l).length := by rw [List.length_cons, pow_succ]; ring
  simpa [be] using key bs 0

theorem be_cons (b : UInt8) (bs : List UInt8) :
    be (b :: bs) = b.toNat * 256 ^ bs.length + be bs := by
  have key : ∀ (l : List UInt8) (a : ℕ),
      l.foldl (fun a b => a * 256 + b.toNat) a = a * 256 ^ l.length + be l := by
    intro l
    induction l with
    | nil => simp [be]
    | cons c l ih =>
        intro a
        show l.foldl (fun a b => a * 256 + b.toNat) (a * 256 + c.toNat) =
          a * 256 ^ (l.length + 1) + l.foldl (fun a b => a * 256 + b.toNat) (0 * 256 + c.toNat)
        rw [ih (a * 256 + c.toNat), ih (0 * 256 + c.toNat)]
        ring
  simpa [be] using key bs b.toNat

theorem toBe_succ (n x : ℕ) : toBe (n + 1) x = UInt8.ofNat (x / 256 ^ n) :: toBe n x := by
  simp only [toBe, List.range_succ_eq_map, List.map_cons, List.map_map, Nat.sub_zero,
    Nat.add_sub_cancel]
  congr 1
  apply List.map_congr_left
  intro i _
  simp only [Function.comp, Nat.succ_eq_add_one]
  congr 3
  omega

@[simp] theorem toBe_length (n x : ℕ) : (toBe n x).length = n := by simp [toBe]

theorem be_toBe (n x : ℕ) : be (toBe n x) = x % 256 ^ n := by
  induction n with
  | zero => simp [toBe, be, Nat.mod_one]
  | succ n ih =>
      rw [toBe_succ, be_cons, ih, toBe_length]
      rw [UInt8.toNat_ofNat', pow_succ 256 n, Nat.mod_mul, Nat.mul_comm, Nat.add_comm]

theorem toBe_add_mul (n b x : ℕ) : toBe n (b * 256 ^ n + x) = toBe n x := by
  apply List.map_congr_left
  intro i hi
  have hin : i < n := List.mem_range.mp hi
  have hsplit : 256 ^ n = 256 ^ (n - 1 - i) * (256 * 256 ^ i) := by
    rw [← pow_succ', ← pow_add]
    congr 1
    omega
  rw [hsplit, show b * (256 ^ (n - 1 - i) * (256 * 256 ^ i)) + x =
    x + 256 ^ (n - 1 - i) * (256 * 256 ^ i * b) from by ring, Nat.add_mul_div_left _ _ (by positivity)]
  apply UInt8.toNat_inj.mp
  simp only [UInt8.toNat_ofNat']
  rw [show 256 * 256 ^ i * b = 256 * (256 ^ i * b) from by ring]
  omega

theorem toBe_be (bs : List UInt8) : toBe bs.length (be bs) = bs := by
  induction bs with
  | nil => rfl
  | cons b bs ih =>
      have hlt := be_lt bs
      rw [List.length_cons, toBe_succ, be_cons, toBe_add_mul, ih]
      congr 1
      rw [Nat.mul_comm, Nat.mul_add_div (by positivity), Nat.div_eq_of_lt hlt]
      simp

/-- `NBD_REQUEST_MAGIC`. -/
def requestMagic : ℕ := 0x25609513

/-- `NBD_RESPONSE_MAGIC`. -/
def responseMagic : ℕ := 0x67446698

def Cmd.ofType : ℕ → Cmd
  | 0 => .read
  | 1 => .write
  | 2 => .disc
  | 3 => .flush
  | 4 => .trim
  | _ => .other

/-- The error number on the wire. -/
def Err.code : Err → ℕ
  | .ok => 0
  | .enospc => 28
  | .eio => 5
  | .einval => 22

/-- `struct nbd_req_hdr`, with the numbers in host order. The handle stays as it came. -/
structure Hdr where
  magic : ℕ
  cmd : Cmd
  handle : List UInt8
  from' : ℕ
  len : ℕ

/-- The 28 bytes of a request header. -/
def parseHdr (bs : List UInt8) : Hdr where
  magic := be (bs.take 4)
  cmd := Cmd.ofType (be ((bs.drop 6).take 2))
  handle := (bs.drop 8).take 8
  from' := be ((bs.drop 16).take 8)
  len := be ((bs.drop 24).take 4)

/-- The request a header announces, with the payload that came after it. -/
def Hdr.req (h : Hdr) (data : List UInt8) : Req := ⟨h.cmd, h.handle, h.from', h.len, data⟩

/-- `struct nbd_resp_hdr`. -/
def respHdr (err : Err) (handle : List UInt8) : List UInt8 :=
  toBe 4 responseMagic ++ toBe 4 err.code ++ handle

/-! ## Receiving and sending in full -/

/-- The loop of `recv_all`: at least one byte a round, so `fuel = n` is enough. The bytes
received so far are returned also when the connection fails. -/
def recvLoop : ℕ → ℕ → List UInt8 → Prog sig (Bool × List UInt8)
  | 0, _, acc => pure (true, acc)
  | fuel + 1, n, acc => do
    if n = 0 then pure (true, acc)
    else
      match ← recv n with
      | none => pure (false, acc)
      | some bs => recvLoop fuel (n - bs.length) (acc ++ bs)

/-- `recv_all`. -/
def recvAll (n : ℕ) : Prog sig (Bool × List UInt8) := recvLoop n n []

def sendLoop : ℕ → List UInt8 → Prog sig Bool
  | 0, _ => pure true
  | fuel + 1, bs => do
    if bs.length = 0 then pure true
    else
      match ← send bs with
      | none => pure false
      | some k => sendLoop fuel (bs.drop k)

/-- `send_all`. -/
def sendAll (bs : List UInt8) : Prog sig Bool := sendLoop bs.length bs

/-- The results of `recv_hdr_nb`: -1, 0 and 1. -/
inductive NbHdr
  | closed
  | empty
  | got (h : Hdr)

/-- `recv_hdr_nb`. -/
def recvHdrNb : Prog sig NbHdr := do
  match ← recvNb 28 with
  | .closed => pure .closed
  | .empty => pure .empty
  | .some bs =>
    if bs.length = 28 then pure (.got (parseHdr bs))
    else
      let r ← recvAll (28 - bs.length)
      if r.1 = false then pure .closed else pure (.got (parseHdr (bs ++ r.2)))

/-! ## The per-request path -/

/-- `oob`. -/
def oob (cfg : Config) (offset length : ℕ) : Prop :=
  cfg.diskSize < offset ∨ cfg.diskSize - offset < length

instance (cfg : Config) (offset length : ℕ) : Decidable (oob cfg offset length) :=
  inferInstanceAs (Decidable (_ ∨ _))

/-- The difference that `oob` takes of a request, where its first test has not decided. -/
def oobAccess (cfg : Config) (h : Hdr) : Prog sig Unit :=
  if (h.cmd = .read ∨ h.cmd = .write ∨ h.cmd = .trim) ∧ ¬ cfg.diskSize < h.from' then
    access (.sub cfg.diskSize h.from')
  else pure ()

/-- The next window of a request: at most `IO_BUF_SIZE` bytes, and every window but the last
ends on a block boundary. -/
def nextChunk (voff remaining : ℕ) : ℕ :=
  let chunk := if 262144 < remaining then 262144 else remaining
  if chunk < remaining then
    let fin := (voff + chunk) % 2 ^ 64 / 4096 * 4096
    if voff < fin then (fin - voff) % 2 ^ 32 else chunk
  else chunk

/-- The difference that gives the end of a window. -/
def endAccess (voff remaining : ℕ) : Prog sig Unit :=
  let chunk := if 262144 < remaining then 262144 else remaining
  let fin := (voff + chunk) % 2 ^ 64 / 4096 * 4096
  if chunk < remaining ∧ voff < fin then access (.sub fin voff) else pure ()

/-- The next window, which is staged at the start of `iobuf`. -/
def nextWindow (voff remaining : ℕ) : Prog sig ℕ := do
  endAccess voff remaining
  access (.bytes ⟨.iobuf, 0⟩ (nextChunk voff remaining))
  access (.sub remaining (nextChunk voff remaining))
  pure (nextChunk voff remaining)

/-- What a WRITE's receive loop ends with. -/
structure Written where
  alive : Bool
  error : Err
  data : List UInt8
  mem : Mem

/-- The window loop of a WRITE. `data` collects the payload, for the reply event only. -/
def writeLoop (cfg : Config) : ℕ → ℕ → ℕ → Written → Prog sig Written
  | 0, _, _, x => pure x
  | fuel + 1, voff, remaining, x => do
    if remaining = 0 then pure x
    else
      let chunk ← nextWindow voff remaining
      let r ← recvAll chunk
      let m := x.mem.write ⟨.iobuf, 0⟩ r.2
      if r.1 = false then pure ⟨false, x.error, x.data ++ r.2, m⟩
      else
        let y ← if x.error = .ok then storeRange cfg voff ⟨.iobuf, 0⟩ chunk m else pure (.ok, m)
        writeLoop cfg fuel ((voff + chunk) % 2 ^ 64) (remaining - chunk)
          ⟨true, x.error.merge y.1, x.data ++ r.2, y.2⟩

/-- The window loop of a READ. -/
def readLoop (cfg : Config) (r : Req) : ℕ → ℕ → ℕ → Mem → Prog sig (Bool × Mem)
  | 0, _, _, m => pure (true, m)
  | fuel + 1, voff, remaining, m => do
    if remaining = 0 then pure (true, m)
    else
      let chunk ← nextWindow voff remaining
      let x ← loadRange cfg voff ⟨.iobuf, 0⟩ chunk m
      if x.1 ≠ .ok then pure (false, x.2)
      else
        event (.deliver r (r.len - remaining) (x.2.read ⟨.iobuf, 0⟩ chunk))
        let ok ← sendAll (x.2.read ⟨.iobuf, 0⟩ chunk)
        if ok = false then pure (false, x.2)
        else readLoop cfg r fuel ((voff + chunk) % 2 ^ 64) (remaining - chunk) x.2

/-- The part of `handle_one` before the reply. -/
def handleBody (cfg : Config) (h : Hdr) (error : Err) (m : Mem) : Prog sig Written := do
  match h.cmd with
  | .write => writeLoop cfg h.len h.from' h.len ⟨true, error, [], m⟩
  | .flush => do
    let _ ← sync
    pure ⟨true, error, [], m⟩
  | .trim => do
    if error = .ok then trimRange cfg h.from' h.len
    pure ⟨true, error, [], m⟩
  | _ => pure ⟨true, error, [], m⟩

/-- The debug counter of `handle_one`. -/
def countOne (cfg : Config) (h : Hdr) : Prog sig Unit :=
  if cfg.batchDebug = true ∧ (h.cmd = .read ∨ h.cmd = .write) then ctrAdd .legacyOps 1 else pure ()

/-- `handle_one`: `false` stands for -1, drop the connection. -/
def handleOne (cfg : Config) (h : Hdr) (m : Mem) : Prog sig (Bool × Mem) := do
  event (.begin [h.req []])
  countOne cfg h
  oobAccess cfg h
  let error : Err :=
    if (h.cmd = .read ∨ h.cmd = .write ∨ h.cmd = .trim) ∧ oob cfg h.from' h.len then .einval
    else .ok
  let x ← handleBody cfg h error m
  if x.alive = false then pure (false, x.mem)
  else
    event (.reply 0 (h.req x.data) x.error)
    let ok ← sendAll (respHdr x.error h.handle)
    if ok = false then pure (false, x.mem)
    else if x.error = .eio then pure (false, x.mem)
    else if x.error ≠ .ok then pure (true, x.mem)
    else if h.cmd = .read then readLoop cfg (h.req []) h.len h.from' h.len x.mem
    else pure (true, x.mem)

/-! ## The batched path -/

/-- The results of `batch_admit`: 1, 0 and -1. -/
inductive Admit
  | batched
  | single
  | drop
  deriving DecidableEq

/-- The requests and block ops of the batch being collected. -/
structure Batch where
  nreq : ℕ
  nops : ℕ
  mem : Mem

/-- `batch_admit`, for the request that gets number `b.nreq`. -/
def batchAdmit (cfg : Config) (h : Hdr) (b : Batch) : Prog sig (Admit × Batch) := do
  if h.magic ≠ requestMagic then pure (.drop, b)
  else if ¬ (h.cmd = .read ∨ h.cmd = .write) ∨ h.len = 0 ∨ 65536 < h.len then pure (.single, b)
  else if (h.from' ||| h.len) &&& 4095 ≠ 0 then pure (.single, b)
  else
    access (.reqs b.nreq)
    oobAccess cfg h
    let error : Err := if oob cfg h.from' h.len then .einval else .ok
    let slot : Ptr := ⟨.ubuf, b.nreq * 65536⟩
    let n := if error ≠ .ok then 0 else h.len / 4096
    let m := b.mem.setReq b.nreq ⟨h.handle, h.from', h.len, h.cmd, error, slot, b.nops, n⟩
    let m ← blkopSets m b.nops n (h.from' / 4096) h.cmd slot b.nreq
    if h.cmd = .write then
      access (.bytes slot h.len)
      let r ← recvAll h.len
      let m := m.write slot r.2
      if r.1 = false then pure (.drop, ⟨b.nreq, b.nops + n, m⟩)
      else pure (.batched, ⟨b.nreq + 1, b.nops + n, m⟩)
    else pure (.batched, ⟨b.nreq + 1, b.nops + n, m⟩)

/-- The request in entry `i` of the batch, a WRITE with the payload in its slot. -/
def Mem.reqAt (m : Mem) (i : ℕ) : Req :=
  let rq := m.reqs i
  ⟨rq.cmd, rq.handle, rq.offset, rq.len,
    if rq.cmd = .write then m.read rq.slot rq.len else []⟩

/-- The body of the phase-A loop of `flush_batch`. -/
def prepareOne (cfg : Config) (i : ℕ) (m : Mem) : Prog sig Mem :=
  if (m.ops i).cmd = .write then wrPrepare cfg i m else rdPrepare i m

/-- `flush_batch` before the copies: a failed op marks its request. -/
def Mem.markErrs (m : Mem) (nops : ℕ) : Mem :=
  (List.range nops).foldl (fun m i =>
    let bo := m.ops i
    if bo.err ≠ .ok then m.setReq bo.req { m.reqs bo.req with error := bo.err } else m) m

/-- Give back the reservation of a write whose request has failed elsewhere. -/
def abortOne (i : ℕ) (m : Mem) : Prog sig Mem :=
  let bo := m.ops i
  if bo.cmd = .write ∧ bo.err = .ok ∧ (m.reqs bo.req).error ≠ .ok then wrAbort i m else pure m

/-- `flush_batch` after the copies: each op's error is merged into its request's. -/
def Mem.collectErrs (m : Mem) (nops : ℕ) : Mem :=
  (List.range nops).foldl (fun m i =>
    let bo := m.ops i
    let rq := m.reqs bo.req
    m.setReq bo.req { rq with error := rq.error.merge bo.err }) m

/-- The loops of `flush_batch` up to the replies. -/
def runBatch (cfg : Config) (nops : ℕ) (m : Mem) : Prog sig Mem := do
  let m ← forRange nops (prepareOne cfg) m
  let m := m.markErrs nops
  let m ← forRange nops abortOne m
  let m ← doBlocks cfg nops m
  pure (m.collectErrs nops)

/-- The debug counters of `flush_batch`. -/
def countBatch (cfg : Config) (b : Batch) : Prog sig Unit := do
  if cfg.batchDebug = true then
    ctrAdd .flushCount 1
    ctrAdd .flushOps b.nreq
    ctrAdd .flushCopies b.nops
    if 1 < b.nreq then
      ctrAdd .batchCount 1
      ctrAdd .batchOps b.nreq

/-- The reply to request `i` of a batch; once a send has failed nothing more is sent. -/
def replyOne (m : Mem) (i : ℕ) (alive : Bool) : Prog sig Bool := do
  let rq := m.reqs i
  if alive = false then pure false
  else
    access (.reqs i)
    event (.reply i (m.reqAt i) rq.error)
    let ok ← sendAll (respHdr rq.error rq.handle)
    if ok = false then pure false
    else if rq.cmd = .read ∧ rq.error = .ok then
      access (.bytes rq.slot rq.len)
      event (.deliver (m.reqAt i) 0 (m.read rq.slot rq.len))
      sendAll (m.read rq.slot rq.len)
    else pure true

/-- `flush_batch`. -/
def flushBatch (cfg : Config) (b : Batch) : Prog sig (Bool × Mem) := do
  event (.begin ((List.range b.nreq).map b.mem.reqAt))
  let m ← runBatch cfg b.nops b.mem
  countBatch cfg b
  let alive ← forRange b.nreq (replyOne m) true
  pure (decide (alive = true ∧ ∀ i < b.nreq, (m.reqs i).error ≠ .eio), m)

/-! ## The loop of `handle_client` -/

/-- How a round of `handle_client` ends. -/
inductive Turn
  | go
  | drop
  | disc
  deriving DecidableEq

/-- The header that closed a batch: none, one for the per-request path, DISC, or a broken
connection. -/
inductive Trailer
  | none
  | single (h : Hdr)
  | disc
  | drop

def Config.copyCap (cfg : Config) : ℕ :=
  if 64 < cfg.maxops - 16 then 64 else cfg.maxops - 16

/-- The loop that drains what is already queued. Every round admits a request, so
`fuel = depth` is enough. -/
def gather (cfg : Config) : ℕ → Batch → Prog sig (Trailer × Batch)
  | 0, b => pure (.none, b)
  | fuel + 1, b => do
    if b.nreq < cfg.batchDepth ∧ b.nops < cfg.copyCap then
      match ← recvHdrNb with
      | .closed => pure (.drop, b)
      | .empty => pure (.none, b)
      | .got h =>
        if h.magic ≠ requestMagic then pure (.drop, b)
        else if h.cmd = .disc then pure (.disc, b)
        else
          let a ← batchAdmit cfg h b
          match a.1 with
          | .drop => pure (.drop, a.2)
          | .single => pure (.single h, a.2)
          | .batched => gather cfg fuel a.2
    else pure (.none, b)

def turnOf (r : Bool × Mem) : Turn × Mem := (if r.1 = true then .go else .drop, r.2)

/-- One round of `handle_client` from a good header that is not DISC. -/
def serveHdr (cfg : Config) (h : Hdr) (m : Mem) : Prog sig (Turn × Mem) := do
  if cfg.batchEnabled = false then
    let r ← handleOne cfg h m
    pure (turnOf r)
  else
    let a ← batchAdmit cfg h ⟨0, 0, m⟩
    match a.1 with
    | .drop => pure (.drop, a.2.mem)
    | .single => do
      let r ← handleOne cfg h a.2.mem
      pure (turnOf r)
    | .batched => do
      access (.sub cfg.maxops 16)
      let t ← gather cfg cfg.batchDepth a.2
      match t.1 with
      | .drop => pure (.drop, t.2.mem)
      | _ =>
        let r ← flushBatch cfg t.2
        if r.1 = false then pure (.drop, r.2)
        else
          match t.1 with
          | .single h' => do
            let r ← handleOne cfg h' r.2
            pure (turnOf r)
          | .disc => pure (.disc, r.2)
          | _ => pure (.go, r.2)

/-- Why a connection ended: DISC, `g_running` found 0, or dropped. -/
inductive Exit
  | disc
  | stop
  | drop
  deriving DecidableEq

/-- Where a worker stands between two rounds; `logging` is the statistics thread. -/
inductive Phase
  | logging
  | waiting (m : Mem)
  | serving (m : Mem)
  | ended (why : Exit) (m : Mem)
  | stopped (m : Mem)

/-- One round of the loop of `handle_client`, from its blocking receive to the next test of
`g_running`. -/
def serve (cfg : Config) (m : Mem) : Prog sig Phase := do
  let r ← recvAll 28
  if r.1 = false then pure (.ended .drop m)
  else if (parseHdr r.2).magic ≠ requestMagic then pure (.ended .drop m)
  else if (parseHdr r.2).cmd = .disc then pure (.ended .disc m)
  else
    let t ← serveHdr cfg (parseHdr r.2) m
    match t.1 with
    | .drop => pure (.ended .drop t.2)
    | .disc => pure (.ended .disc t.2)
    | .go => do
      let on ← running
      pure (if on = true then .serving t.2 else .ended .stop t.2)

/-- `extents_log`: the scan of `g_ext` under `g_alloc_mu`. What it finds is only printed. -/
def extentsLog : Prog sig Unit := do
  lock .alloc
  unlock .alloc

/-- The next round of `thread_worker`, or of the statistics thread. -/
def next (cfg : Config) : Phase → Prog sig Phase
  | .logging => do
    extentsLog
    pure .logging
  | .waiting m => do
    let c ← accept
    let on ← running
    pure (if on = false then (if c = true then .ended .stop m else .stopped m)
      else if c = true then .serving m else .waiting m)
  | .serving m => serve cfg m
  | .ended _ m => do
    let on ← running
    pure (if on = true then .waiting m else .stopped m)
  | .stopped m => pure (.stopped m)

abbrev Daemon (cfg : Config) : Type := Sys (machine cfg) Phase

/-- The steps of the daemon in a mode. -/
def Daemon.Run (cfg : Config) (md : Mode) : Daemon cfg → Daemon cfg → Prop :=
  Sys.Run (md.Adm cfg) fun _ => next cfg

/-- The daemon before its first connection: nothing stored, every thread waiting. -/
def Daemon.Initial (cfg : Config) (S : Daemon cfg) : Prop :=
  S.st.Initial cfg ∧ ∀ w, S.prog w = .ret .logging ∨ ∃ m, S.prog w = .ret (.waiting m)

/-- Reachable in the mode from a start of the daemon. -/
def Daemon.Reachable (cfg : Config) (md : Mode) (S : Daemon cfg) : Prop :=
  ∃ S₀ : Daemon cfg, Daemon.Initial cfg S₀ ∧ Daemon.Run cfg md S₀ S

end NbdVram
