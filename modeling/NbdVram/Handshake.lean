import Mathlib.Data.FinEnum
import NbdVram.Serve

/-!
# The handshake

`nbd_handshake` greets the client, reads its flags and answers its options until
one of them starts the transmission. It is a program over the same socket actions
as the request loop, so a receive may return any number of bytes.

The other side of the protocol is written down independently: `sessionOf` cuts the
client's stream into options, `Opt.reply` says which packets answer each of them, and
`client` is a client that reads those packets back. `nbdHandshake_correct` ties the
three to the program.
-/

namespace NbdVram

open Interleave Prog

/-! ## The source -/

/-- `NBD_MAGIC_INIT`. -/
def magicInit : ℕ := 0x4e42444d41474943

/-- `NBD_IHAVEOPT`. -/
def ihaveopt : ℕ := 0x49484156454f5054

/-- `NBD_OPT_REP_MAGIC`. -/
def optRepMagic : ℕ := 0x3e889045565a9

/-- `NBD_FLAG_FIXED_NEWSTYLE | NBD_FLAG_NO_ZEROES`. -/
def srvFlags : ℕ := 0x0001 ||| 0x0002

/-- `NBD_FLAG_HAS_FLAGS | NBD_FLAG_SEND_FLUSH | NBD_FLAG_SEND_TRIM | NBD_FLAG_CAN_MULTI_CONN`. -/
def txFlags : ℕ := 0x0001 ||| 0x0004 ||| 0x0020 ||| 0x0100

/-- The options the server knows. -/
inductive OptKind
  | exportName
  | abort
  | list
  | info
  | go
  | unknown
  deriving DecidableEq, Repr

def OptKind.ofCode : ℕ → OptKind
  | 1 => .exportName
  | 2 => .abort
  | 3 => .list
  | 6 => .info
  | 7 => .go
  | _ => .unknown

/-- `NBD_REP_ACK`. -/
def repAck : ℕ := 1

/-- `NBD_REP_SERVER`. -/
def repServer : ℕ := 2

/-- `NBD_REP_INFO`. -/
def repInfo : ℕ := 3

/-- `NBD_REP_ERR_UNSUP`. -/
def repErrUnsup : ℕ := 0x80000000 ||| 1

/-- `drain`: at most `len` rounds. -/
def drainLoop : ℕ → ℕ → Prog sig Bool
  | 0, _ => pure true
  | fuel + 1, len => do
    if len = 0 then pure true
    else
      let chunk := if 4096 < len then 4096 else len
      let r ← recvAll chunk
      if r.1 = false then pure false else drainLoop fuel (len - chunk)

def drain (len : ℕ) : Prog sig Bool := drainLoop len len

/-- `send_opt_reply`. -/
def sendOptReply (opt replyType : ℕ) (data : List UInt8) : Prog sig Bool := do
  let ok ← sendAll (toBe 8 optRepMagic ++ toBe 4 opt ++ toBe 4 replyType ++ toBe 4 data.length)
  if ok = false then pure false
  else if 0 < data.length then sendAll data
  else pure true

/-- `send_export_info`. -/
def sendExportInfo (opt size flags : ℕ) : Prog sig Bool :=
  sendOptReply opt repInfo (toBe 2 0 ++ toBe 8 size ++ toBe 2 flags)

/-- One round of the option loop: `some true` starts the transmission, `some false` stands for
-1, and `none` goes on to the next option. -/
def answerOption (diskSize : ℕ) (noZeroes : Bool) : Prog sig (Option Bool) := do
  let r ← recvAll 16
  if r.1 = false then pure (some false)
  else if be (r.2.take 8) ≠ ihaveopt then pure (some false)
  else
    let opt := be ((r.2.drop 8).take 4)
    let optLen := be ((r.2.drop 12).take 4)
    if 65536 < optLen then pure (some false)
    else
      let drained ← drain optLen
      match OptKind.ofCode opt with
      | .exportName =>
        if drained = false then pure (some false)
        else
          let ok ← sendAll (toBe 8 diskSize ++ toBe 2 txFlags)
          if ok = false then pure (some false)
          else if noZeroes = true then pure (some true)
          else
            let ok ← sendAll (List.replicate 124 0)
            pure (some ok)
      | .abort =>
        -- neither result is looked at
        let _ ← sendOptReply opt repAck []
        pure (some false)
      | .list =>
        if drained = false then pure (some false)
        else
          let ok ← sendOptReply opt repServer (toBe 4 0)
          if ok = false then pure (some false)
          else
            let ok ← sendOptReply opt repAck []
            pure (if ok = true then none else some false)
      | .unknown =>
        if drained = false then pure (some false)
        else
          let ok ← sendOptReply opt repErrUnsup []
          pure (if ok = true then none else some false)
      | kind =>
        -- INFO and GO
        if drained = false then pure (some false)
        else
          let ok ← sendExportInfo opt diskSize txFlags
          if ok = false then pure (some false)
          else
            let ok ← sendOptReply opt repAck []
            if ok = false then pure (some false)
            else if kind = .go then pure (some true)
            else pure none

/-- The option loop; `none` when `fuel` rounds were not enough. -/
def haggle (diskSize : ℕ) (noZeroes : Bool) : ℕ → Prog sig (Option Bool)
  | 0 => pure none
  | fuel + 1 => do
    match ← answerOption diskSize noZeroes with
    | some b => pure (some b)
    | none => haggle diskSize noZeroes fuel

/-- The server greeting. -/
def greeting : List UInt8 := toBe 8 magicInit ++ toBe 8 ihaveopt ++ toBe 2 srvFlags

/-- `!!(client_flags & NBD_FLAG_C_NO_ZEROES)`. -/
def noZeroes (flags : List UInt8) : Bool := decide (be flags &&& 0x00000002 ≠ 0)

/-- `nbd_handshake`. -/
def nbdHandshake (diskSize fuel : ℕ) : Prog sig (Option Bool) := do
  let ok ← sendAll greeting
  if ok = false then pure (some false)
  else
    let r ← recvAll 4
    if r.1 = false then pure (some false)
    else haggle diskSize (noZeroes r.2) fuel

/-! ## Talking without failures -/

section Talk

variable {cfg : Config} {w : ℕ} {ch : ℕ → Choice} {s : State}

@[simp] theorem setNet_net (s : State) (w : ℕ) (p : Net) : ((s.setNet w p).priv w).net = p := by
  simp [State.setNet, State.setPriv]

@[simp] theorem setNet_setNet (s : State) (w : ℕ) (p p' : Net) :
    (s.setNet w p).setNet w p' = s.setNet w p' := by
  simp [State.setNet, State.setPriv]

theorem setNet_self (s : State) (w : ℕ) : s.setNet w (s.priv w).net = s := by
  simp [State.setNet, State.setPriv]

theorem Net.take_take (p : Net) (k n : ℕ) : (p.take k).take n = p.take (k + n) := by
  simp only [Net.take, List.drop_drop, List.append_assoc]
  rw [List.take_add]

theorem Net.put_put (p : Net) (bs bs' : List UInt8) : (p.put bs).put bs' = p.put (bs ++ bs') := by
  simp only [Net.put, List.append_assoc]

/-- The run of worker `w` in which no call fails and the client ends its stream. -/
abbrev Talks (cfg : Config) (w : ℕ) (ch : ℕ → Choice) {α : Type} (p : Prog sig α) (n : Net) (a : α)
    (n' : Net) : Prop :=
  ∀ s : State, (s.priv w).net = n → Does (machine cfg) w ch p s a (s.setNet w n')

variable (hok : ∀ i, (ch i).fail = false)

theorem Talks.ret {α : Type} {a : α} {n : Net} : Talks cfg w ch (.ret a) n a n := by
  rintro s rfl
  rw [setNet_self]
  exact Does.ret

theorem Talks.bind {α β : Type} {p : Prog sig α} {f : α → Prog sig β} {a : α} {b : β}
    {n n' n'' : Net} (h : Talks cfg w ch p n a n') (hf : Talks cfg w ch (f a) n' b n'') :
    Talks cfg w ch (p >>= f) n b n'' := by
  intro s hs
  have hf' := hf (s.setNet w n') (setNet_net _ _ _)
  rw [setNet_setNet] at hf'
  exact (h s hs).bind hf'

include hok

theorem recvLoop_talks {p : Net} (heof : p.eof = true) (fuel n : ℕ) (acc : List UInt8)
    (hf : n ≤ fuel) :
    Talks cfg w ch (recvLoop fuel n acc) p (decide (n ≤ p.inp.length), acc ++ p.inp.take n)
      (p.take n) := by
  induction fuel generalizing n p acc with
  | zero =>
      obtain rfl : n = 0 := by omega
      simpa [recvLoop, Net.take] using Talks.ret
  | succ fuel ih =>
      unfold recvLoop
      by_cases hz : n = 0
      · subst hz
        simpa [Net.take] using Talks.ret
      rw [if_neg hz]
      rintro s rfl
      intro i
      by_cases hnil : (s.priv w).net.inp = []
      · have hex : exec cfg w (.recv n) (ch i) s = some ((none : Option (List UInt8)), s) := by
          simp only [exec, hnil, heof, and_self, or_true, if_true]
          rfl
        refine ⟨i + 1, (drive_call (M := machine cfg) (w := w) (o := Op.recv n) (i := i) (s := s) hex).trans ?_⟩
        have hsame : (s.priv w).net.take n = (s.priv w).net := by
          simp only [Net.take, hnil, List.drop_nil, List.take_nil, List.append_nil]
          rw [← hnil]
        rw [hsame, setNet_self]
        simp [drive, hnil, hz]
      · -- a receive of `k` bytes, then the rest
        have hpos := List.length_pos_of_ne_nil hnil
        let k := min ((ch i).n + 1) (min n (s.priv w).net.inp.length)
        have hk : (((s.priv w).net.inp).take k).length = k := by
          rw [List.length_take]
          omega
        have hrest := ih (p := (s.priv w).net.take k) heof (n - k)
          (acc ++ (s.priv w).net.inp.take k) (by omega)
          (s.setNet w ((s.priv w).net.take k)) (setNet_net _ _ _) (i + 1)
        obtain ⟨j, hj⟩ := hrest
        refine ⟨j, ?_⟩
        have hsum : k + (n - k) = n := by omega
        rw [setNet_setNet, Net.take_take, hsum] at hj
        have hdec : decide (n - k ≤ ((s.priv w).net.take k).inp.length) =
            decide (n ≤ (s.priv w).net.inp.length) := by
          rw [decide_eq_decide]
          simp only [Net.take, List.length_drop]
          omega
        have hacc : acc ++ (s.priv w).net.inp.take k ++ ((s.priv w).net.take k).inp.take (n - k) =
            acc ++ (s.priv w).net.inp.take n := by
          rw [List.append_assoc]
          simp only [Net.take]
          rw [← List.take_add, hsum]
        rw [hdec, hacc] at hj
        have hex : exec cfg w (.recv n) (ch i) s = some (some ((s.priv w).net.inp.take k),
            s.setNet w ((s.priv w).net.take k)) := by
          simp only [exec, hok i, hnil, Bool.false_eq_true, false_and, or_self, if_false]
          rfl
        refine (drive_call (M := machine cfg) (w := w) (o := Op.recv n) (i := i) (s := s) hex).trans ?_
        dsimp only
        rw [hk]
        exact hj

/-- `recv_all` returns the next `n` bytes, however they arrive. -/
theorem recvAll_talks {p : Net} (heof : p.eof = true) (n : ℕ) :
    Talks cfg w ch (recvAll n) p (decide (n ≤ p.inp.length), p.inp.take n) (p.take n) := by
  have : Talks cfg w ch (recvLoop n n []) p _ _ := recvLoop_talks hok heof n n [] le_rfl
  rwa [List.nil_append] at this

theorem sendLoop_talks {p : Net} (fuel : ℕ) (bs : List UInt8) (hf : bs.length ≤ fuel) :
    Talks cfg w ch (sendLoop fuel bs) p true (p.put bs) := by
  induction fuel generalizing bs p with
  | zero =>
      obtain rfl : bs = [] := List.length_eq_zero_iff.mp (by omega)
      simpa [sendLoop, Net.put] using Talks.ret
  | succ fuel ih =>
      unfold sendLoop
      by_cases hz : bs.length = 0
      · obtain rfl : bs = [] := List.length_eq_zero_iff.mp hz
        simpa [Net.put] using Talks.ret
      rw [if_neg hz]
      rintro s rfl
      intro i
      let k := min ((ch i).n + 1) bs.length
      obtain ⟨j, hj⟩ := ih (p := (s.priv w).net.put (bs.take k)) (bs.drop k)
        (by rw [List.length_drop]; omega) (s.setNet w ((s.priv w).net.put (bs.take k)))
        (setNet_net _ _ _) (i + 1)
      refine ⟨j, ?_⟩
      rw [setNet_setNet, Net.put_put, List.take_append_drop] at hj
      have hex : exec cfg w (.send bs) (ch i) s = some (some k,
          s.setNet w ((s.priv w).net.put (bs.take k))) := by
        simp only [exec, hok i, Bool.false_eq_true, if_false]
        rfl
      refine (drive_call (M := machine cfg) (w := w) (o := Op.send bs) (i := i) (s := s) hex).trans ?_
      exact hj

theorem sendAll_talks {p : Net} (bs : List UInt8) :
    Talks cfg w ch (sendAll bs) p true (p.put bs) :=
  sendLoop_talks hok bs.length bs le_rfl

theorem drainLoop_talks {p : Net} (heof : p.eof = true) (fuel len : ℕ) (hf : len ≤ fuel) :
    Talks cfg w ch (drainLoop fuel len) p (decide (len ≤ p.inp.length)) (p.take len) := by
  induction fuel generalizing len p with
  | zero =>
      obtain rfl : len = 0 := by omega
      simpa [drainLoop, Net.take] using Talks.ret
  | succ fuel ih =>
      unfold drainLoop
      by_cases hz : len = 0
      · subst hz
        simpa [Net.take] using Talks.ret
      rw [if_neg hz]
      generalize hc : (if 4096 < len then 4096 else len) = chunk
      have hle : chunk ≤ len ∧ 0 < chunk := by
        split at hc <;> omega
      refine (recvAll_talks hok heof chunk).bind ?_
      by_cases hshort : chunk ≤ p.inp.length
      · rw [if_neg (by simpa using hshort)]
        have := ih (p := p.take chunk) heof (len - chunk) (by omega)
        rw [Net.take_take, Nat.add_sub_cancel' hle.1] at this
        have hdec : decide (len - chunk ≤ (p.take chunk).inp.length) =
            decide (len ≤ p.inp.length) := by
          rw [decide_eq_decide]
          simp only [Net.take, List.length_drop]
          omega
        rwa [hdec] at this
      · -- the stream ends inside the chunk, and so inside the option
        rw [if_pos (by simpa using hshort)]
        have hdec : decide (len ≤ p.inp.length) = false := by
          simp only [decide_eq_false_iff_not]
          omega
        have hall : ∀ n, p.inp.length ≤ n → p.take n = p.take p.inp.length := by
          intro n hn
          simp only [Net.take, List.take_of_length_le hn, List.drop_of_length_le hn,
            List.take_length, List.drop_length]
        rw [hdec, hall len (by omega), hall chunk (by omega)]
        exact Talks.ret

/-- `drain` skips exactly `len` bytes. -/
theorem drain_talks {p : Net} (heof : p.eof = true) (len : ℕ) :
    Talks cfg w ch (drain len) p (decide (len ≤ p.inp.length)) (p.take len) :=
  drainLoop_talks hok heof len len le_rfl

omit hok in
/-- One option reply: the header with the option echoed and the length of the data, and the
data. -/
def packet (opt replyType : ℕ) (data : List UInt8) : List UInt8 :=
  toBe 8 optRepMagic ++ toBe 4 opt ++ toBe 4 replyType ++ toBe 4 data.length ++ data

theorem sendOptReply_talks {p : Net} (opt replyType : ℕ) (data : List UInt8) :
    Talks cfg w ch (sendOptReply opt replyType data) p true
      (p.put (packet opt replyType data)) := by
  unfold sendOptReply
  refine (sendAll_talks hok _).bind ?_
  rw [if_neg (by simp)]
  by_cases hz : 0 < data.length
  · rw [if_pos hz]
    have : Talks cfg w ch (sendAll data) (p.put (toBe 8 optRepMagic ++ toBe 4 opt ++
      toBe 4 replyType ++ toBe 4 data.length)) true _ := sendAll_talks hok data
    rwa [Net.put_put] at this
  · rw [if_neg hz]
    obtain rfl : data = [] := List.length_eq_zero_iff.mp (by omega)
    simpa [packet] using Talks.ret

end Talk

/-! ## The protocol -/

/-- An option as the client sends it. -/
structure Opt where
  code : ℕ
  payload : List UInt8
  deriving DecidableEq

def Opt.kind (o : Opt) : OptKind := OptKind.ofCode o.code

/-- The option on the wire: 16 bytes and the payload. -/
def Opt.bytes (o : Opt) : List UInt8 :=
  toBe 8 ihaveopt ++ toBe 4 o.code ++ toBe 4 o.payload.length ++ o.payload

/-- The bytes that answer an option. -/
def Opt.reply (diskSize : ℕ) (noZeroes : Bool) (o : Opt) : List UInt8 :=
  match o.kind with
  | .exportName =>
    toBe 8 diskSize ++ toBe 2 txFlags ++ (if noZeroes = true then [] else List.replicate 124 0)
  | .abort => packet o.code repAck []
  | .list => packet o.code repServer (toBe 4 0) ++ packet o.code repAck []
  | .unknown => packet o.code repErrUnsup []
  | _ =>
    packet o.code repInfo (toBe 2 0 ++ toBe 8 diskSize ++ toBe 2 txFlags) ++
      packet o.code repAck []

/-- How the option phase ends: an option that starts the transmission, ABORT, a bad magic or an
oversized option, or the end of the stream. -/
inductive Ending
  | transmission (o : Opt)
  | abort (o : Opt)
  | refused
  | ended
  deriving DecidableEq

def Ending.starts : Ending → Bool
  | .transmission _ => true
  | _ => false

def Ending.reply (diskSize : ℕ) (noZeroes : Bool) : Ending → List UInt8
  | .transmission o => o.reply diskSize noZeroes
  | .abort o => o.reply diskSize noZeroes
  | _ => []

/-- The options before the ending one, the ending, and the bytes that follow. -/
structure Session where
  opts : List Opt
  ending : Ending
  rest : List UInt8

/-- All that is sent in answer. -/
def Session.replies (t : Session) (diskSize : ℕ) (noZeroes : Bool) : List UInt8 :=
  t.opts.flatMap (Opt.reply diskSize noZeroes) ++ t.ending.reply diskSize noZeroes

/-- The number in the length field of the option at the front. -/
def optLen (bs : List UInt8) : ℕ := be ((bs.drop 12).take 4)

/-- The option at the front. -/
def optAt (bs : List UInt8) : Opt := ⟨be ((bs.drop 8).take 4), (bs.drop 16).take (optLen bs)⟩

/-- The sequential parser of the option phase: 16 bytes and the payload for each option. -/
def sessionOf (bs : List UInt8) : Session :=
  if bs.length < 16 then ⟨[], .ended, []⟩
  else if be (bs.take 8) ≠ ihaveopt ∨ 65536 < optLen bs then ⟨[], .refused, bs.drop 16⟩
  else if (optAt bs).kind = .abort then ⟨[], .abort (optAt bs), bs.drop (16 + optLen bs)⟩
  else if bs.length < 16 + optLen bs then ⟨[], .ended, []⟩
  else if (optAt bs).kind = .exportName ∨ (optAt bs).kind = .go then
    ⟨[], .transmission (optAt bs), bs.drop (16 + optLen bs)⟩
  else
    let t := sessionOf (bs.drop (16 + optLen bs))
    ⟨optAt bs :: t.opts, t.ending, t.rest⟩
termination_by bs.length
decreasing_by
  rw [List.length_drop]
  omega

/-! ### The client -/

structure Reply where
  opt : ℕ
  type : ℕ
  data : List UInt8
  deriving DecidableEq

/-- The client reads one reply packet. -/
def readReply (bs : List UInt8) : Option (Reply × List UInt8) :=
  if bs.length < 20 ∨ be (bs.take 8) ≠ optRepMagic then none
  else
    let len := be ((bs.drop 16).take 4)
    if bs.length < 20 + len then none
    else some (⟨be ((bs.drop 8).take 4), be ((bs.drop 12).take 4), (bs.drop 20).take len⟩,
      bs.drop (20 + len))

/-- The client reads the replies to option `opt`, up to the ACK or the error that ends them. -/
def readReplies (opt : ℕ) : ℕ → List UInt8 → Option (List Reply × List UInt8)
  | 0, _ => none
  | fuel + 1, bs =>
    match readReply bs with
    | none => none
    | some (r, rest) =>
      if r.opt ≠ opt then none
      else if r.type = repAck ∨ 0x80000000 ≤ r.type then some ([r], rest)
      else (readReplies opt fuel rest).map fun x => (r :: x.1, x.2)

/-- The size and the transmission flags in an export information. -/
def exportInfo : List Reply → Option (ℕ × ℕ)
  | [] => none
  | r :: rs =>
    if r.type = repInfo ∧ r.data.length = 12 ∧ be (r.data.take 2) = 0 then
      some (be ((r.data.drop 2).take 8), be ((r.data.drop 10).take 2))
    else exportInfo rs

/-- What a client that has sent these options learns from the server's answers; the last one
starts the transmission, and nothing may follow its answer. -/
def client (noZeroes : Bool) : List Opt → List UInt8 → Option (ℕ × ℕ)
  | [], _ => none
  | [o], bs =>
    if o.kind = .exportName then
      if bs.length = 10 + (if noZeroes = true then 0 else 124) ∧ ∀ b ∈ bs.drop 10, b = 0 then
        some (be (bs.take 8), be ((bs.drop 8).take 2))
      else none
    else
      match readReplies o.code bs.length bs with
      | some (rs, []) => exportInfo rs
      | _ => none
  | o :: o' :: os, bs =>
    match readReplies o.code bs.length bs with
    | some (_, rest) => client noZeroes (o' :: os) rest
    | none => none

/-! ### What the client reads back -/

theorem be_take_toBe {n x : ℕ} (hx : x < 256 ^ n) (rest : List UInt8) :
    be ((toBe n x ++ rest).take n) = x := by
  rw [List.take_left' (toBe_length n x), be_toBe, Nat.mod_eq_of_lt hx]

theorem packet_length (opt type : ℕ) (data : List UInt8) :
    (packet opt type data).length = 20 + data.length := by
  simp only [packet, List.length_append, toBe_length]

theorem readReply_packet {opt type : ℕ} {data : List UInt8} (ho : opt < 2 ^ 32)
    (ht : type < 2 ^ 32) (hd : data.length < 2 ^ 32) (rest : List UInt8) :
    readReply (packet opt type data ++ rest) = some (⟨opt, type, data⟩, rest) := by
  have hp : packet opt type data ++ rest = toBe 8 optRepMagic ++ (toBe 4 opt ++ (toBe 4 type ++
      (toBe 4 data.length ++ (data ++ rest)))) := by
    simp only [packet, List.append_assoc]
  have hlen : (packet opt type data ++ rest).length = 20 + data.length + rest.length := by
    rw [List.length_append, packet_length]
  have hpow : (2 : ℕ) ^ 32 = 256 ^ 4 := by norm_num
  rw [hpow] at ho ht hd
  have h8 : (packet opt type data ++ rest).drop 8 = toBe 4 opt ++ (toBe 4 type ++
      (toBe 4 data.length ++ (data ++ rest))) := by
    rw [hp]
    exact List.drop_left' (toBe_length 8 _)
  have h12 : (packet opt type data ++ rest).drop 12 = toBe 4 type ++
      (toBe 4 data.length ++ (data ++ rest)) := by
    rw [show (12 : ℕ) = 8 + 4 from rfl, ← List.drop_drop, h8]
    exact List.drop_left' (toBe_length 4 _)
  have h16 : (packet opt type data ++ rest).drop 16 = toBe 4 data.length ++ (data ++ rest) := by
    rw [show (16 : ℕ) = 12 + 4 from rfl, ← List.drop_drop, h12]
    exact List.drop_left' (toBe_length 4 _)
  have h20 : (packet opt type data ++ rest).drop 20 = data ++ rest := by
    rw [show (20 : ℕ) = 16 + 4 from rfl, ← List.drop_drop, h16]
    exact List.drop_left' (toBe_length 4 _)
  have hmagic : be ((packet opt type data ++ rest).take 8) = optRepMagic := by
    rw [hp]
    exact be_take_toBe (by decide) _
  unfold readReply
  rw [if_neg (by rw [hlen, hmagic]; simp; omega)]
  simp only [h16, h12, h8, h20, be_take_toBe ho, be_take_toBe ht, be_take_toBe hd]
  rw [if_neg (by rw [hlen]; omega), ← List.drop_drop, h20, List.take_left, List.drop_left]

/-- An option that is answered with reply packets only and goes on. -/
def Opt.Plain (o : Opt) : Prop :=
  o.code < 2 ^ 32 ∧ o.kind ≠ .exportName ∧ o.kind ≠ .go ∧ o.kind ≠ .abort

/-- The answer to any option but EXPORT_NAME and ABORT ends with its last packet; that to GO and
INFO carries the export information. -/
theorem readReplies_reply {o : Opt} {diskSize : ℕ} (nz : Bool) (hc : o.code < 2 ^ 32)
    (hn : o.kind ≠ .exportName) (ha : o.kind ≠ .abort) (hd : diskSize < 2 ^ 64)
    (rest : List UInt8) {fuel : ℕ} (hf : 2 ≤ fuel) :
    ∃ rs, readReplies o.code fuel (o.reply diskSize nz ++ rest) = some (rs, rest) ∧
      (o.kind = .go → exportInfo rs = some (diskSize, txFlags)) := by
  obtain ⟨k, rfl⟩ := Nat.exists_eq_add_of_le hf
  rw [Nat.add_comm]
  have hack : ∀ j, readReplies o.code (j + 1) (packet o.code repAck [] ++ rest) =
      some ([⟨o.code, repAck, []⟩], rest) := by
    intro j
    rw [readReplies, readReply_packet hc (by decide) (by decide)]
    simp
  have htwo : ∀ (type : ℕ) (data : List UInt8), type < 2 ^ 31 → type ≠ repAck →
      data.length < 2 ^ 32 →
      readReplies o.code (k + 2) (packet o.code type data ++ packet o.code repAck [] ++ rest) =
        some ([⟨o.code, type, data⟩, ⟨o.code, repAck, []⟩], rest) := by
    intro type data ht hne hl
    rw [readReplies, List.append_assoc, readReply_packet hc (by omega) hl]
    simp only [ne_eq, not_true_eq_false, if_false, hne, false_or]
    rw [if_neg (by omega), hack k]
    rfl
  have hinfo : (toBe 2 0 ++ toBe 8 diskSize ++ toBe 2 txFlags).length = 12 := by
    simp only [List.length_append, toBe_length]
  have hexp : ∀ r, exportInfo [⟨o.code, repInfo, toBe 2 0 ++ toBe 8 diskSize ++ toBe 2 txFlags⟩, r] =
      some (diskSize, txFlags) := by
    intro r
    have h2 : (toBe 2 0 ++ toBe 8 diskSize ++ toBe 2 txFlags).drop 2 =
        toBe 8 diskSize ++ (toBe 2 txFlags ++ []) := by
      rw [List.append_assoc, List.append_nil]
      exact List.drop_left' (toBe_length 2 _)
    have h10 : (toBe 2 0 ++ toBe 8 diskSize ++ toBe 2 txFlags).drop 10 = toBe 2 txFlags ++ [] := by
      rw [show (10 : ℕ) = 2 + 8 from rfl, ← List.drop_drop, h2]
      exact List.drop_left' (toBe_length 8 _)
    have h0 : be ((toBe 2 0 ++ toBe 8 diskSize ++ toBe 2 txFlags).take 2) = 0 := by
      rw [List.append_assoc]
      exact be_take_toBe (by decide) _
    rw [exportInfo, if_pos ⟨rfl, hinfo, h0⟩]
    simp only [h2, h10]
    rw [be_take_toBe (by simpa using hd), be_take_toBe (by decide)]
  unfold Opt.reply
  cases hk : o.kind with
  | exportName => exact absurd hk hn
  | abort => exact absurd hk ha
  | list => exact ⟨_, htwo repServer (toBe 4 0) (by decide) (by decide) (by simp), nofun⟩
  | unknown =>
      refine ⟨[⟨o.code, repErrUnsup, []⟩], ?_, nofun⟩
      show readReplies o.code (k + 2) (packet o.code repErrUnsup [] ++ rest) = _
      rw [readReplies, readReply_packet hc (by decide) (by decide)]
      simp [repErrUnsup]
  | info => exact ⟨_, htwo repInfo _ (by decide) (by decide) (by rw [hinfo]; decide), nofun⟩
  | go => exact ⟨_, htwo repInfo _ (by decide) (by decide) (by rw [hinfo]; decide), fun _ => hexp _⟩

theorem reply_length {o : Opt} {diskSize : ℕ} {nz : Bool} (hn : o.kind ≠ .exportName) :
    2 ≤ (o.reply diskSize nz).length := by
  unfold Opt.reply
  cases hk : o.kind with
  | exportName => exact absurd hk hn
  | abort => simp only [packet_length]; omega
  | list => simp only [List.length_append, packet_length]; omega
  | unknown => simp only [packet_length]; omega
  | info => simp only [List.length_append, packet_length]; omega
  | go => simp only [List.length_append, packet_length]; omega

/-- **The client learns the size and the flags.** -/
theorem client_replies {diskSize : ℕ} {nz : Bool} (hd : diskSize < 2 ^ 64) {o : Opt}
    (hc : o.code < 2 ^ 32) (ho : o.kind = .exportName ∨ o.kind = .go) (opts : List Opt)
    (hp : ∀ o ∈ opts, o.Plain) :
    client nz (opts ++ [o]) (opts.flatMap (Opt.reply diskSize nz) ++ o.reply diskSize nz) =
      some (diskSize, txFlags) := by
  induction opts with
  | nil =>
      rw [List.nil_append, List.flatMap_nil, List.nil_append, client]
      rcases ho with ho | ho
      · rw [if_pos ho]
        have hr : o.reply diskSize nz = toBe 8 diskSize ++ (toBe 2 txFlags ++
            (if nz = true then [] else List.replicate 124 0)) := by
          rw [Opt.reply, ho]
          exact List.append_assoc ..
        have h8 : (o.reply diskSize nz).drop 8 = toBe 2 txFlags ++
            (if nz = true then [] else List.replicate 124 0) := by
          rw [hr]
          exact List.drop_left' (toBe_length 8 _)
        have h10 : (o.reply diskSize nz).drop 10 =
            if nz = true then [] else List.replicate 124 0 := by
          rw [show (10 : ℕ) = 8 + 2 from rfl, ← List.drop_drop, h8]
          exact List.drop_left' (toBe_length 2 _)
        have hlen : (o.reply diskSize nz).length = 10 + (if nz = true then 0 else 124) := by
          rw [hr]
          cases nz <;> simp
        have hz : ∀ b ∈ (o.reply diskSize nz).drop 10, b = 0 := by
          rw [h10]
          cases nz <;> simp
        rw [if_pos ⟨hlen, hz⟩, h8, hr, be_take_toBe (by simpa using hd), be_take_toBe (by decide)]
      · rw [if_neg (by rw [ho]; decide)]
        obtain ⟨rs, hrs, hinfo⟩ := readReplies_reply nz hc (by rw [ho]; decide)
          (by rw [ho]; decide) hd [] (reply_length (by rw [ho]; decide))
        rw [List.append_nil] at hrs
        rw [hrs]
        exact hinfo ho
  | cons a opts ih =>
      obtain ⟨hac, han, -, haa⟩ := hp a (List.mem_cons_self ..)
      have hrest := ih fun o' ho' => hp o' (List.mem_cons_of_mem _ ho')
      rw [List.flatMap_cons, List.append_assoc]
      generalize opts.flatMap (Opt.reply diskSize nz) ++ o.reply diskSize nz = bs at hrest
      have hlen : 2 ≤ (a.reply diskSize nz ++ bs).length := by
        rw [List.length_append]
        exact (reply_length han).trans (Nat.le_add_right _ _)
      obtain ⟨rs, hrs, -⟩ := readReplies_reply nz hac han haa hd bs hlen
      cases opts with
      | nil =>
          show client nz [a, o] _ = _
          rw [client, hrs]
          exact hrest
      | cons a' opts =>
          show client nz (a :: a' :: (opts ++ [o])) _ = _
          rw [client, hrs]
          exact hrest

/-! ## The option loop follows the protocol -/

theorem optAt_code_lt (bs : List UInt8) : (optAt bs).code < 2 ^ 32 := by
  refine (be_lt _).trans_le ?_
  rw [show (2 : ℕ) ^ 32 = 256 ^ 4 from by norm_num]
  exact Nat.pow_le_pow_right (by decide) (List.length_take_le _ _)

theorem sessionOf_plain (bs : List UInt8) : ∀ o ∈ (sessionOf bs).opts, o.Plain := by
  fun_induction sessionOf bs with
  | case1 => simp
  | case2 => simp
  | case3 => simp
  | case4 => simp
  | case5 => simp
  | case6 bs h1 h2 ha h4 hf t ih =>
      intro o ho
      rcases List.mem_cons.mp ho with rfl | ho
      · push Not at hf
        exact ⟨optAt_code_lt bs, hf.1, hf.2, ha⟩
      · exact ih o ho

theorem sessionOf_transmission (bs : List UInt8) {o : Opt}
    (h : (sessionOf bs).ending = .transmission o) :
    o.code < 2 ^ 32 ∧ (o.kind = .exportName ∨ o.kind = .go) := by
  fun_induction sessionOf bs with
  | case1 => cases h
  | case2 => cases h
  | case3 => cases h
  | case4 => cases h
  | case5 bs h1 h2 ha h4 hf =>
      cases h
      exact ⟨optAt_code_lt bs, hf⟩
  | case6 bs h1 h2 ha h4 hf t ih => exact ih h

/-- A whole option at the front of the stream, as it was sent. -/
theorem optAt_bytes {bs : List UInt8} (hm : be (bs.take 8) = ihaveopt)
    (hl : 16 + optLen bs ≤ bs.length) :
    bs = (optAt bs).bytes ++ bs.drop (16 + optLen bs) := by
  have hfield : ∀ i n, i + n ≤ bs.length → toBe n (be ((bs.drop i).take n)) = (bs.drop i).take n := by
    intro i n hin
    have hlen : ((bs.drop i).take n).length = n := by
      rw [List.length_take, List.length_drop]
      omega
    have := toBe_be ((bs.drop i).take n)
    rwa [hlen] at this
  have hpay : ((bs.drop 16).take (optLen bs)).length = optLen bs := by
    rw [List.length_take, List.length_drop]
    omega
  have h0 : toBe 8 ihaveopt = bs.take 8 := by
    have := hfield 0 8 (by omega)
    rwa [List.drop_zero, hm] at this
  have hcut : ∀ i n, bs.drop i = (bs.drop i).take n ++ bs.drop (i + n) := by
    intro i n
    rw [← List.drop_drop, List.take_append_drop]
  simp only [Opt.bytes, optAt, hpay]
  rw [h0, hfield 8 4 (by omega), show toBe 4 (optLen bs) = (bs.drop 12).take 4 from
    hfield 12 4 (by omega)]
  conv_lhs => rw [← List.take_append_drop 8 bs, hcut 8 4, hcut 12 4, hcut 16 (optLen bs)]
  simp only [List.append_assoc]

/-- The stream up to the start of the transmission is the options, one after the other. -/
theorem sessionOf_stream (bs : List UInt8) {o : Opt}
    (h : (sessionOf bs).ending = .transmission o) :
    bs = (sessionOf bs).opts.flatMap Opt.bytes ++ o.bytes ++ (sessionOf bs).rest := by
  fun_induction sessionOf bs with
  | case1 => cases h
  | case2 => cases h
  | case3 => cases h
  | case4 => cases h
  | case5 bs h1 h2 ha h4 hf =>
      cases h
      push Not at h2
      simpa using optAt_bytes h2.1 (by omega)
  | case6 bs h1 h2 ha h4 hf t ih =>
      push Not at h2
      have hrest := ih h
      show bs = (optAt bs :: t.opts).flatMap Opt.bytes ++ o.bytes ++ t.rest
      rw [List.flatMap_cons, List.append_assoc, List.append_assoc, ← List.append_assoc _ o.bytes,
        ← hrest]
      exact optAt_bytes h2.1 (by omega)

/-- An option at the front of a stream is found as it was sent. -/
theorem optAt_front {o : Opt} (hc : o.code < 2 ^ 32) (hl : o.payload.length ≤ 65536)
    (rest : List UInt8) :
    be ((o.bytes ++ rest).take 8) = ihaveopt ∧ optLen (o.bytes ++ rest) = o.payload.length ∧
      optAt (o.bytes ++ rest) = o ∧ (o.bytes ++ rest).drop (16 + o.payload.length) = rest ∧
      (o.bytes ++ rest).length = 16 + o.payload.length + rest.length := by
  have hb : o.bytes ++ rest = toBe 8 ihaveopt ++ (toBe 4 o.code ++ (toBe 4 o.payload.length ++
      (o.payload ++ rest))) := by
    simp only [Opt.bytes, List.append_assoc]
  have h8 : (o.bytes ++ rest).drop 8 = toBe 4 o.code ++ (toBe 4 o.payload.length ++
      (o.payload ++ rest)) := by
    rw [hb]
    exact List.drop_left' (toBe_length 8 _)
  have h12 : (o.bytes ++ rest).drop 12 = toBe 4 o.payload.length ++ (o.payload ++ rest) := by
    rw [show (12 : ℕ) = 8 + 4 from rfl, ← List.drop_drop, h8]
    exact List.drop_left' (toBe_length 4 _)
  have h16 : (o.bytes ++ rest).drop 16 = o.payload ++ rest := by
    rw [show (16 : ℕ) = 12 + 4 from rfl, ← List.drop_drop, h12]
    exact List.drop_left' (toBe_length 4 _)
  have hlen : optLen (o.bytes ++ rest) = o.payload.length := by
    rw [optLen, h12]
    exact be_take_toBe (by omega) _
  refine ⟨?_, hlen, ?_, ?_, ?_⟩
  · rw [hb]
    exact be_take_toBe (by decide) _
  · rw [optAt, hlen, h8, h16, List.take_left, be_take_toBe (by simpa using hc)]
  · rw [← List.drop_drop, h16, List.drop_left]
  · rw [hb]
    simp only [List.length_append, toBe_length]
    omega

/-- A client's options, up to the one that starts the transmission, are found one by one. -/
theorem sessionOf_options {opts : List Opt} {o : Opt} (hp : ∀ o ∈ opts, o.Plain)
    (hl : ∀ o ∈ opts, o.payload.length ≤ 65536) (hc : o.code < 2 ^ 32)
    (ho : o.kind = .exportName ∨ o.kind = .go) (hlo : o.payload.length ≤ 65536)
    (rest : List UInt8) :
    sessionOf (opts.flatMap Opt.bytes ++ o.bytes ++ rest) = ⟨opts, .transmission o, rest⟩ := by
  induction opts with
  | nil =>
      obtain ⟨hm, hlen, hat, hdrop, hsize⟩ := optAt_front hc hlo rest
      rw [List.flatMap_nil, List.nil_append, sessionOf, if_neg (by omega),
        if_neg (by rw [hm, hlen]; simp; omega), hat,
        if_neg (by rcases ho with ho | ho <;> rw [ho] <;> decide), if_neg (by omega), if_pos ho, hlen,
        hdrop]
  | cons a opts ih =>
      obtain ⟨hac, han, hag, haa⟩ := hp a (List.mem_cons_self ..)
      have hal := hl a (List.mem_cons_self ..)
      have hrest := ih (fun o' h' => hp o' (List.mem_cons_of_mem _ h'))
        fun o' h' => hl o' (List.mem_cons_of_mem _ h')
      rw [List.flatMap_cons, List.append_assoc, List.append_assoc, ← List.append_assoc _ o.bytes]
      generalize opts.flatMap Opt.bytes ++ o.bytes ++ rest = bs at hrest
      obtain ⟨hm, hlen, hat, hdrop, hsize⟩ := optAt_front hac hal bs
      rw [sessionOf, if_neg (by omega), if_neg (by rw [hm, hlen]; simp; omega), hat, if_neg haa,
        if_neg (by omega), if_neg (by simp [han, hag]), hlen, hdrop, hrest]

/-- One round on the stream `bs`: its result, the bytes consumed and those sent. -/
def answerOf (diskSize : ℕ) (nz : Bool) (bs : List UInt8) : Option Bool × ℕ × List UInt8 :=
  if bs.length < 16 then (some false, 16, [])
  else if be (bs.take 8) ≠ ihaveopt ∨ 65536 < optLen bs then (some false, 16, [])
  else if (optAt bs).kind = .abort then
    (some false, 16 + optLen bs, (optAt bs).reply diskSize nz)
  else if bs.length < 16 + optLen bs then (some false, 16 + optLen bs, [])
  else if (optAt bs).kind = .exportName ∨ (optAt bs).kind = .go then
    (some true, 16 + optLen bs, (optAt bs).reply diskSize nz)
  else (none, 16 + optLen bs, (optAt bs).reply diskSize nz)

section Loop

variable {cfg : Config} {w : ℕ} {ch : ℕ → Choice} (hok : ∀ i, (ch i).fail = false) {p : Net}

theorem Net.put_nil (p : Net) : p.put [] = p := by simp [Net.put]

include hok

theorem answerOption_talks (heof : p.eof = true) (diskSize : ℕ) (nz : Bool) :
    Talks cfg w ch (answerOption diskSize nz) p (answerOf diskSize nz p.inp).1
      ((p.take (answerOf diskSize nz p.inp).2.1).put (answerOf diskSize nz p.inp).2.2) := by
  unfold answerOption
  refine (recvAll_talks hok heof 16).bind ?_
  by_cases hshort : p.inp.length < 16
  · rw [if_pos (by simpa using hshort)]
    simp only [answerOf, if_pos hshort, Net.put_nil]
    exact Talks.ret
  rw [if_neg (by simpa using hshort)]
  -- the fields of the header are those of the stream
  have h8 : (p.inp.take 16).take 8 = p.inp.take 8 := by rw [List.take_take]; rfl
  have hf : ∀ i n, i + n ≤ 16 → ((p.inp.take 16).drop i).take n = (p.inp.drop i).take n := by
    intro i n hin
    rw [List.drop_take, List.take_take, min_eq_left (by omega)]
  dsimp only
  rw [h8, hf 8 4 (by omega), hf 12 4 (by omega)]
  change Talks cfg w ch (if be (p.inp.take 8) ≠ ihaveopt then _
    else if 65536 < optLen p.inp then _ else _) _ _ _
  by_cases hm : be (p.inp.take 8) = ihaveopt
  swap
  · rw [if_pos hm]
    simp only [answerOf, if_neg hshort, if_pos (Or.inl hm : _ ∨ 65536 < optLen p.inp), Net.put_nil]
    exact Talks.ret
  rw [if_neg (not_not_intro hm)]
  by_cases hbig : 65536 < optLen p.inp
  · rw [if_pos hbig]
    simp only [answerOf, if_neg hshort, if_pos (Or.inr hbig : be (p.inp.take 8) ≠ ihaveopt ∨ _),
      Net.put_nil]
    exact Talks.ret
  rw [if_neg hbig]
  have hgood : ¬ (be (p.inp.take 8) ≠ ihaveopt ∨ 65536 < optLen p.inp) := by
    simp only [hm, ne_eq, not_true_eq_false, false_or]
    exact hbig
  have hdrain : Talks cfg w ch (drain (optLen p.inp)) (p.take 16) _ _ :=
    drain_talks (p := p.take 16) hok heof (optLen p.inp)
  rw [Net.take_take] at hdrain
  have hdec : decide (optLen p.inp ≤ (p.take 16).inp.length) =
      decide (16 + optLen p.inp ≤ p.inp.length) := by
    rw [decide_eq_decide]
    simp only [Net.take, List.length_drop]
    omega
  rw [hdec] at hdrain
  refine hdrain.bind ?_
  set n := 16 + optLen p.inp with hn
  have hlt : (p.inp.length < n) = ¬ n ≤ p.inp.length := by rw [not_le]
  have hcode : be ((p.inp.drop 8).take 4) = (optAt p.inp).code := rfl
  rw [hcode]
  generalize hk : OptKind.ofCode (optAt p.inp).code = kind
  have hk' : (optAt p.inp).kind = kind := hk
  cases kind with
  | abort =>
      have hr : (optAt p.inp).reply diskSize nz = packet (optAt p.inp).code repAck [] := by
        rw [Opt.reply, hk']
      simp only [answerOf, if_neg hshort, if_neg hgood, if_pos hk', hr]
      exact (sendOptReply_talks hok _ _ _).bind Talks.ret
  | exportName =>
      have hr : (optAt p.inp).reply diskSize nz = toBe 8 diskSize ++ toBe 2 txFlags ++
          (if nz = true then [] else List.replicate 124 0) := by
        rw [Opt.reply, hk']
      simp only [answerOf, if_neg hshort, if_neg hgood, hk', reduceCtorEq, if_false, ← hn, hlt, hr]
      by_cases hw : n ≤ p.inp.length
      · simp only [hw, decide_true, Bool.true_eq_false, not_true_eq_false, if_false, true_or, if_true]
        refine (sendAll_talks hok _).bind ?_
        simp only [Bool.true_eq_false, if_false]
        cases nz with
        | true =>
            simp only [if_true, List.append_nil]
            exact Talks.ret
        | false =>
            simp only [Bool.false_eq_true, if_false]
            rw [← Net.put_put (p.take n) (toBe 8 diskSize ++ toBe 2 txFlags)]
            exact (sendAll_talks hok _).bind Talks.ret
      · simp only [hw, decide_false, not_false_eq_true, if_true, Net.put_nil]
        exact Talks.ret
  | list =>
      have hr : (optAt p.inp).reply diskSize nz = packet (optAt p.inp).code repServer (toBe 4 0) ++
          packet (optAt p.inp).code repAck [] := by
        rw [Opt.reply, hk']
      simp only [answerOf, if_neg hshort, if_neg hgood, hk', reduceCtorEq, if_false, ← hn, hlt, hr]
      by_cases hw : n ≤ p.inp.length
      · simp only [hw, decide_true, Bool.true_eq_false, not_true_eq_false, if_false, or_self]
        refine (sendOptReply_talks hok _ _ _).bind ?_
        rw [← Net.put_put]
        exact (sendOptReply_talks hok _ _ _).bind Talks.ret
      · simp only [hw, decide_false, not_false_eq_true, if_true, Net.put_nil]
        exact Talks.ret
  | unknown =>
      have hr : (optAt p.inp).reply diskSize nz = packet (optAt p.inp).code repErrUnsup [] := by
        rw [Opt.reply, hk']
      simp only [answerOf, if_neg hshort, if_neg hgood, hk', reduceCtorEq, if_false, ← hn, hlt, hr]
      by_cases hw : n ≤ p.inp.length
      · simp only [hw, decide_true, Bool.true_eq_false, not_true_eq_false, if_false, or_self]
        exact (sendOptReply_talks hok _ _ _).bind Talks.ret
      · simp only [hw, decide_false, not_false_eq_true, if_true, Net.put_nil]
        exact Talks.ret
  | info =>
      have hr : (optAt p.inp).reply diskSize nz = packet (optAt p.inp).code repInfo
          (toBe 2 0 ++ toBe 8 diskSize ++ toBe 2 txFlags) ++ packet (optAt p.inp).code repAck [] := by
        rw [Opt.reply, hk']
      simp only [answerOf, if_neg hshort, if_neg hgood, hk', reduceCtorEq, if_false, ← hn, hlt, hr]
      by_cases hw : n ≤ p.inp.length
      · simp only [hw, decide_true, Bool.true_eq_false, not_true_eq_false, if_false, or_self]
        refine (sendOptReply_talks hok _ _ _).bind ?_
        rw [← Net.put_put]
        exact (sendOptReply_talks hok _ _ _).bind Talks.ret
      · simp only [hw, decide_false, not_false_eq_true, if_true, Net.put_nil]
        exact Talks.ret
  | go =>
      have hr : (optAt p.inp).reply diskSize nz = packet (optAt p.inp).code repInfo
          (toBe 2 0 ++ toBe 8 diskSize ++ toBe 2 txFlags) ++ packet (optAt p.inp).code repAck [] := by
        rw [Opt.reply, hk']
      simp only [answerOf, if_neg hshort, if_neg hgood, hk', reduceCtorEq, if_false, ← hn, hlt, hr]
      by_cases hw : n ≤ p.inp.length
      · simp only [hw, decide_true, Bool.true_eq_false, not_true_eq_false, if_false, or_true, if_true]
        refine (sendOptReply_talks hok _ _ _).bind ?_
        rw [← Net.put_put]
        exact (sendOptReply_talks hok _ _ _).bind Talks.ret
      · simp only [hw, decide_false, not_false_eq_true, if_true, Net.put_nil]
        exact Talks.ret

/-- **The option loop follows the protocol.** Every round consumes at least 16 bytes, so more
rounds than bytes are enough. -/
theorem haggle_talks (heof : p.eof = true) (diskSize : ℕ) (nz : Bool) (fuel : ℕ)
    (hf : p.inp.length < fuel) :
    ∃ n, p.inp.drop n = (sessionOf p.inp).rest ∧
      Talks cfg w ch (haggle diskSize nz fuel) p (some (sessionOf p.inp).ending.starts)
        ((p.take n).put ((sessionOf p.inp).replies diskSize nz)) := by
  induction fuel generalizing p with
  | zero => omega
  | succ fuel ih =>
      have hone : Talks cfg w ch (answerOption diskSize nz) p _ _ :=
        answerOption_talks hok heof diskSize nz
      -- a round that ends the loop
      have hend : ∀ {n : ℕ} {out : List UInt8} {b : Bool},
          answerOf diskSize nz p.inp = (some b, n, out) →
          Talks cfg w ch (haggle diskSize nz (fuel + 1)) p (some b) ((p.take n).put out) := by
        intro n out b ha
        rw [ha] at hone
        exact hone.bind Talks.ret
      rw [sessionOf]
      by_cases h1 : p.inp.length < 16
      · rw [if_pos h1]
        exact ⟨16, List.drop_of_length_le h1.le, hend (by rw [answerOf, if_pos h1]; rfl)⟩
      rw [if_neg h1]
      by_cases h2 : be (p.inp.take 8) ≠ ihaveopt ∨ 65536 < optLen p.inp
      · rw [if_pos h2]
        exact ⟨16, rfl, hend (by rw [answerOf, if_neg h1, if_pos h2]; rfl)⟩
      rw [if_neg h2]
      by_cases h3 : (optAt p.inp).kind = .abort
      · rw [if_pos h3]
        exact ⟨_, rfl, hend (by rw [answerOf, if_neg h1, if_neg h2, if_pos h3]; rfl)⟩
      rw [if_neg h3]
      by_cases h4 : p.inp.length < 16 + optLen p.inp
      · rw [if_pos h4]
        exact ⟨_, List.drop_of_length_le h4.le,
          hend (by rw [answerOf, if_neg h1, if_neg h2, if_neg h3, if_pos h4]; rfl)⟩
      rw [if_neg h4]
      by_cases h5 : (optAt p.inp).kind = .exportName ∨ (optAt p.inp).kind = .go
      · rw [if_pos h5]
        exact ⟨_, rfl,
          hend (by rw [answerOf, if_neg h1, if_neg h2, if_neg h3, if_neg h4, if_pos h5]; rfl)⟩
      rw [if_neg h5]
      -- a round that answers its option and goes on
      have ha : answerOf diskSize nz p.inp =
          (none, 16 + optLen p.inp, (optAt p.inp).reply diskSize nz) := by
        rw [answerOf, if_neg h1, if_neg h2, if_neg h3, if_neg h4, if_neg h5]
      rw [ha] at hone
      have hlen : (p.inp.drop (16 + optLen p.inp)).length < fuel := by
        rw [List.length_drop]
        omega
      obtain ⟨n, hn, hrest⟩ := ih (p := (p.take (16 + optLen p.inp)).put
        ((optAt p.inp).reply diskSize nz)) heof hlen
      refine ⟨16 + optLen p.inp + n, ?_, ?_⟩
      · rw [← List.drop_drop]
        exact hn
      · have hnet : (((p.take (16 + optLen p.inp)).put ((optAt p.inp).reply diskSize nz)).take n).put
            ((sessionOf (p.inp.drop (16 + optLen p.inp))).replies diskSize nz) =
            (p.take (16 + optLen p.inp + n)).put ((optAt p.inp).reply diskSize nz ++
              (sessionOf (p.inp.drop (16 + optLen p.inp))).replies diskSize nz) := by
          rw [← Net.take_take p (16 + optLen p.inp) n, ← Net.put_put]
          rfl
        have hall := hone.bind (f := fun r => match r with
          | some b => pure (some b)
          | none => haggle diskSize nz fuel) hrest
        rw [show ((p.take (16 + optLen p.inp)).put ((optAt p.inp).reply diskSize nz)).inp =
          p.inp.drop (16 + optLen p.inp) from rfl, hnet] at hall
        simp only [Session.replies, List.flatMap_cons, List.append_assoc] at hall ⊢
        exact hall

/-- What a handshake does to the connection: `b` says whether the transmission begins. -/
structure Shook (diskSize : ℕ) (p : Net) (b : Bool) (p' : Net) : Prop where
  /-- a stream that ends within the client flags -/
  cut : p.inp.length < 4 → b = false ∧ p'.out = p.out ++ greeting
  returns : 4 ≤ p.inp.length → b = (sessionOf (p.inp.drop 4)).ending.starts
  rest : 4 ≤ p.inp.length → p'.inp = (sessionOf (p.inp.drop 4)).rest
  out : 4 ≤ p.inp.length → p'.out = p.out ++ greeting ++
    (sessionOf (p.inp.drop 4)).replies diskSize (noZeroes (p.inp.take 4))
  /-- on success the client's bytes are its flags, the options, and what is left -/
  stream : b = true → ∃ o, (sessionOf (p.inp.drop 4)).ending = .transmission o ∧
    p.inp = p.inp.take 4 ++ (sessionOf (p.inp.drop 4)).opts.flatMap Opt.bytes ++ o.bytes ++ p'.inp ∧
    client (noZeroes (p.inp.take 4)) ((sessionOf (p.inp.drop 4)).opts ++ [o])
      (p'.out.drop (p.out ++ greeting).length) = some (diskSize, txFlags)

omit hok in
theorem Ending.starts_iff {e : Ending} : e.starts = true ↔ ∃ o, e = .transmission o := by
  cases e <;> simp [Ending.starts]

/-- **Handshake correctness.** For every client stream, every way the receives and sends split
the bytes and enough rounds, `nbd_handshake` comes to its end having done what the protocol
says about the stream. What it finds in a stream is the list of options the client sent. -/
theorem nbdHandshake_correct :
    (∀ (s : State) (fuel : ℕ), (s.priv w).net.eof = true → (s.priv w).net.inp.length < fuel →
      ∃ b s' j, drive (machine cfg) w ch (nbdHandshake cfg.diskSize fuel) 0 s =
          some (some b, j, s') ∧
        Shook cfg.diskSize (s.priv w).net b (s'.priv w).net) ∧
    ∀ (opts : List Opt) (o : Opt) (rest : List UInt8),
      (∀ o ∈ opts, o.Plain ∧ o.payload.length ≤ 65536) → o.code < 2 ^ 32 →
      (o.kind = .exportName ∨ o.kind = .go) → o.payload.length ≤ 65536 →
      sessionOf (opts.flatMap Opt.bytes ++ o.bytes ++ rest) = ⟨opts, .transmission o, rest⟩ := by
  refine ⟨fun s fuel heof hf => ?_, fun opts o rest hp hc ho hl => sessionOf_options
    (fun o h => (hp o h).1) (fun o h => (hp o h).2) hc ho hl rest⟩
  generalize hp : (s.priv w).net = p at heof hf
  have hgreet : Talks cfg w ch (sendAll greeting) p true (p.put greeting) := sendAll_talks hok _
  have hflags : Talks cfg w ch (recvAll 4) (p.put greeting) _ _ :=
    recvAll_talks (p := p.put greeting) hok heof 4
  by_cases hcut : p.inp.length < 4
  · -- the stream ends in the flags
    have hall : Talks cfg w ch (nbdHandshake cfg.diskSize fuel) p (some false)
        ((p.put greeting).take 4) := by
      refine hgreet.bind (hflags.bind ?_)
      have hdec : decide (4 ≤ (p.put greeting).inp.length) = false :=
        decide_eq_false (by simpa [Net.put] using hcut)
      rw [if_pos hdec]
      exact Talks.ret
    obtain ⟨j, hj⟩ := hall s hp 0
    refine ⟨false, _, j, hj, ⟨fun _ => ⟨rfl, by simp [Net.take, Net.put]⟩, fun h => ?_, fun h => ?_,
      fun h => ?_, nofun⟩⟩ <;> omega
  · obtain ⟨n, hn, hloop⟩ := @haggle_talks cfg w ch hok ((p.put greeting).take 4) heof
      cfg.diskSize (noZeroes (p.inp.take 4)) fuel (by
        show (p.inp.drop 4).length < fuel
        rw [List.length_drop]
        omega)
    have hall : Talks cfg w ch (nbdHandshake cfg.diskSize fuel) p
        (some (sessionOf ((p.put greeting).take 4).inp).ending.starts)
        ((((p.put greeting).take 4).take n).put
          ((sessionOf ((p.put greeting).take 4).inp).replies cfg.diskSize
            (noZeroes (p.inp.take 4)))) := by
      refine hgreet.bind (hflags.bind ?_)
      have hdec : ¬ decide (4 ≤ (p.put greeting).inp.length) = false := by
        rw [decide_eq_false_iff_not]
        simpa [Net.put] using hcut
      rw [if_neg hdec]
      exact hloop
    obtain ⟨j, hj⟩ := hall s hp 0
    refine ⟨_, _, j, hj, ⟨fun h => absurd h hcut, fun _ => rfl, fun _ => ?_, fun _ => ?_, fun hb => ?_⟩⟩
    · rw [setNet_net]
      exact hn
    · rw [setNet_net]
      rfl
    · obtain ⟨o, ho⟩ := Ending.starts_iff.mp hb
      have ho' : (sessionOf (p.inp.drop 4)).ending = .transmission o := ho
      obtain ⟨hcode, hkind⟩ := sessionOf_transmission _ ho'
      refine ⟨o, ho', ?_, ?_⟩
      · have hrest : ∀ bs, ((((p.put greeting).take 4).take n).put bs).inp =
            (sessionOf (p.inp.drop 4)).rest := fun _ => hn
        rw [setNet_net, hrest, List.append_assoc, List.append_assoc, ← List.append_assoc _ o.bytes,
          ← sessionOf_stream _ ho', List.take_append_drop]
      · rw [setNet_net]
        have hout : ((((p.put greeting).take 4).take n).put
            ((sessionOf ((p.put greeting).take 4).inp).replies cfg.diskSize
              (noZeroes (p.inp.take 4)))).out.drop (p.out ++ greeting).length =
            (sessionOf (p.inp.drop 4)).replies cfg.diskSize (noZeroes (p.inp.take 4)) :=
          List.drop_left
        rw [hout, Session.replies, ho']
        exact client_replies cfg.disk_lt hcode hkind _ (sessionOf_plain _)

end Loop

/-- A client that lists the exports and then goes, served one byte at a time. -/
theorem nbdHandshake_correct_list :
    let opts : List Opt := [⟨3, []⟩]
    let o : Opt := ⟨7, [0, 0, 0, 0, 0, 0]⟩
    let s := (State.boot smallConfig).setNet 0
      ⟨toBe 4 3 ++ (opts.flatMap Opt.bytes ++ o.bytes ++ [1, 2, 3]), true, [], [], 1, false⟩
    sessionOf (opts.flatMap Opt.bytes ++ o.bytes ++ [1, 2, 3]) = ⟨opts, .transmission o, [1, 2, 3]⟩ ∧
    ∃ b s' j, drive (machine smallConfig) 0 (fun _ => ⟨false, 0, [], false⟩)
        (nbdHandshake smallConfig.diskSize 64) 0 s = some (some b, j, s') ∧
      Shook smallConfig.diskSize (s.priv 0).net b (s'.priv 0).net := by
  intro opts o s
  have h := @nbdHandshake_correct smallConfig 0 (fun _ => ⟨false, 0, [], false⟩) (fun _ => rfl)
  refine ⟨h.2 opts o [1, 2, 3] ?_ (by decide) (.inr rfl) (by decide), h.1 s 64 rfl (by decide)⟩
  intro o' ho'
  obtain rfl := List.mem_singleton.mp ho'
  exact ⟨⟨by decide, by decide, by decide, by decide⟩, by decide⟩

end NbdVram
