import NbdVram.Lib.Discipline
import NbdVram.Serve

/-!
# The plain parts of a worker

Most of what a worker does moves bytes within the host, keeps the books and talks to
its client. These parts queue no copy, ask for no slot, begin no request and accept no
client, whatever they are answered; what is said of a worker's copies and slots later
passes over them.
-/

namespace NbdVram

open Interleave Prog

variable {cfg : Config} {α : Type}

/-- The action is none of the four. -/
def Op.Plain : Op → Prop
  | .htod _ _ _ _ | .dtoh _ _ _ _ | .slotAlloc _ _ | .event (.begin _) | .accept => False
  | _ => True

/-- All actions of a program are of this kind. -/
abbrev Plain (p : Prog sig α) : Prop := Only (σ := sig) Op.Plain p

theorem slotFree_plain (g : ℕ) : Plain (slotFree g) :=
  ⟨trivial, fun _ => ⟨trivial, fun _ => ⟨trivial, fun _ => trivial⟩⟩⟩

theorem retire_plain (old clen : ℕ) : Plain (retire old clen) := by
  have hpay : Plain (do
      ctrAdd .codecBytes clen
      if clen = 4096 then ctrAdd .rawBlocks 1) :=
    Only.bind (.call trivial) fun _ => .ite (fun _ => .call trivial) fun _ => trivial
  unfold retire
  refine .ite (fun _ => ?_) fun _ => ?_
  · refine (slotFree_plain _).bind fun _ => ⟨trivial, fun _ => ?_⟩
    exact .ite (fun _ => ⟨trivial, fun _ => hpay⟩) fun _ => hpay
  · exact ⟨trivial, fun _ => hpay⟩

theorem wrPublish_plain (bo : BlkOp) : Plain (wrPublish bo) := by
  unfold wrPublish
  refine ⟨trivial, fun _ => ⟨trivial, fun _ => ⟨trivial, fun old => ⟨trivial, fun _ =>
    ⟨trivial, fun _ => ?_⟩⟩⟩⟩⟩
  exact (retire_plain _ _).bind fun _ => .call trivial

theorem wrAbort_plain (i : ℕ) (m : Mem) : Plain (wrAbort i m) := by
  unfold wrAbort
  exact .ite (fun _ => (slotFree_plain _).bind fun _ => trivial) fun _ => trivial

theorem rdPrepare_plain (i : ℕ) (m : Mem) : Plain (rdPrepare i m) := ⟨trivial, fun _ => trivial⟩

theorem rdFinish_plain (i : ℕ) (m : Mem) : Plain (rdFinish cfg i m) := by
  unfold rdFinish
  refine .ite (fun _ => trivial) fun _ => ⟨trivial, fun (cur : ℕ) => .ite (fun _ => trivial) fun _ =>
    ⟨trivial, fun (bs : List UInt8) => ?_⟩⟩
  dsimp only [Prog.bind]
  split
  · exact ⟨trivial, fun _ => trivial⟩
  · trivial

theorem syncIf_plain (q : ℕ) : Plain (syncIf q) := by
  unfold syncIf
  exact .ite (fun _ => trivial) fun _ => ⟨trivial, fun _ => trivial⟩

theorem finishOne_plain (i : ℕ) (x : Mem × ℕ) : Plain (finishOne cfg i x) := by
  unfold finishOne
  refine .ite (fun _ => (rdFinish_plain i x.1).bind fun r => ?_) fun _ => trivial
  dsimp only
  split <;> trivial

theorem publishOne_plain (i : ℕ) (m : Mem) : Plain (publishOne i m) := by
  unfold publishOne
  exact .ite (fun _ => trivial) fun _ => (wrPublish_plain _).bind fun _ => trivial

theorem announce_plain (i : ℕ) (m : Mem) : Plain (announce i m) := by
  unfold announce
  exact .ite (fun _ => ⟨trivial, fun _ => trivial⟩) fun _ => trivial

theorem blkopSets_plain (m : Mem) (i n blk : ℕ) (cmd : Cmd) (page : Ptr) (req : ℕ) :
    Plain (blkopSets m i n blk cmd page req) :=
  ⟨trivial, fun _ => ⟨trivial, fun _ => trivial⟩⟩

theorem trimOne_plain (b : ℕ) : Plain (trimOne b) := by
  have hend : Plain (event .leave) := .call trivial
  unfold trimOne
  refine ⟨trivial, fun e => .ite (fun _ => trivial) fun _ => ⟨trivial, fun _ => ⟨trivial, fun _ =>
    ⟨trivial, fun old => ?_⟩⟩⟩⟩
  have hrest : Plain (do
      unlock (stripe b)
      if entClen old ≠ 0 then
        slotFree (entGrain old)
        ctrSub .codecBytes (entClen old)
        if entClen old = 4096 then ctrSub .rawBlocks 1
        ctrSub .blocksLive 1
        ctrAdd .trimBlocks 1
      event .leave) := by
    refine ⟨trivial, fun _ => .ite (fun _ => (slotFree_plain _).bind fun _ => ⟨trivial, fun _ => ?_⟩)
      fun _ => hend⟩
    exact .ite (fun _ => ⟨trivial, fun _ => ⟨trivial, fun _ => ⟨trivial, fun _ => hend⟩⟩⟩)
      fun _ => ⟨trivial, fun _ => ⟨trivial, fun _ => hend⟩⟩
  exact .ite (fun _ => ⟨trivial, fun _ => hrest⟩) fun _ => hrest

theorem trimRange_plain (off len : ℕ) : Plain (trimRange cfg off len) :=
  Only.forRange (fun _ _ => trimOne_plain _) _ _

theorem recvLoop_plain (fuel n : ℕ) (acc : List UInt8) : Plain (recvLoop fuel n acc) := by
  induction fuel generalizing n acc with
  | zero => exact trivial
  | succ fuel ih =>
      unfold recvLoop
      refine .ite (fun _ => trivial) fun _ => ⟨trivial, fun (r : Option (List UInt8)) => ?_⟩
      cases r with
      | none => trivial
      | some bs => exact ih _ _

theorem recvAll_plain (n : ℕ) : Plain (recvAll n) := recvLoop_plain n n []

theorem sendLoop_plain (fuel : ℕ) (bs : List UInt8) : Plain (sendLoop fuel bs) := by
  induction fuel generalizing bs with
  | zero => exact trivial
  | succ fuel ih =>
      unfold sendLoop
      refine .ite (fun _ => trivial) fun _ => ⟨trivial, fun (r : Option ℕ) => ?_⟩
      cases r with
      | none => trivial
      | some k => exact ih _

theorem sendAll_plain (bs : List UInt8) : Plain (sendAll bs) := sendLoop_plain _ bs

theorem recvHdrNb_plain : Plain recvHdrNb := by
  unfold recvHdrNb
  refine ⟨trivial, fun (r : Nb) => ?_⟩
  cases r with
  | closed | empty => trivial
  | some bs =>
      exact .ite (fun _ => trivial) fun _ => (recvAll_plain _).bind fun _ =>
        .ite (fun _ => trivial) fun _ => trivial

theorem oobAccess_plain (h : Hdr) : Plain (oobAccess cfg h) := by
  unfold oobAccess
  exact .ite (fun _ => .call trivial) fun _ => trivial

theorem nextWindow_plain (voff remaining : ℕ) : Plain (nextWindow voff remaining) := by
  unfold nextWindow endAccess
  exact Only.bind (.ite (fun _ => .call trivial) fun _ => trivial) fun _ =>
    ⟨trivial, fun _ => ⟨trivial, fun _ => trivial⟩⟩

theorem countOne_plain (h : Hdr) : Plain (countOne cfg h) := by
  unfold countOne
  exact .ite (fun _ => .call trivial) fun _ => trivial

theorem countBatch_plain (b : Batch) : Plain (countBatch cfg b) := by
  unfold countBatch
  exact .ite (fun _ => ⟨trivial, fun _ => ⟨trivial, fun _ => ⟨trivial, fun _ =>
    .ite (fun _ => ⟨trivial, fun _ => .call trivial⟩) fun _ => trivial⟩⟩⟩) fun _ => trivial

theorem abortOne_plain (i : ℕ) (m : Mem) : Plain (abortOne i m) := by
  unfold abortOne
  exact .ite (fun _ => wrAbort_plain i m) fun _ => trivial

theorem replyOne_plain (m : Mem) (i : ℕ) (alive : Bool) : Plain (replyOne m i alive) := by
  unfold replyOne
  refine .ite (fun _ => trivial) fun _ => ⟨trivial, fun _ => ⟨trivial, fun _ =>
    (sendAll_plain _).bind fun ok => .ite (fun _ => trivial) fun _ => ?_⟩⟩
  exact .ite (fun _ => ⟨trivial, fun _ => ⟨trivial, fun _ => sendAll_plain _⟩⟩) fun _ => trivial

end NbdVram
