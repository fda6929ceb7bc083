import NbdVram.Lib.Meter
import NbdVram.Plain
import NbdVram.Safety

/-!
# What a request costs

A READ that loses its race against a writer is tried again, but not forever:
`do_blocks` makes four rounds, and what is still contested after them is fetched once
under the stripe lock. So a request has a price in copies over the bus that holds
whatever the other workers do: six for a block read, one for a block written, and
one more for a block that is written in part. The proof charges every copy to the
request that its worker has begun.
-/

namespace NbdVram

open Interleave Prog Finset

variable {cfg : Config} {α β : Type}

/-- The copies that an action queues. -/
def Op.copies : Op → ℕ
  | .htod _ _ _ _ | .dtoh _ _ _ _ => 1
  | _ => 0

/-- The blocks of `n` bytes from `off` on that are covered in part. -/
def partials (off n : ℕ) : ℕ :=
  (if off % 4096 = 0 then 0 else 1) +
    if (off + n) % 4096 = 0 ∨ off % 4096 ≠ 0 ∧ (off + n) / 4096 = off / 4096 then 0 else 1

/-- The copies that a request may take: none if it is refused or empty. -/
def Req.copies (cfg : Config) (r : Req) : ℕ :=
  if r.Oob cfg ∨ r.len = 0 then 0
  else
    let blocks := (r.off + r.len + 4095) / 4096 - r.off / 4096
    match r.cmd with
    | .read => 6 * blocks
    | .write => blocks + partials r.off r.len
    | _ => 0

/-- Every copy is paid for, and to begin requests opens an account with their price. No client is
accepted on the way. -/
def copying (cfg : Config) : Meter sig where
  cost := Op.copies
  grant o := match (o : Op) with
    | .event (.begin reqs) => some (reqs.map (Req.copies cfg)).sum
    | _ => none
  may o := o ≠ Op.accept

theorem Op.Plain.free {o : Op} (h : o.Plain) : (copying cfg).Free o := by
  cases o with
  | htod _ _ _ _ | dtoh _ _ _ _ | slotAlloc _ _ | accept => exact h.elim
  | event e =>
      cases e with
      | begin reqs => exact h.elim
      | _ => exact ⟨nofun, rfl, rfl⟩
  | _ => exact ⟨nofun, rfl, rfl⟩

theorem Plain.free {p : Prog sig α} (h : Plain p) : Only (copying cfg).Free p :=
  h.mono fun _ => Op.Plain.free

/-- A plain program first. -/
theorem seq_plain {p : Prog sig α} {f : α → Prog sig β} {n : ℕ} {Q : β → Prop} (h : Plain p)
    (hf : ∀ a, Spends (copying cfg) (f a) n Q) : Spends (copying cfg) (p >>= f) n Q :=
  Spends.seq_free h.free hf

/-- A copy first. -/
theorem seq_copy {o : Op} {f : o.Res → Prog sig β} {n : ℕ} {Q : β → Prop} (ho : o.copies = 1)
    (hf : ∀ a, Spends (copying cfg) (f a) n Q) :
    Spends (copying cfg) (call (σ := sig) o >>= f) (1 + n) Q := by
  have hmay : (copying cfg).may o := by
    rintro rfl
    cases ho
  have hno : (copying cfg).grant o = none := by
    cases o with
    | event e => cases ho
    | _ => rfl
  have h := Spends.call hmay hno hf
  rwa [show (copying cfg).cost o = 1 from ho] at h

theorem slotAlloc_free (tag : Tag) (n : ℕ) : Only (copying cfg).Free (slotAlloc tag n) :=
  ⟨Op.Plain.free trivial, fun _ => ⟨⟨nofun, rfl, rfl⟩, fun _ => ⟨Op.Plain.free trivial,
    fun _ => trivial⟩⟩⟩

/-! ## Block operations -/

/-- Every op has kept its command. -/
def Mem.Kept (m m' : Mem) : Prop := ∀ j, (m'.ops j).cmd = (m.ops j).cmd

theorem Mem.Kept.refl (m : Mem) : m.Kept m := fun _ => rfl

theorem Mem.Kept.trans {m m' m'' : Mem} (h : m.Kept m') (h' : m'.Kept m'') : m.Kept m'' :=
  fun j => (h' j).trans (h j)

theorem Mem.Kept.setOp {m m' : Mem} {i : ℕ} {bo : BlkOp} (h : m.Kept m')
    (hc : bo.cmd = (m'.ops i).cmd) : m.Kept (m'.setOp i bo) := by
  intro j
  simp only [Mem.setOp, Function.update_apply]
  split
  · rw [hc, ‹j = i›]
    exact h i
  · exact h j

/-- The copies of an op of `do_blocks`: the first, four more after lost races, and one under the
lock. -/
def Cmd.price (c : Cmd) : ℕ := if c = .read then 6 else 1

/-- What a round of retries may cost. -/
def Cmd.again (c : Cmd) : ℕ := if c = .read then 1 else 0

theorem Cmd.price_eq (c : Cmd) : c.price = 1 + 5 * c.again := by
  unfold Cmd.price Cmd.again
  split <;> rfl

/-- The price of the first `n` ops. -/
def Mem.price (m : Mem) (n : ℕ) : ℕ := ∑ i ∈ range n, (m.ops i).cmd.price

theorem Mem.Kept.price {m m' : Mem} (h : m.Kept m') (n : ℕ) : m'.price n = m.price n :=
  sum_congr rfl fun i _ => by rw [h i]

theorem rdPrepare_spends (i : ℕ) (m : Mem) : Spends (copying cfg) (rdPrepare i m) 0 m.Kept :=
  seq_plain (Only.call trivial) fun _ => .ret ((Mem.Kept.refl m).setOp rfl)

theorem wrPrepare_spends (i : ℕ) (m : Mem) : Spends (copying cfg) (wrPrepare cfg i m) 0 m.Kept := by
  unfold wrPrepare
  refine seq_plain (Only.call trivial) fun _ => Spends.seq_free (slotAlloc_free _ _) fun grain => ?_
  split
  · exact seq_plain (Only.call trivial) fun _ => .ret ((Mem.Kept.refl m).setOp rfl)
  · exact .ret ((Mem.Kept.refl m).setOp rfl)

theorem rdFinish_spends (i : ℕ) (m : Mem) :
    Spends (copying cfg) (rdFinish cfg i m) 0 fun r => m.Kept r.2 := by
  unfold rdFinish
  dsimp only
  split
  · exact .ret fun _ => rfl
  refine seq_plain (Only.call trivial) fun cur => ?_
  split
  · exact .ret (.refl m)
  refine seq_plain (Only.call trivial) fun bs => ?_
  split
  · exact seq_plain (Only.call trivial) fun _ => .ret (.refl m)
  · exact .ret fun _ => rfl

theorem fetchLocked_spends (tag : Tag) (ent : ℕ) (dst : Ptr) (m : Mem) :
    Spends (copying cfg) (fetchLocked cfg tag ent dst m) 1 fun r => m.Kept r.2 := by
  unfold fetchLocked
  split
  · exact .ret fun _ => rfl
  refine seq_copy (n := 0) rfl fun r => ?_
  split
  · exact .ret (.refl m)
  refine seq_plain (Only.call trivial) fun _ => seq_plain (Only.call trivial) fun bs => ?_
  split
  · exact seq_plain (Only.call trivial) fun _ => .ret (.refl m)
  · exact .ret fun _ => rfl

theorem rdBlockLocked_spends (tag : Tag) (page : Ptr) (m : Mem) :
    Spends (copying cfg) (rdBlockLocked cfg tag page m) 1 fun r => m.Kept r.2 := by
  unfold rdBlockLocked
  refine seq_plain (Only.call trivial) fun _ => seq_plain (Only.call trivial) fun ent => ?_
  exact (fetchLocked_spends _ _ _ m).bind (k := 0) fun r hr =>
    seq_plain (Only.call trivial) fun _ => .ret hr

theorem issue_spends {m : Mem} (i : ℕ) {x : Mem × ℕ} (hx : m.Kept x.1) :
    Spends (copying cfg) (issue i x) 1 fun y => m.Kept y.1 := by
  unfold issue
  dsimp only
  split
  · exact .ret hx
  have hend : ∀ r : Bool, Spends (copying cfg) (if r = false then
      pure (x.1.setOp i { x.1.ops i with err := .eio, dma := .none }, x.2)
      else pure (x.1, x.2 + 1)) 0 fun y => m.Kept y.1 := by
    intro r
    split
    · exact .ret (hx.setOp rfl)
    · exact .ret hx
  split
  · exact seq_copy (n := 0) rfl hend
  · exact seq_copy (n := 0) rfl hend

theorem finishOne_spends {m : Mem} (i : ℕ) {x : Mem × ℕ} (hx : m.Kept x.1) :
    Spends (copying cfg) (finishOne cfg i x) 0 fun y => m.Kept y.1 := by
  unfold finishOne
  split
  · refine (rdFinish_spends i x.1).bind (k := 0) fun r hr => ?_
    dsimp only
    split
    · exact .ret ((hx.trans hr).setOp rfl)
    · exact .ret ((hx.trans hr).setOp rfl)
    · exact .ret (hx.trans hr)
  · exact .ret hx

/-- Only a READ is tried again. -/
theorem reissue_spends {m : Mem} (i : ℕ) {x : Mem × ℕ} (hx : m.Kept x.1) :
    Spends (copying cfg) (reissue i x) (m.ops i).cmd.again fun y => m.Kept y.1 := by
  unfold reissue
  split
  · rename_i hopen
    have hread : (m.ops i).cmd = .read := (hx i).symm.trans hopen.1
    rw [Cmd.again, if_pos hread]
    refine (rdPrepare_spends i x.1).bind (n := 0) (k := 1) fun m' hm' => ?_
    dsimp only
    split
    · exact .ret (hx.trans hm')
    refine seq_copy (n := 0) rfl fun r => ?_
    split
    · exact .ret ((hx.trans hm').setOp rfl)
    · exact .ret (hx.trans hm')
  · exact .ret hx

theorem rounds_spends {m : Mem} (n k : ℕ) {m' : Mem} (hm : m.Kept m') :
    Spends (copying cfg) (rounds cfg n k m') (k * ∑ i ∈ range n, (m.ops i).cmd.again) m.Kept := by
  induction k generalizing m' with
  | zero => exact .ret hm
  | succ k ih =>
      unfold rounds
      have hfin : Spends (copying cfg) (forRange n (finishOne cfg) (m', 0)) _ fun x => m.Kept x.1 :=
        Spends.forRange (fun _ (x : Mem × ℕ) => m.Kept x.1) (fun _ => 0)
          (fun j x _ hx => finishOne_spends j hx) hm
      have hre : ∀ x : Mem × ℕ, m.Kept x.1 → Spends (copying cfg) (forRange n reissue (x.1, 0)) _
          fun y => m.Kept y.1 := fun x hx =>
        Spends.forRange (m := copying cfg) (fun _ (x : Mem × ℕ) => m.Kept x.1) _
          (fun j x _ hx => reissue_spends j hx) hx
      have hall := hfin.bind (k := ∑ i ∈ range n, (m.ops i).cmd.again +
          k * ∑ i ∈ range n, (m.ops i).cmd.again) (f := fun x => if x.2 = 0 then pure x.1 else do
            ctrAdd .readRetry x.2
            let y ← forRange n reissue (x.1, 0)
            syncIf y.2
            rounds cfg n k y.1) (Q := m.Kept) fun x hx => by
        split
        · exact .ret hx
        refine seq_plain (Only.call trivial) fun _ => (hre x hx).bind fun y hy => ?_
        exact seq_plain (syncIf_plain _) fun _ => ih hy
      refine hall.mono (le_of_eq ?_) fun _ h => h
      rw [sum_const_zero, Nat.zero_add, Nat.succ_mul, Nat.add_comm]

theorem lockedOne_spends {m : Mem} (i : ℕ) {m' : Mem} (hm : m.Kept m') :
    Spends (copying cfg) (lockedOne cfg i m') (m.ops i).cmd.again m.Kept := by
  unfold lockedOne
  split
  · rename_i hopen
    have hread : (m.ops i).cmd = .read := (hm i).symm.trans hopen.1
    rw [Cmd.again, if_pos hread]
    refine (rdBlockLocked_spends _ _ m').bind (k := 0) fun r hr => ?_
    exact .ret ((hm.trans hr).setOp rfl)
  · exact .ret hm

theorem publishOne_spends {m : Mem} (i : ℕ) {m' : Mem} (hm : m.Kept m') :
    Spends (copying cfg) (publishOne i m') 0 m.Kept := by
  unfold publishOne
  dsimp only
  split
  · exact .ret hm
  · exact seq_plain (wrPublish_plain _) fun _ => .ret hm

theorem announce_spends {m : Mem} (i : ℕ) {m' : Mem} (hm : m.Kept m') :
    Spends (copying cfg) (announce i m') 0 m.Kept := by
  unfold announce
  dsimp only
  split
  · exact seq_plain (Only.call trivial) fun _ => .ret hm
  · exact .ret hm

/-- **`do_blocks`**: one copy for a WRITE op, at most six for a READ op. -/
theorem doBlocks_spends (n : ℕ) (m : Mem) :
    Spends (copying cfg) (doBlocks cfg n m) (m.price n) m.Kept := by
  have hissue : Spends (copying cfg) (forRange n issue (m, 0)) _ fun x => m.Kept x.1 :=
    Spends.forRange (fun _ (x : Mem × ℕ) => m.Kept x.1) (fun _ => 1)
      (fun j x _ hx => issue_spends j hx) (.refl m)
  have hlocked : ∀ m', m.Kept m' → Spends (copying cfg) (forRange n (lockedOne cfg) m') _ m.Kept :=
    fun m' hm => Spends.forRange (fun _ => m.Kept) _ (fun j m' _ hm => lockedOne_spends j hm) hm
  have hpublish : ∀ m', m.Kept m' → Spends (copying cfg) (forRange n publishOne m') _ m.Kept :=
    fun m' hm => Spends.forRange (fun _ => m.Kept) (fun _ => 0)
      (fun j m' _ hm => publishOne_spends j hm) hm
  have hannounce : ∀ m', m.Kept m' → Spends (copying cfg) (forRange n announce m') _ m.Kept :=
    fun m' hm => Spends.forRange (fun _ => m.Kept) (fun _ => 0)
      (fun j m' _ hm => announce_spends j hm) hm
  have hall : Spends (copying cfg) (doBlocks cfg n m) _ m.Kept :=
    seq_plain (Only.call trivial) fun _ => hissue.bind fun x hx => seq_plain (syncIf_plain x.2) fun _ =>
      (rounds_spends n 4 hx).bind fun m₁ h₁ => (hlocked m₁ h₁).bind fun m₂ h₂ =>
        (hpublish m₂ h₂).bind fun m₃ h₃ => hannounce m₃ h₃
  refine hall.mono (le_of_eq ?_) fun _ h => h
  rw [Mem.price, sum_congr rfl fun i _ => Cmd.price_eq _, sum_add_distrib, ← mul_sum, sum_const_zero]
  omega

/-! ## Byte ranges -/

/-- The op set of a window has one price. -/
theorem price_setOps {m : Mem} {n blk req : ℕ} {cmd : Cmd} {page : Ptr} :
    (m.setOps 0 n blk cmd page req).price n = n * cmd.price := by
  have hop : ∀ i ∈ range n, ((m.setOps 0 n blk cmd page req).ops i).cmd.price = cmd.price := by
    intro i hi
    rw [setOps_ops (mem_range.mp hi)]
    rfl
  rw [Mem.price, sum_congr rfl hop, sum_const, card_range, smul_eq_mul]

theorem blkopSets_spends (m : Mem) (i n blk : ℕ) (cmd : Cmd) (page : Ptr) (req : ℕ) :
    Spends (copying cfg) (blkopSets m i n blk cmd page req) 0
      fun m' => m' = m.setOps i n blk cmd page req :=
  seq_plain (Only.call trivial) fun _ => seq_plain (Only.call trivial) fun _ => .ret rfl

/-- A loop of free rounds. -/
theorem loop_spends {body : ℕ → Mem → Prog sig Mem}
    (hbody : ∀ i m, Spends (copying cfg) (body i m) 0 m.Kept) (n : ℕ) (m : Mem) :
    Spends (copying cfg) (forRange n body m) 0 m.Kept := by
  refine (Spends.forRange (fun _ => m.Kept) (fun _ => 0) (fun j m' _ hm => ?_) (.refl m)).mono
    (le_of_eq sum_const_zero) fun _ h => h
  exact (hbody j m').mono le_rfl fun _ h => hm.trans h

/-- A window: its ops are set, prepared, and carried out. -/
theorem window_spends {body : ℕ → Mem → Prog sig Mem}
    (hbody : ∀ i m, Spends (copying cfg) (body i m) 0 m.Kept) (m : Mem) (n blk : ℕ) (cmd : Cmd)
    (page : Ptr) : Spends (copying cfg) (do
      let m ← blkopSets m 0 n blk cmd page 0
      let m ← forRange n body m
      doBlocks cfg n m) (n * cmd.price) fun _ => True := by
  have hall := (blkopSets_spends m 0 n blk cmd page 0).bind fun m₁ h₁ =>
    (loop_spends hbody n m₁).bind fun m₂ h₂ => (doBlocks_spends n m₂).mono (k := n * cmd.price)
      (le_of_eq (by rw [h₂.price, h₁, price_setOps])) fun _ _ => trivial
  rwa [Nat.zero_add, Nat.zero_add] at hall

theorem window_le (n : ℕ) : cfg.window n ≤ n := by
  unfold Config.window
  split <;> omega

theorem loadLoop_spends (fuel blk : ℕ) (dst : Ptr) (n : ℕ) (m : Mem) :
    Spends (copying cfg) (loadLoop cfg fuel blk dst n m) (6 * n) fun _ => True := by
  induction fuel generalizing blk dst n m with
  | zero => exact .ret trivial
  | succ fuel ih =>
      unfold loadLoop
      split
      · exact .ret trivial
      have hall := (window_spends rdPrepare_spends m (cfg.window n) blk .read dst).bind
        (f := fun m => if ∃ i < cfg.window n, (m.ops i).err ≠ .ok then pure (.eio, m)
          else loadLoop cfg fuel (blk + cfg.window n) (dst.add (cfg.window n * 4096))
            (n - cfg.window n) m) (k := 6 * (n - cfg.window n)) (Q := fun _ => True) fun m' _ => by
        split
        · exact .ret trivial
        · exact ih _ _ _ _
      have hle : cfg.window n ≤ n := window_le n
      have hcost : cfg.window n * Cmd.price .read + 6 * (n - cfg.window n) = 6 * n := by
        rw [show Cmd.price .read = 6 from rfl]
        omega
      rw [hcost] at hall
      simp only [bind_assoc] at hall ⊢
      exact hall

theorem storeLoop_spends (fuel blk : ℕ) (src : Ptr) (n : ℕ) (err : Err) (m : Mem) :
    Spends (copying cfg) (storeLoop cfg fuel blk src n err m) n fun _ => True := by
  induction fuel generalizing blk src n err m with
  | zero => exact .ret trivial
  | succ fuel ih =>
      unfold storeLoop
      split
      · exact .ret trivial
      have hall := (window_spends wrPrepare_spends m (cfg.window n) blk .write src).bind
        (f := fun m => storeLoop cfg fuel (blk + cfg.window n) (src.add (cfg.window n * 4096))
            (n - cfg.window n) (m.mergeErr (cfg.window n) err) m) (k := n - cfg.window n)
        (Q := fun _ => True) fun m' _ => ih _ _ _ _ _
      have hle : cfg.window n ≤ n := window_le n
      have hcost : cfg.window n * Cmd.price .write + (n - cfg.window n) = n := by
        rw [show Cmd.price .write = 1 from rfl]
        omega
      rw [hcost] at hall
      simp only [bind_assoc] at hall ⊢
      exact hall

theorem loadPart_spends (blk boff : ℕ) (dst : Ptr) (cnt : ℕ) (m : Mem) :
    Spends (copying cfg) (loadPart cfg blk boff dst cnt m) 6 fun _ => True := by
  unfold loadPart
  refine (loadLoop_spends _ _ _ 1 m).bind (k := 0) fun r _ => ?_
  split
  · exact .ret trivial
  · exact seq_plain (Only.call trivial) fun _ => seq_plain (Only.call trivial) fun _ => .ret trivial

/-- **`load_range`**: six copies for each block it touches. -/
theorem loadRange_spends {off n : ℕ} (hn : 0 < n) (dst : Ptr) (m : Mem) :
    Spends (copying cfg) (loadRange cfg off dst n m)
      (6 * ((off + n + 4095) / 4096 - off / 4096)) fun _ => True := by
  obtain ⟨hle, hal⟩ := headLen_spec off n
  have hhead : Spends (copying cfg) (loadHead cfg off dst n m)
      (6 * ((off + headLen off n + 4095) / 4096 - off / 4096)) fun _ => True := by
    unfold loadHead
    split
    · exact .ret trivial
    · refine (loadPart_spends _ _ _ _ m).mono ?_ fun _ h => h
      rw [headLen_of_ne ‹_›]
      omega
  have hbody : ∀ off dst n m, Spends (copying cfg) (loadBody cfg off dst n m) (6 * (n / 4096))
      fun _ => True := by
    intro off dst n m
    unfold loadBody
    split
    · exact seq_plain (Only.call trivial) fun _ => loadLoop_spends _ _ _ _ _
    · exact .ret trivial
  have htail : ∀ (off : ℕ) (dst : Ptr) (k : ℕ) (m : Mem), Spends (copying cfg)
      (if k % 4096 = 0 then pure (Err.ok, m)
        else loadPart cfg ((off + k / 4096 * 4096) / 4096) 0 (dst.add (k / 4096 * 4096)) (k % 4096) m)
      (6 * if k % 4096 = 0 then 0 else 1) fun _ => True := by
    intro off dst k m
    split
    · exact .ret trivial
    · exact loadPart_spends _ _ _ _ m
  have hall : Spends (copying cfg) (loadRange cfg off dst n m)
      (6 * ((off + headLen off n + 4095) / 4096 - off / 4096) + (6 * ((n - headLen off n) / 4096) +
        6 * if (n - headLen off n) % 4096 = 0 then 0 else 1)) fun _ => True := by
    unfold loadRange
    refine hhead.bind fun head _ => ?_
    split
    · exact .ret trivial
    refine seq_plain (Only.call trivial) fun _ => (hbody _ _ _ _).bind fun mid _ => ?_
    split
    · exact .ret trivial
    · exact htail _ _ _ _
  refine hall.mono ?_ fun _ h => h
  generalize headLen off n = cnt at hle hal
  split <;> omega

theorem rmwBlock_spends (blk boff : ℕ) (src : Ptr) (cnt : ℕ) (m : Mem) :
    Spends (copying cfg) (rmwBlock cfg blk boff src cnt m) 2 fun _ => True := by
  unfold rmwBlock
  refine seq_plain (Only.call trivial) fun _ => seq_plain (Only.call trivial) fun _ => ?_
  refine seq_plain (Only.call trivial) fun old => ?_
  refine (fetchLocked_spends _ _ _ m).bind (k := 1) fun r _ => ?_
  have hend : ∀ r : Err × Mem, Spends (copying cfg) (do
      unlock (stripe blk)
      event .leave
      pure r) 0 fun _ => True := fun r =>
    seq_plain (Only.call trivial) fun _ => seq_plain (Only.call trivial) fun _ => .ret trivial
  split
  · exact (hend _).mono (Nat.zero_le 1) fun _ h => h
  refine seq_plain (Only.call trivial) fun _ => seq_plain (Only.call trivial) fun _ => ?_
  refine Spends.bind (P := fun _ => True) (n := 1) (k := 0) ?_ fun err _ => hend (err, _)
  unfold rmwStore
  refine seq_plain (Only.call trivial) fun _ => Spends.seq_free (slotAlloc_free _ _) fun grain => ?_
  split
  · exact seq_plain (Only.call trivial) fun _ => .ret trivial
  refine seq_copy (n := 0) rfl fun ok => ?_
  split
  · exact seq_plain (slotFree_plain grain) fun _ => .ret trivial
  · exact seq_plain (Only.call trivial) fun _ => seq_plain (Only.call trivial) fun _ =>
      seq_plain (retire_plain _ _) fun _ => .ret trivial

/-- **`store_range`**: one copy for each block it touches, and one more for each it covers in part. -/
theorem storeRange_spends {off n : ℕ} (hn : 0 < n) (src : Ptr) (m : Mem) :
    Spends (copying cfg) (storeRange cfg off src n m)
      ((off + n + 4095) / 4096 - off / 4096 + partials off n) fun _ => True := by
  obtain ⟨hle, hal⟩ := headLen_spec off n
  have hhead : Spends (copying cfg) (storeHead cfg off src n m) (if off % 4096 = 0 then 0 else 2)
      fun _ => True := by
    unfold storeHead
    split
    · exact .ret trivial
    · exact rmwBlock_spends _ _ _ _ m
  have hbody : ∀ off src n m, Spends (copying cfg) (storeBody cfg off src n m) (n / 4096)
      fun _ => True := by
    intro off src n m
    unfold storeBody
    split
    · exact seq_plain (Only.call trivial) fun _ => storeLoop_spends _ _ _ _ _ _
    · exact .ret trivial
  have htail : ∀ (off : ℕ) (src : Ptr) (k : ℕ) (err : Err) (m : Mem), Spends (copying cfg)
      (if k % 4096 = 0 then pure (err, m) else do
        let tail ← rmwBlock cfg ((off + k / 4096 * 4096) / 4096) 0 (src.add (k / 4096 * 4096))
          (k % 4096) m
        pure (err.merge tail.1, tail.2)) (if k % 4096 = 0 then 0 else 2) fun _ => True := by
    intro off src k err m
    split
    · exact .ret trivial
    · exact (rmwBlock_spends _ _ _ _ m).bind (k := 0) fun _ _ => .ret trivial
  have hall : Spends (copying cfg) (storeRange cfg off src n m)
      ((if off % 4096 = 0 then 0 else 2) + ((n - headLen off n) / 4096 +
        if (n - headLen off n) % 4096 = 0 then 0 else 2)) fun _ => True := by
    unfold storeRange
    refine hhead.bind fun head _ => seq_plain (Only.call trivial) fun _ => ?_
    exact (hbody _ _ _ _).bind fun mid _ => htail _ _ _ _ _
  refine hall.mono ?_ fun _ h => h
  unfold partials
  by_cases h0 : off % 4096 = 0
  · have hzero : headLen off n = 0 := if_pos h0
    rw [hzero]
    split_ifs <;> omega
  · rw [headLen_of_ne h0]
    split_ifs <;> omega

/-! ## The per-request path -/

/-- The copies of a READ. -/
def readCost (off n : ℕ) : ℕ := if n = 0 then 0 else 6 * ((off + n + 4095) / 4096 - off / 4096)

/-- The copies of a WRITE. -/
def writeCost (off n : ℕ) : ℕ :=
  if n = 0 then 0 else (off + n + 4095) / 4096 - off / 4096 + partials off n

/-- A window that ends at a block boundary shares no block with the rest. -/
theorem readCost_split {off n k : ℕ} (hk : 0 < k) (hle : k ≤ n) (hal : k = n ∨ 4096 ∣ off + k) :
    readCost off k + readCost (off + k) (n - k) = readCost off n := by
  unfold readCost
  rw [if_neg (by omega), if_neg (show ¬ n = 0 by omega)]
  split <;> omega

theorem writeCost_split {off n k : ℕ} (hk : 0 < k) (hle : k ≤ n) (hal : k = n ∨ 4096 ∣ off + k) :
    writeCost off k + writeCost (off + k) (n - k) = writeCost off n := by
  unfold writeCost
  rw [if_neg (show ¬ k = 0 by omega), if_neg (show ¬ n = 0 by omega)]
  by_cases hn : k = n
  · rw [if_pos (by omega), hn, Nat.add_zero]
  · have hdvd := hal.resolve_left hn
    rw [if_neg (by omega)]
    have hend : off + k + (n - k) = off + n := by omega
    have hpart : partials off k + partials (off + k) (n - k) = partials off n := by
      unfold partials
      rw [hend]
      split_ifs <;> omega
    rw [hend]
    omega

theorem Req.copies_read {r : Req} (hc : r.cmd = .read) (ho : ¬ r.Oob cfg) :
    r.copies cfg = readCost r.off r.len := by
  unfold Req.copies readCost
  by_cases hz : r.len = 0
  · rw [if_pos (.inr hz), if_pos hz]
  · rw [if_neg (not_or.mpr ⟨ho, hz⟩), if_neg hz, hc]

theorem Req.copies_write {r : Req} (hc : r.cmd = .write) (ho : ¬ r.Oob cfg) :
    r.copies cfg = writeCost r.off r.len := by
  unfold Req.copies writeCost
  by_cases hz : r.len = 0
  · rw [if_pos (.inr hz), if_pos hz]
  · rw [if_neg (not_or.mpr ⟨ho, hz⟩), if_neg hz, hc]

theorem nextWindow_spends (voff remaining : ℕ) :
    Spends (copying cfg) (nextWindow voff remaining) 0 fun chunk => chunk = nextChunk voff remaining := by
  have hend : Plain (endAccess voff remaining) := .ite (fun _ => .call trivial) fun _ => trivial
  unfold nextWindow
  exact seq_plain hend fun _ => seq_plain (Only.call trivial) fun _ =>
    seq_plain (Only.call trivial) fun _ => .ret rfl

/-- The windows of a WRITE. Once there is an error nothing is stored. -/
theorem writeLoop_spends {fuel voff remaining c : ℕ} {x : Written}
    (hc : x.error = .ok → voff + remaining < 2 ^ 64 ∧ writeCost voff remaining ≤ c) :
    Spends (copying cfg) (writeLoop cfg fuel voff remaining x) c fun _ => True := by
  induction fuel generalizing voff remaining x c with
  | zero => exact .ret trivial
  | succ fuel ih =>
      unfold writeLoop
      split
      · exact .ret trivial
      rename_i hz
      have hrest : ∀ chunk, chunk = nextChunk voff remaining → Spends (copying cfg) (do
          let r ← recvAll chunk
          let m := x.mem.write ⟨.iobuf, 0⟩ r.2
          if r.1 = false then pure ⟨false, x.error, x.data ++ r.2, m⟩
          else
            let y ← if x.error = .ok then storeRange cfg voff ⟨.iobuf, 0⟩ chunk m else pure (.ok, m)
            writeLoop cfg fuel ((voff + chunk) % 2 ^ 64) (remaining - chunk)
              ⟨true, x.error.merge y.1, x.data ++ r.2, y.2⟩) c fun _ => True := by
        rintro chunk rfl
        refine seq_plain (recvAll_plain _) fun r => ?_
        dsimp only
        split
        · exact .ret trivial
        split
        · rename_i hok
          obtain ⟨hlt, hle⟩ := hc hok
          obtain ⟨hpos, hk, -, hal⟩ := nextChunk_spec (show voff < 2 ^ 64 by omega)
            (Nat.pos_of_ne_zero hz)
          specialize hal hlt
          generalize nextChunk voff remaining = chunk at hpos hk hal ⊢
          have hsplit := writeCost_split hpos hk hal
          have hfirst : writeCost voff chunk =
              (voff + chunk + 4095) / 4096 - voff / 4096 + partials voff chunk := if_neg hpos.ne'
          refine ((storeRange_spends hpos _ _).bind (k := c - writeCost voff chunk) fun y _ =>
            ih fun _ => ?_).mono ?_ fun _ h => h
          · rw [Nat.mod_eq_of_lt (by omega)]
            exact ⟨by omega, by omega⟩
          · omega
        · rename_i hbad
          exact ih fun hok => absurd (Err.merge_ok.mp (show x.error.merge .ok = .ok from hok)).1 hbad
      have hall := (nextWindow_spends voff remaining).bind hrest
      rwa [Nat.zero_add] at hall

/-- The windows of a READ. -/
theorem readLoop_spends (r : Req) {fuel voff remaining : ℕ} (m : Mem)
    (hlt : voff + remaining < 2 ^ 64) :
    Spends (copying cfg) (readLoop cfg r fuel voff remaining m) (readCost voff remaining)
      fun _ => True := by
  induction fuel generalizing voff remaining m with
  | zero => exact .ret trivial
  | succ fuel ih =>
      unfold readLoop
      split
      · exact .ret trivial
      rename_i hz
      have hrest : ∀ chunk, chunk = nextChunk voff remaining → Spends (copying cfg) (do
          let x ← loadRange cfg voff ⟨.iobuf, 0⟩ chunk m
          if x.1 ≠ .ok then pure (false, x.2)
          else
            event (.deliver r (r.len - remaining) (x.2.read ⟨.iobuf, 0⟩ chunk))
            let ok ← sendAll (x.2.read ⟨.iobuf, 0⟩ chunk)
            if ok = false then pure (false, x.2)
            else readLoop cfg r fuel ((voff + chunk) % 2 ^ 64) (remaining - chunk) x.2)
          (readCost voff remaining) fun _ => True := by
        rintro chunk rfl
        obtain ⟨hpos, hk, -, hal⟩ := nextChunk_spec (show voff < 2 ^ 64 by omega)
          (Nat.pos_of_ne_zero hz)
        specialize hal hlt
        generalize nextChunk voff remaining = chunk at hpos hk hal ⊢
        have hsplit := readCost_split hpos hk hal
        have hfirst : readCost voff chunk = 6 * ((voff + chunk + 4095) / 4096 - voff / 4096) :=
          if_neg hpos.ne'
        refine ((loadRange_spends hpos _ m).bind (k := readCost (voff + chunk) (remaining - chunk))
          fun x _ => ?_).mono (by omega) fun _ h => h
        split
        · exact .ret trivial
        refine seq_plain (Only.call trivial) fun _ => seq_plain (sendAll_plain _) fun ok => ?_
        split
        · exact .ret trivial
        · have hnext := ih x.2 (show (voff + chunk) % 2 ^ 64 + (remaining - chunk) < 2 ^ 64 by omega)
          rwa [Nat.mod_eq_of_lt (show voff + chunk < 2 ^ 64 by omega)] at hnext ⊢
      have hall := (nextWindow_spends voff remaining).bind hrest
      rwa [Nat.zero_add] at hall

/-- Only a WRITE costs anything before the reply, and only there an error can arise. -/
theorem handleBody_spends {h : Hdr} {error : Err} {m : Mem} {c : ℕ}
    (hc : h.cmd = .write → error = .ok → h.from' + h.len < 2 ^ 64 ∧ writeCost h.from' h.len ≤ c) :
    Spends (copying cfg) (handleBody cfg h error m) c
      fun x => h.cmd = .read → x.error = error := by
  unfold handleBody
  split
  · rename_i hw
    exact (writeLoop_spends fun hok => hc hw hok).mono le_rfl fun _ _ hr => by rw [hw] at hr; cases hr
  · exact seq_plain (Only.call trivial) fun _ => .ret fun _ => rfl
  · split
    · exact seq_plain (trimRange_plain _ _) fun _ => .ret fun _ => rfl
    · exact .ret fun _ => rfl
  · exact .ret fun _ => rfl

/-- A plain program first, where accounts may be opened behind it. -/
theorem keeps_plain {p : Prog sig α} {f : α → Prog sig β} {g : ℕ} {Q : β → ℕ → Prop} (h : Plain p)
    (hf : ∀ a, Keeps (copying cfg).budget (f a) g Q) : Keeps (copying cfg).budget (p >>= f) g Q := by
  refine ((h.free.mono fun _ => Meter.Free.budget).keeps g).seq fun a g' hg' => ?_
  rw [hg']
  exact hf a

/-- From the begin of requests on their price is in the account. -/
theorem keeps_begin {reqs : List Req} {p : Prog sig β} {P : β → Prop} {g n : ℕ}
    (h : Spends (copying cfg) p n P) (hn : n ≤ (reqs.map (Req.copies cfg)).sum) :
    Keeps (copying cfg).budget (event (.begin reqs) >>= fun _ => p) g fun _ _ => True :=
  ⟨⟨nofun, Nat.zero_le g⟩, fun _ => (h.keeps hn).mono fun _ _ _ => trivial⟩

/-- **`handle_one`** pays for its request. -/
theorem handleOne_budget (h : Hdr) (m : Mem) (g : ℕ) :
    Keeps (copying cfg).budget (handleOne cfg h m) g fun _ _ => True := by
  have hin : ¬ (h.req []).Oob cfg → (h.cmd = .read ∨ h.cmd = .write) → h.from' + h.len < 2 ^ 64 := by
    intro ho hc
    have hno : ¬ oob cfg h.from' h.len := fun hoob => ho ⟨hc.elim .inl fun hw => .inr (.inl hw), hoob⟩
    have := cfg.disk_lt
    rw [oob_iff] at hno
    omega
  have hok : (if (h.cmd = .read ∨ h.cmd = .write ∨ h.cmd = .trim) ∧ oob cfg h.from' h.len
      then Err.einval else Err.ok) = .ok → ¬ (h.req []).Oob cfg := by
    intro he ho
    have hbad : (h.cmd = .read ∨ h.cmd = .write ∨ h.cmd = .trim) ∧ oob cfg h.from' h.len := ho
    rw [if_pos hbad] at he
    cases he
  generalize herr : (if (h.cmd = .read ∨ h.cmd = .write ∨ h.cmd = .trim) ∧ oob cfg h.from' h.len
    then Err.einval else Err.ok) = error at hok
  -- before the reply for a WRITE, behind it for a READ
  have hbody : Spends (copying cfg) (handleBody cfg h error m)
      (if h.cmd = .write then (h.req []).copies cfg else 0) fun x => h.cmd = .read → x.error = error := by
    refine handleBody_spends fun hw he => ⟨hin (hok he) (.inr hw), ?_⟩
    rw [if_pos hw, Req.copies_write hw (hok he)]
    exact le_rfl
  have hrest : ∀ x : Written, (h.cmd = .read → x.error = error) → Spends (copying cfg) (
      if x.alive = false then pure (false, x.mem)
      else do
        event (.reply 0 (h.req x.data) x.error)
        let ok ← sendAll (respHdr x.error h.handle)
        if ok = false then pure (false, x.mem)
        else if x.error = .eio then pure (false, x.mem)
        else if x.error ≠ .ok then pure (true, x.mem)
        else if h.cmd = .read then readLoop cfg (h.req []) h.len h.from' h.len x.mem
        else pure (true, x.mem)) (if h.cmd = .read then (h.req []).copies cfg else 0)
      fun _ => True := by
    intro x hx
    split
    · exact .ret trivial
    refine seq_plain (Only.call trivial) fun _ => seq_plain (sendAll_plain _) fun ok => ?_
    split
    · exact .ret trivial
    split
    · exact .ret trivial
    split
    · exact .ret trivial
    rename_i hgood
    by_cases hr : h.cmd = .read
    · have ho := hok ((hx hr).symm.trans (not_not.mp hgood))
      rw [if_pos hr, if_pos hr, Req.copies_read hr ho]
      exact readLoop_spends _ _ (hin ho (.inl hr))
    · rw [if_neg hr]
      exact .ret trivial
  have hcount : Plain (countOne cfg h) := countOne_plain h
  have hoob : Plain (oobAccess cfg h) := oobAccess_plain h
  have hall := seq_plain hcount fun _ => seq_plain hoob fun _ => hbody.bind hrest
  unfold handleOne
  dsimp only
  rw [herr]
  refine keeps_begin hall ?_
  rw [List.map_singleton, List.sum_singleton]
  split_ifs with h1 h2
  · rw [h1] at h2
    cases h2
  all_goals omega

/-! ## The batched path -/

/-- The ops of a batch cost no more than its requests may. -/
def Priced (cfg : Config) (b : Batch) : Prop :=
  b.mem.price b.nops ≤ (((List.range b.nreq).map b.mem.reqAt).map (Req.copies cfg)).sum

theorem Priced.start (m : Mem) : Priced cfg ⟨0, 0, m⟩ := Nat.zero_le _

/-- What a request may cost does not depend on its payload. -/
theorem Req.copies_congr {r r' : Req} (hc : r'.cmd = r.cmd) (ho : r'.off = r.off)
    (hl : r'.len = r.len) : r'.copies cfg = r.copies cfg := by
  cases r
  cases r'
  subst hc ho hl
  rfl

theorem reqAt_copies {m m' : Mem} {i : ℕ} (h : m'.reqs i = m.reqs i) :
    (m'.reqAt i).copies cfg = (m.reqAt i).copies cfg :=
  Req.copies_congr (congrArg Bop.cmd h) (congrArg Bop.offset h) (congrArg Bop.len h)

/-- One more request, whose ops are within its price. -/
theorem Priced.admit {b : Batch} (hb : Priced cfg b) {m : Mem} {n c : ℕ}
    (hops : ∀ i, (m.ops i).cmd.price = if b.nops ≤ i ∧ i < b.nops + n then c
      else (b.mem.ops i).cmd.price)
    (hreqs : ∀ i, i ≠ b.nreq → m.reqs i = b.mem.reqs i)
    (hnew : n * c ≤ (m.reqAt b.nreq).copies cfg) : Priced cfg ⟨b.nreq + 1, b.nops + n, m⟩ := by
  have hprice : m.price (b.nops + n) = b.mem.price b.nops + n * c := by
    have hold : ∀ i ∈ range b.nops, (m.ops i).cmd.price = (b.mem.ops i).cmd.price := by
      intro i hi
      have hlt := mem_range.mp hi
      rw [hops, if_neg (by omega)]
    have hadd : ∀ i ∈ range n, (m.ops (b.nops + i)).cmd.price = c := by
      intro i hi
      have hlt := mem_range.mp hi
      rw [hops, if_pos (by omega)]
    rw [Mem.price, sum_range_add, sum_congr rfl hold, sum_congr rfl hadd, sum_const, card_range,
      smul_eq_mul, Mem.price]
  have hsame : ((List.range b.nreq).map m.reqAt).map (Req.copies cfg) =
      ((List.range b.nreq).map b.mem.reqAt).map (Req.copies cfg) := by
    rw [List.map_map, List.map_map]
    refine List.map_congr_left fun i hi => reqAt_copies (hreqs i ?_)
    exact (List.mem_range.mp hi).ne
  unfold Priced at hb ⊢
  dsimp only
  rw [hprice, List.range_succ, List.map_append, List.map_append, List.sum_append, hsame,
    List.map_singleton, List.map_singleton, List.sum_singleton]
  exact Nat.add_le_add hb hnew

/-- **`batch_admit`** admits no op that its request does not pay for. -/
theorem batchAdmit_budget {h : Hdr} {b : Batch} (hb : Priced cfg b) :
    Spends (copying cfg) (batchAdmit cfg h b) 0 fun a => a.1 ≠ .drop → Priced cfg a.2 := by
  unfold batchAdmit
  split
  · exact .ret fun hne => absurd rfl hne
  split
  · exact .ret fun _ => hb
  rename_i hkind
  split
  · exact .ret fun _ => hb
  refine seq_plain (Only.call trivial) fun _ => seq_plain (oobAccess_plain h) fun _ => ?_
  generalize herr : (if oob cfg h.from' h.len then Err.einval else Err.ok) = error
  dsimp only
  generalize hn : (if error ≠ .ok then 0 else h.len / 4096) = n
  have hadm : ∀ m : Mem, m.ops = ((b.mem.setReq b.nreq ⟨h.handle, h.from', h.len, h.cmd, error,
        ⟨.ubuf, b.nreq * 65536⟩, b.nops, n⟩).setOps b.nops n (h.from' / 4096) h.cmd
          ⟨.ubuf, b.nreq * 65536⟩ b.nreq).ops →
      m.reqs = ((b.mem.setReq b.nreq ⟨h.handle, h.from', h.len, h.cmd, error,
        ⟨.ubuf, b.nreq * 65536⟩, b.nops, n⟩).setOps b.nops n (h.from' / 4096) h.cmd
          ⟨.ubuf, b.nreq * 65536⟩ b.nreq).reqs → Priced cfg ⟨b.nreq + 1, b.nops + n, m⟩ := by
    intro m hops hreqs
    have hreq : m.reqs b.nreq = ⟨h.handle, h.from', h.len, h.cmd, error, ⟨.ubuf, b.nreq * 65536⟩,
        b.nops, n⟩ := by
      rw [hreqs]
      exact Function.update_self ..
    refine hb.admit (c := h.cmd.price) (fun i => ?_) (fun i hi => ?_) ?_
    · rw [hops]
      simp only [Mem.setOps]
      split <;> rfl
    · rw [hreqs]
      exact Function.update_of_ne hi _ _
    · -- the aligned blocks are among those the request touches
      have hcmd : (m.reqAt b.nreq).cmd = h.cmd := congrArg Bop.cmd hreq
      have hoff : (m.reqAt b.nreq).off = h.from' := congrArg Bop.offset hreq
      have hlen : (m.reqAt b.nreq).len = h.len := congrArg Bop.len hreq
      by_cases ho : oob cfg h.from' h.len
      · rw [if_pos ho] at herr
        rw [← herr, if_pos (by simp)] at hn
        rw [← hn, Nat.zero_mul]
        exact Nat.zero_le _
      rw [if_neg ho] at herr
      rw [← herr, if_neg (by simp)] at hn
      have hno : ¬ (m.reqAt b.nreq).Oob cfg := by
        rintro ⟨-, hoob⟩
        rw [hoff, hlen] at hoob
        exact ho hoob
      have hlen0 : ¬ h.len = 0 := fun hz => hkind (.inr (.inl hz))
      rcases not_not.mp fun hc => hkind (.inl hc) with hc | hc
      · rw [Req.copies_read (hcmd.trans hc) hno, hoff, hlen, readCost, if_neg hlen0, hc]
        rw [show Cmd.price .read = 6 from rfl, ← hn]
        omega
      · rw [Req.copies_write (hcmd.trans hc) hno, hoff, hlen, writeCost, if_neg hlen0, hc]
        rw [show Cmd.price .write = 1 from rfl, ← hn]
        omega
  refine (blkopSets_spends _ _ _ _ _ _ _).bind (k := 0) fun m hm => ?_
  split
  · refine seq_plain (Only.call trivial) fun _ => seq_plain (recvAll_plain _) fun r => ?_
    split
    · exact .ret fun hne => absurd rfl hne
    · have hops : (m.write ⟨.ubuf, b.nreq * 65536⟩ r.2).ops = m.ops := rfl
      have hreqs : (m.write ⟨.ubuf, b.nreq * 65536⟩ r.2).reqs = m.reqs := rfl
      exact .ret fun _ => hadm _ (hops.trans (congrArg Mem.ops hm)) (hreqs.trans (congrArg Mem.reqs hm))
  · exact .ret fun _ => hadm _ (congrArg Mem.ops hm) (congrArg Mem.reqs hm)

theorem gather_budget {fuel : ℕ} {b : Batch} (hb : Priced cfg b) :
    Spends (copying cfg) (gather cfg fuel b) 0 fun t => t.1 ≠ .drop → Priced cfg t.2 := by
  induction fuel generalizing b with
  | zero => exact .ret fun _ => hb
  | succ fuel ih =>
      unfold gather
      split
      · refine seq_plain recvHdrNb_plain fun r => ?_
        cases r with
        | closed => exact .ret fun hne => absurd rfl hne
        | empty => exact .ret fun _ => hb
        | got h =>
            dsimp only
            split
            · exact .ret fun hne => absurd rfl hne
            split
            · exact .ret fun _ => hb
            refine (batchAdmit_budget hb).bind (k := 0) fun a ha => ?_
            cases hs : a.1 with
            | drop => exact .ret fun hne => absurd rfl hne
            | single => exact .ret fun _ => ha (by simp [hs])
            | batched => exact ih (ha (by simp [hs]))
      · exact .ret fun _ => hb

theorem prepareOne_spends (i : ℕ) (m : Mem) :
    Spends (copying cfg) (prepareOne cfg i m) 0 m.Kept := by
  unfold prepareOne
  split
  · exact wrPrepare_spends i m
  · exact rdPrepare_spends i m

theorem abortOne_spends (i : ℕ) (m : Mem) : Spends (copying cfg) (abortOne i m) 0 m.Kept := by
  have habort : Spends (copying cfg) (wrAbort i m) 0 m.Kept := by
    unfold wrAbort
    dsimp only
    split
    · exact seq_plain (slotFree_plain _) fun _ => .ret ((Mem.Kept.refl m).setOp rfl)
    · exact .ret ((Mem.Kept.refl m).setOp rfl)
  unfold abortOne
  dsimp only
  split
  · exact habort
  · exact .ret (.refl m)

/-- **`flush_batch`** pays for the requests of its batch. -/
theorem flushBatch_budget {b : Batch} (hb : Priced cfg b) (g : ℕ) :
    Keeps (copying cfg).budget (flushBatch cfg b) g fun _ _ => True := by
  have hrun : Spends (copying cfg) (runBatch cfg b.nops b.mem) (0 + (0 + (b.mem.price b.nops + 0)))
      fun _ => True := by
    unfold runBatch
    refine (loop_spends prepareOne_spends b.nops b.mem).bind fun m₁ h₁ => ?_
    have hmark : m₁.Kept (m₁.markErrs b.nops) := by
      rw [markErrs_eq]
      exact fun _ => rfl
    refine (loop_spends abortOne_spends b.nops _).bind fun m₂ h₂ => ?_
    have hprice : m₂.price b.nops = b.mem.price b.nops := ((h₁.trans hmark).trans h₂).price _
    rw [← hprice]
    exact (doBlocks_spends b.nops m₂).bind fun m₃ _ => .ret trivial
  have hall := hrun.bind (k := 0) (Q := fun _ => True) (f := fun m => do
      countBatch cfg b
      let alive ← forRange b.nreq (replyOne m) true
      pure (decide (alive = true ∧ ∀ i < b.nreq, (m.reqs i).error ≠ .eio), m)) fun m _ =>
    seq_plain (countBatch_plain b) fun _ =>
      seq_plain (Only.forRange (fun i alive => replyOne_plain m i alive) _ _) fun _ => .ret trivial
  unfold flushBatch
  refine keeps_begin hall ?_
  have hle : b.mem.price b.nops ≤ _ := hb
  omega

/-! ## Rounds -/

theorem serveHdr_budget (h : Hdr) (m : Mem) (g : ℕ) :
    Keeps (copying cfg).budget (serveHdr cfg h m) g fun _ _ => True := by
  have hone : ∀ h m g, Keeps (copying cfg).budget (handleOne cfg h m >>= fun r => pure (turnOf r)) g
      fun _ _ => True := fun h m g => (handleOne_budget h m g).seq fun _ _ _ => trivial
  unfold serveHdr
  split
  · exact hone h m g
  refine ((batchAdmit_budget (Priced.start m)).keeps (Nat.zero_le g)).seq fun a g₁ ha => ?_
  split
  · trivial
  · exact hone _ _ _
  · rename_i hbat
    refine keeps_plain (Only.call trivial) fun _ => ?_
    have hadm : Priced cfg a.2 := ha (by simp [hbat])
    refine ((gather_budget hadm).keeps (Nat.zero_le g₁)).seq fun t g₂ ht => ?_
    split
    · trivial
    · rename_i hnd
      refine (flushBatch_budget (ht hnd) g₂).seq fun r g₃ _ => ?_
      split
      · trivial
      split
      · exact hone _ _ _
      · trivial
      · trivial

/-- **Every round of every connection** pays for its copies, and accepts no client. -/
theorem serve_budget (m : Mem) (g : ℕ) :
    Keeps (copying cfg).budget (serve cfg m) g fun _ _ => True := by
  unfold serve
  refine keeps_plain (recvAll_plain _) fun r => ?_
  split
  · trivial
  split
  · trivial
  split
  · trivial
  refine (serveHdr_budget _ m g).seq fun t g₁ _ => ?_
  split
  · trivial
  · trivial
  · exact keeps_plain (Only.call trivial) fun _ => trivial

theorem next_budget (ph : Phase) (g : ℕ) :
    Keeps (copying cfg).lenient.budget (next cfg ph) g fun _ _ => True := by
  cases ph with
  | serving m => exact (serve_budget m g).lenient
  | logging | waiting m =>
      exact ⟨⟨trivial, Nat.zero_le _⟩, fun _ => ⟨⟨trivial, Nat.zero_le _⟩, fun _ => trivial⟩⟩
  | ended why m => exact ⟨⟨trivial, Nat.zero_le _⟩, fun _ => trivial⟩
  | stopped m => trivial

/-- **What a request costs at most.** In every run of the daemon, with any number of workers, any
codec and any failures: from the moment a worker begins to execute requests until it begins others,
it queues no more copies than these requests may take, which is six for each block that a READ
touches, and for a WRITE one for each block and one more for each that it covers in part. However
often other workers rewrite a block under a READ, it is not tried again more than that. -/
theorem copies_bounded {md : Mode} {S S' : Daemon cfg} {w : ℕ} {reqs : List Req} {os : List Op}
    (h : Daemon.Reachable cfg md S)
    (hr : Sys.Acts (σ := sig) (md.Adm cfg) (fun _ => next cfg) w S (.event (.begin reqs) :: os) S')
    (hno : ∀ rs, Op.event (.begin rs) ∉ os) :
    (os.map Op.copies).sum ≤ (reqs.map (Req.copies cfg)).sum := by
  obtain ⟨S₀, ⟨-, hinit⟩, hrun⟩ := h
  have hstart : S₀.Obeys (copying cfg).lenient.budget (fun _ _ => True) fun _ => (0 : ℕ) := by
    intro v
    rcases hinit v with hp | ⟨m, hp⟩ <;> rw [hp] <;> exact trivial
  obtain ⟨g, hg⟩ := hstart.run (fun _ ph g _ => next_budget ph g) hrun
  refine hr.granted (m := (copying cfg).lenient) (fun _ ph g _ => next_budget ph g) hg rfl ?_
  intro o ho
  cases o with
  | event e =>
      cases e with
      | begin rs => exact absurd ho (hno rs)
      | _ => rfl
  | _ => rfl

/-- What worker `w` does while it is driven. -/
def Daemon.acted (w : ℕ) : List Choice → Daemon cfg → List Op
  | [], _ => []
  | c :: cs, S =>
    match unfold (next cfg) (S.prog w) with
    | .ret _ => []
    | .act o k =>
      match exec cfg w o c S.st with
      | none => []
      | some x => o :: Daemon.acted w cs ⟨x.2, Function.update S.prog w (k x.1)⟩

theorem Daemon.drive_acts (w : ℕ) (cs : List Choice) (S : Daemon cfg) :
    Sys.Acts (σ := sig) (Mode.any.Adm cfg) (fun _ => next cfg) w S (Daemon.acted w cs S)
      (Daemon.drive w cs S) := by
  induction cs generalizing S with
  | nil => exact .refl
  | cons c cs ih =>
      rw [Daemon.drive, Daemon.acted]
      cases hk : unfold (next cfg) (S.prog w) with
      | ret ph => exact .refl
      | act o k =>
          dsimp only
          cases he : exec cfg w o c S.st with
          | none => exact .refl
          | some x => exact .self hk (Mode.any_adm cfg w o c S.st) he (ih _)

/-- A worker that has written one byte and is about to begin writing it again. -/
def Daemon.rewriting : Daemon smallConfig :=
  Daemon.drive 0 (.client (byteWrite ++ byteWrite) :: List.replicate 29 .plain) (Daemon.booted smallConfig)

/-- It has begun. -/
def Daemon.rewritten : Daemon smallConfig := Daemon.drive 0 [.plain] Daemon.rewriting

set_option maxRecDepth 100000 in
/-- The second time it takes all the copies it may: the block is fetched, and stored again. -/
theorem copies_bounded_again : ∃ (reqs : List Req) (os : List Op),
    (os.map Op.copies).sum = 2 ∧ (reqs.map (Req.copies smallConfig)).sum = 2 ∧
    (os.map Op.copies).sum ≤ (reqs.map (Req.copies smallConfig)).sum := by
  have hbegin : ∃ (reqs : List Req) (k : Unit → Prog sig Phase) (s' : State),
      unfold (next smallConfig) (Daemon.rewriting.prog 0) = .act (σ := sig) (.event (.begin reqs)) k ∧
      exec smallConfig 0 (.event (.begin reqs)) .plain Daemon.rewriting.st = some ((), s') ∧
      Daemon.rewritten = ⟨s', Function.update Daemon.rewriting.prog 0 (k ())⟩ ∧
      (reqs.map (Req.copies smallConfig)).sum = 2 :=
    ⟨_, _, _, rfl, rfl, rfl, rfl⟩
  have hsum : ((Daemon.acted 0 (List.replicate 26 .plain) Daemon.rewritten).map Op.copies).sum = 2 := rfl
  have hno : ((Daemon.acted 0 (List.replicate 26 .plain) Daemon.rewritten).all fun o =>
      ((copying smallConfig).grant o).isNone) = true := rfl
  obtain ⟨reqs, k, s', hk, he, hT, hreqs⟩ := hbegin
  have hacts := Daemon.drive_acts 0 (List.replicate 26 .plain) Daemon.rewritten
  rw [hT] at hacts hsum hno
  refine ⟨reqs, _, hsum, hreqs, copies_bounded (Daemon.booted_drive smallConfig 0 _)
    (.self hk (Mode.any_adm smallConfig 0 _ .plain _) he hacts) fun rs hmem => ?_⟩
  have hgrant := List.all_eq_true.mp hno _ hmem
  cases hgrant

end NbdVram
