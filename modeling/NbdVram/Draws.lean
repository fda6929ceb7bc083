import NbdVram.Plain
import NbdVram.Request

/-!
# What a request draws from the heap

While a worker executes a single request it asks `slot_alloc` at most once for each
block, in ascending order, only for blocks of the request, and each time for the
bytes that `comp_block` produced. This follows from the code of the worker alone,
whatever the device, the allocator, the socket and the other workers answer.
-/

namespace NbdVram

open Interleave Prog

variable {cfg : Config} {α β : Type}

/-! ## Programs that leave the allocator alone -/

/-- The action neither asks for a slot nor starts a request. -/
def Op.Mute : Op → Prop
  | .slotAlloc _ _ | .event (.begin _) => False
  | _ => True

/-- All actions of a program are of this kind. -/
abbrev Mute (p : Prog sig α) : Prop := Only (σ := sig) Op.Mute p

theorem Op.Plain.mute {o : Op} (h : o.Plain) : o.Mute := by
  cases o with
  | slotAlloc tag n => exact h
  | event e =>
      cases e with
      | begin reqs => exact h
      | _ => trivial
  | _ => trivial

theorem Plain.mute {p : Prog sig α} (h : Plain p) : Mute p := Only.mono h fun _ => Op.Plain.mute

theorem fetchLocked_mute (tag : Tag) (ent : ℕ) (dst : Ptr) (m : Mem) :
    Mute (fetchLocked cfg tag ent dst m) := by
  unfold fetchLocked
  refine .ite (fun _ => trivial) fun _ => ⟨trivial, fun (r : Bool) => .ite (fun _ => trivial)
    fun _ => ⟨trivial, fun _ => ⟨trivial, fun (bs : List UInt8) => ?_⟩⟩⟩
  dsimp only [Prog.bind]
  split
  · exact ⟨trivial, fun _ => trivial⟩
  · trivial

theorem rdBlockLocked_mute (tag : Tag) (page : Ptr) (m : Mem) :
    Mute (rdBlockLocked cfg tag page m) := by
  unfold rdBlockLocked
  exact ⟨trivial, fun _ => ⟨trivial, fun ent => (fetchLocked_mute _ _ _ _).bind fun _ =>
    ⟨trivial, fun _ => trivial⟩⟩⟩

theorem issue_mute (i : ℕ) (x : Mem × ℕ) : Mute (issue i x) := by
  unfold issue
  refine .ite (fun _ => trivial) fun _ => ?_
  dsimp only
  refine .ite (fun _ => ⟨trivial, fun (r : Bool) => ?_⟩) fun _ => ⟨trivial, fun (r : Bool) => ?_⟩
  · exact .ite (fun _ => trivial) fun _ => trivial
  · exact .ite (fun _ => trivial) fun _ => trivial

theorem reissue_mute (i : ℕ) (x : Mem × ℕ) : Mute (reissue i x) := by
  unfold reissue
  refine .ite (fun _ => (rdPrepare_plain i x.1).mute.bind fun m => ?_) fun _ => trivial
  exact .ite (fun _ => trivial) fun _ => ⟨trivial, fun (r : Bool) =>
    .ite (fun _ => trivial) fun _ => trivial⟩

theorem rounds_mute (n k : ℕ) (m : Mem) : Mute (rounds cfg n k m) := by
  induction k generalizing m with
  | zero => exact trivial
  | succ k ih =>
      unfold rounds
      refine (Plain.mute (Only.forRange finishOne_plain n _)).bind fun x => .ite (fun _ => trivial) fun _ =>
        ⟨trivial, fun _ => ?_⟩
      exact (Only.forRange reissue_mute n _).bind fun y => (syncIf_plain _).mute.bind fun _ => ih y.1

theorem lockedOne_mute (i : ℕ) (m : Mem) : Mute (lockedOne cfg i m) := by
  unfold lockedOne
  exact .ite (fun _ => (rdBlockLocked_mute _ _ _).bind fun _ => trivial) fun _ => trivial

/-- By the time `do_blocks` runs, the slots of its ops have been drawn. -/
theorem doBlocks_mute (n : ℕ) (m : Mem) : Mute (doBlocks cfg n m) := by
  unfold doBlocks
  refine ⟨trivial, fun _ => (Only.forRange issue_mute n _).bind fun x => ?_⟩
  refine (syncIf_plain _).mute.bind fun _ => (rounds_mute n 4 x.1).bind fun m => ?_
  refine (Only.forRange lockedOne_mute n m).bind fun m => ?_
  exact (Plain.mute (Only.forRange publishOne_plain n m)).bind fun m =>
    Plain.mute (Only.forRange announce_plain n m)

theorem loadLoop_mute (fuel blk : ℕ) (dst : Ptr) (n : ℕ) (m : Mem) :
    Mute (loadLoop cfg fuel blk dst n m) := by
  induction fuel generalizing blk dst n m with
  | zero => exact trivial
  | succ fuel ih =>
      unfold loadLoop
      refine .ite (fun _ => trivial) fun _ => (blkopSets_plain _ _ _ _ _ _ _).mute.bind fun m => ?_
      refine (Plain.mute (Only.forRange rdPrepare_plain _ m)).bind fun m => ?_
      refine (doBlocks_mute _ m).bind fun m => ?_
      exact .ite (fun _ => trivial) fun _ => ih _ _ _ _

theorem loadPart_mute (blk boff : ℕ) (dst : Ptr) (cnt : ℕ) (m : Mem) :
    Mute (loadPart cfg blk boff dst cnt m) := by
  unfold loadPart
  exact (loadLoop_mute _ _ _ _ m).bind fun r => .ite (fun _ => trivial) fun _ =>
    ⟨trivial, fun _ => ⟨trivial, fun _ => trivial⟩⟩

theorem loadHead_mute (off : ℕ) (dst : Ptr) (n : ℕ) (m : Mem) :
    Mute (loadHead cfg off dst n m) := by
  unfold loadHead
  exact .ite (fun _ => trivial) fun _ => loadPart_mute _ _ _ _ m

theorem loadBody_mute (off : ℕ) (dst : Ptr) (n : ℕ) (m : Mem) :
    Mute (loadBody cfg off dst n m) := by
  unfold loadBody
  exact .ite (fun _ => ⟨trivial, fun _ => loadLoop_mute _ _ _ _ _⟩) fun _ => trivial

theorem loadRange_mute (off : ℕ) (dst : Ptr) (n : ℕ) (m : Mem) :
    Mute (loadRange cfg off dst n m) := by
  unfold loadRange
  refine (loadHead_mute _ _ _ m).bind fun head => ?_
  refine .ite (fun _ => trivial) fun _ => ⟨trivial, fun _ => (loadBody_mute _ _ _ _).bind fun mid => ?_⟩
  exact .ite (fun _ => trivial) fun _ => .ite (fun _ => trivial) fun _ => loadPart_mute _ _ _ _ _

theorem readLoop_mute (r : Req) (fuel voff remaining : ℕ) (m : Mem) :
    Mute (readLoop cfg r fuel voff remaining m) := by
  induction fuel generalizing voff remaining m with
  | zero => exact trivial
  | succ fuel ih =>
      unfold readLoop
      refine .ite (fun _ => trivial) fun _ => (nextWindow_plain _ _).mute.bind fun chunk => ?_
      refine (loadRange_mute _ _ _ m).bind fun x => .ite (fun _ => trivial) fun _ =>
        ⟨trivial, fun _ => (sendAll_plain _).mute.bind fun ok => ?_⟩
      exact .ite (fun _ => trivial) fun _ => ih _ _ _

/-! ## The discipline -/

/-- The first block of a request, and the first one after it; none where the range is empty or
refused. -/
def Req.span (cfg : Config) (r : Req) : ℕ × ℕ :=
  (r.off / 4096, if r.Oob cfg ∨ r.len = 0 then r.off / 4096 else (r.off + r.len + 4095) / 4096)

/-- The blocks that may be drawn for when a worker begins to execute these requests. -/
def begun (cfg : Config) : List Req → Option (ℕ × ℕ)
  | [r] => some (r.span cfg)
  | _ => none

/-- While a single request is executed, `some (lo, hi)`: slots may be asked for blocks from `lo`
to `hi`, and each puts the blocks up to its own behind. Batches of several requests are not
looked at. -/
def drawing (cfg : Config) : Discipline sig where
  State := Option (ℕ × ℕ)
  ok g o := match (o : Op) with
    | .slotAlloc tag n => (∃ p, n = (cfg.codec.compBlock p).length) ∧
      ∀ q, g = some q → q.1 ≤ tag.blk ∧ tag.blk < q.2
    | _ => True
  next g o _ := match (o : Op) with
    | .event (.begin reqs) => begun cfg reqs
    | .slotAlloc tag _ => g.map fun q => (tag.blk + 1, q.2)
    | _ => g

theorem Op.Mute.free {o : Op} (h : o.Mute) : (drawing cfg).Free o := by
  intro g
  cases o with
  | slotAlloc tag n => exact h.elim
  | event e =>
      cases e with
      | begin reqs => exact h.elim
      | _ => exact ⟨trivial, fun _ => rfl⟩
  | _ => exact ⟨trivial, fun _ => rfl⟩

/-- A program that leaves the allocator alone leaves the discipline where it is. -/
theorem keeps_of_mute {p : Prog sig α} (h : Mute p) (g : Option (ℕ × ℕ)) :
    Keeps (drawing cfg) p g fun _ g' => g' = g :=
  Only.keeps (h.mono fun _ => Op.Mute.free) g

theorem keeps_of_mute_true {p : Prog sig α} (h : Mute p) (g : Option (ℕ × ℕ)) :
    Keeps (drawing cfg) p g fun _ _ => True :=
  (keeps_of_mute h g).mono fun _ _ _ => trivial

/-- The rest of a program after a part that leaves the allocator alone. -/
theorem keeps_mute_seq {p : Prog sig α} {f : α → Prog sig β} {g : Option (ℕ × ℕ)}
    {Q : β → Option (ℕ × ℕ) → Prop} (h : Mute p) (hf : ∀ a, Keeps (drawing cfg) (f a) g Q) :
    Keeps (drawing cfg) (p >>= f) g Q := by
  refine (keeps_of_mute h g).seq fun a g' hg => ?_
  rw [hg]
  exact hf a

/-- The blocks from `a` up to `b` may be drawn for. -/
def Room (a b : ℕ) (g : Option (ℕ × ℕ)) : Prop := ∀ q, g = some q → q.1 ≤ a ∧ b ≤ q.2

theorem Room.mono {a a' b b' : ℕ} {g : Option (ℕ × ℕ)} (h : Room a b g) (ha : a ≤ a') (hb : b' ≤ b) :
    Room a' b' g := by
  intro q hq
  have := h q hq
  omega

theorem room_none (a b : ℕ) : Room a b none := by
  intro q hq
  cases hq

theorem slotAlloc_keeps {b n : ℕ} {g : Option (ℕ × ℕ)} {tag : Tag}
    (hn : ∃ p, n = (cfg.codec.compBlock p).length) (hg : Room tag.blk b g) (hb : tag.blk < b) :
    Keeps (drawing cfg) (slotAlloc tag n) g fun _ g' =>
      Room (tag.blk + 1) b g' ∧ (g = none → g' = none) := by
  refine ⟨trivial, fun _ => ⟨⟨hn, fun q hq => ?_⟩, fun _ => ⟨trivial, fun _ => ⟨?_, ?_⟩⟩⟩⟩
  · have := hg q hq
    omega
  · intro q hq
    obtain ⟨q', hq', rfl⟩ := Option.map_eq_some_iff.mp hq
    exact ⟨le_rfl, (hg q' hq').2⟩
  · rintro rfl
    rfl

variable {b : ℕ} {g : Option (ℕ × ℕ)} {m m' : Mem} {h : Hdr}

/-- An op that stays with its block. -/
theorem setOp_blk {i : ℕ} {bo : BlkOp} (h : bo.blk = (m.ops i).blk) (j : ℕ) :
    ((m.setOp i bo).ops j).blk = (m.ops j).blk := by
  simp only [Mem.setOp, Function.update_apply]
  split
  · rw [h, ‹j = i›]
  · rfl

theorem wrPrepare_keeps {i : ℕ} (hg : Room (m.ops i).blk b g) (hb : (m.ops i).blk < b) :
    Keeps (drawing cfg) (wrPrepare cfg i m) g fun m' g' => Room ((m.ops i).blk + 1) b g' ∧
      (g = none → g' = none) ∧ ∀ j, (m'.ops j).blk = (m.ops j).blk := by
  unfold wrPrepare
  refine keeps_mute_seq (Only.call trivial) fun _ => ?_
  refine (slotAlloc_keeps ⟨_, rfl⟩ hg hb).seq fun grain g' hg' => ?_
  split
  · exact ⟨trivial, fun _ => ⟨hg'.1, hg'.2, setOp_blk rfl⟩⟩
  · exact ⟨hg'.1, hg'.2, setOp_blk rfl⟩

theorem rmwBlock_keeps {blk boff cnt : ℕ} {src : Ptr} (hg : Room blk b g) (hb : blk < b) :
    Keeps (drawing cfg) (rmwBlock cfg blk boff src cnt m) g fun _ g' => Room (blk + 1) b g' := by
  have hup : Room (blk + 1) b g := hg.mono (Nat.le_succ blk) le_rfl
  unfold rmwBlock
  refine keeps_mute_seq (Only.call trivial) fun _ => keeps_mute_seq (Only.call trivial) fun _ => ?_
  refine keeps_mute_seq (Only.call trivial) fun old => ?_
  refine keeps_mute_seq (fetchLocked_mute _ _ _ m) fun r => ?_
  split
  · exact ⟨trivial, fun _ => ⟨trivial, fun _ => hup⟩⟩
  refine keeps_mute_seq (Only.call trivial) fun _ => keeps_mute_seq (Only.call trivial) fun _ => ?_
  refine Keeps.seq (P := fun _ g' => Room (blk + 1) b g') ?_ fun err g' (hg' : Room _ b g') =>
    keeps_mute_seq (Only.call trivial) fun _ => keeps_mute_seq (Only.call trivial) fun _ => hg'
  unfold rmwStore
  refine keeps_mute_seq (Only.call trivial) fun _ => ?_
  refine (slotAlloc_keeps ⟨_, rfl⟩ hg hb).seq fun grain g' hg' => ?_
  split
  · exact ⟨trivial, fun _ => hg'.1⟩
  refine keeps_mute_seq (Only.call trivial) fun ok => ?_
  split
  · exact keeps_mute_seq (slotFree_plain grain).mute fun _ => hg'.1
  · exact keeps_mute_seq (Only.call trivial) fun _ => keeps_mute_seq (Only.call trivial) fun _ =>
      keeps_mute_seq (retire_plain _ _).mute fun _ => hg'.1

/-- What preparing op `j` does to the discipline, and to the blocks of the ops. -/
def Prepares (cfg : Config) (body : ℕ → Mem → Prog sig Mem) : Prop :=
  ∀ j m b g, Room (m.ops j).blk b g → (m.ops j).blk < b →
    Keeps (drawing cfg) (body j m) g fun m' g' => Room ((m.ops j).blk + 1) b g' ∧
      (g = none → g' = none) ∧ ∀ k, (m'.ops k).blk = (m.ops k).blk

/-- The loop that prepares `n` ops for the blocks from `blk` on. -/
theorem prepareLoop_keeps {body : ℕ → Mem → Prog sig Mem} {n blk : ℕ} (hbody : Prepares cfg body)
    (hblk : ∀ j < n, (m.ops j).blk = blk + j) (hg : Room blk b g) (hb : blk + n ≤ b) :
    Keeps (drawing cfg) (forRange n body m) g fun _ g' => Room (blk + n) b g' := by
  refine (keeps_forRange (fun j m' g' => Room (blk + j) b g' ∧
    ∀ k, (m'.ops k).blk = (m.ops k).blk) ?_ ⟨hg, fun _ => rfl⟩).mono fun _ _ h => h.1
  intro j m' g' hj hinv
  obtain ⟨hroom, hsame⟩ := hinv
  have hj' : (m'.ops j).blk = blk + j := (hsame j).trans (hblk j hj)
  refine (hbody j m' b g' (by rwa [hj']) (by omega)).mono fun m'' g'' h => ?_
  obtain ⟨h1, -, h3⟩ := h
  rw [hj'] at h1
  exact ⟨h1, fun k => (h3 k).trans (hsame k)⟩

/-- The same loop where the discipline does not look. -/
theorem prepareLoop_keeps_none {body : ℕ → Mem → Prog sig Mem} (n : ℕ) (hbody : Prepares cfg body) :
    Keeps (drawing cfg) (forRange n body m) none fun _ g' => g' = none := by
  refine keeps_forRange (D := drawing cfg) (fun _ _ (g' : Option (ℕ × ℕ)) => g' = none)
    (fun j m' g' hj hg' => ?_) rfl
  rw [hg']
  exact (hbody j m' _ none (room_none _ _) (Nat.lt_succ_self _)).mono fun _ _ h => h.2.1 rfl

theorem storeLoop_keeps {fuel blk n : ℕ} {src : Ptr} {err : Err} (hg : Room blk b g)
    (hb : blk + n ≤ b) : Keeps (drawing cfg) (storeLoop cfg fuel blk src n err m) g
      fun _ g' => Room (blk + n) b g' := by
  induction fuel generalizing blk n src err m g with
  | zero => exact hg.mono (Nat.le_add_right _ _) le_rfl
  | succ fuel ih =>
      have hwin : cfg.window n ≤ n := by
        unfold Config.window
        split <;> omega
      unfold storeLoop
      split
      · exact hg.mono (Nat.le_add_right _ _) le_rfl
      refine keeps_bind.mpr ⟨trivial, fun _ => ⟨trivial, fun _ => ?_⟩⟩
      refine (prepareLoop_keeps (fun j m b g => wrPrepare_keeps) (fun j hj => ?_) hg
        (by omega)).seq fun m₁ g₁ hg₁ => keeps_mute_seq (doBlocks_mute _ m₁) fun m₂ => ?_
      · rw [setOps_ops hj]
        rfl
      · refine (ih hg₁ (by omega)).mono fun _ g' hg' => ?_
        rwa [show blk + cfg.window n + (n - cfg.window n) = blk + n by omega] at hg'

/-- **`store_range`** draws for the blocks of its range, each at most once and in order. -/
theorem storeRange_keeps {off n : ℕ} {src : Ptr} (hg : Room (off / 4096) b g) (hn : 0 < n)
    (hb : (off + n + 4095) / 4096 ≤ b) : Keeps (drawing cfg) (storeRange cfg off src n m) g
      fun _ g' => Room ((off + n + 4095) / 4096) b g' := by
  obtain ⟨hle, hal⟩ := headLen_spec off n
  have hhead : Keeps (drawing cfg) (storeHead cfg off src n m) g fun _ g' =>
      Room ((off + headLen off n + 4095) / 4096) b g' := by
    unfold storeHead
    split
    · refine hg.mono ?_ le_rfl
      omega
    · refine (rmwBlock_keeps hg (by omega)).mono fun _ g' hg' => hg'.mono ?_ le_rfl
      rw [headLen_of_ne ‹_›]
      omega
  unfold storeRange
  refine hhead.seq fun head g₁ hg₁ => ⟨trivial, fun _ => ?_⟩
  dsimp only
  generalize headLen off n = cnt at hle hal hg₁ ⊢
  have hbody : Keeps (drawing cfg) (storeBody cfg (off + cnt) (src.add cnt) (n - cnt) head.2) g₁
      fun _ g' => Room ((off + cnt + 4095) / 4096 + (n - cnt) / 4096) b g' := by
    unfold storeBody
    split
    · have hdiv : (off + cnt + 4095) / 4096 = (off + cnt) / 4096 := by omega
      rw [hdiv] at hg₁ ⊢
      exact ⟨trivial, fun _ => storeLoop_keeps hg₁ (by omega)⟩
    · exact hg₁.mono (Nat.le_add_right _ _) le_rfl
  refine hbody.seq fun mid g₂ hg₂ => ?_
  split
  · exact hg₂.mono (by omega) le_rfl
  · refine (rmwBlock_keeps (hg₂.mono ?_ le_rfl) ?_).seq fun _ g₃ hg₃ => hg₃.mono ?_ le_rfl
    · omega
    · omega
    · omega

/-! ## The per-request path -/

theorem nextWindow_keeps (voff remaining : ℕ) (g : Option (ℕ × ℕ)) :
    Keeps (drawing cfg) (nextWindow voff remaining) g fun chunk g' =>
      chunk = nextChunk voff remaining ∧ g' = g := by
  have hend : Mute (endAccess voff remaining) := .ite (fun _ => .call trivial) fun _ => trivial
  unfold nextWindow
  exact keeps_mute_seq hend fun _ => keeps_mute_seq (Only.call trivial) fun _ =>
    keeps_mute_seq (Only.call trivial) fun _ => ⟨rfl, rfl⟩

/-- The windows of a WRITE draw one after the other. -/
theorem writeLoop_keeps {fuel voff remaining : ℕ} {x : Written}
    (hg : x.error = .ok → 0 < remaining → Room (voff / 4096) b g ∧ voff + remaining < 2 ^ 64 ∧
      (voff + remaining + 4095) / 4096 ≤ b) :
    Keeps (drawing cfg) (writeLoop cfg fuel voff remaining x) g fun _ _ => True := by
  induction fuel generalizing voff remaining x g with
  | zero => trivial
  | succ fuel ih =>
      unfold writeLoop
      split
      · trivial
      rename_i hz
      refine (nextWindow_keeps voff remaining g).seq fun chunk g₁ h₁ => ?_
      obtain ⟨rfl, rfl⟩ := h₁
      refine keeps_mute_seq (recvAll_plain _).mute fun r => ?_
      dsimp only
      split
      · trivial
      split
      · rename_i hok
        obtain ⟨hroom, hlt, hb⟩ := hg hok (Nat.pos_of_ne_zero hz)
        obtain ⟨hpos, hle, -, hal⟩ := nextChunk_spec (show voff < 2 ^ 64 by omega)
          (Nat.pos_of_ne_zero hz)
        specialize hal hlt
        generalize nextChunk voff remaining = chunk at hpos hle hal ⊢
        refine (storeRange_keeps hroom hpos (by omega)).seq fun y g₂ hg₂ => ih fun _ hrest => ?_
        rw [Nat.mod_eq_of_lt (by omega)]
        exact ⟨hg₂.mono (by omega) le_rfl, by omega, by omega⟩
      · rename_i hbad
        exact ih fun hok => absurd (Err.merge_ok.mp (show x.error.merge .ok = .ok from hok)).1 hbad

theorem handleBody_keeps {error : Err} (hg : h.cmd = .write → error = .ok → 0 < h.len →
      Room (h.from' / 4096) b g ∧ h.from' + h.len < 2 ^ 64 ∧ (h.from' + h.len + 4095) / 4096 ≤ b) :
    Keeps (drawing cfg) (handleBody cfg h error m) g fun _ _ => True := by
  unfold handleBody
  split
  · rename_i hc
    exact writeLoop_keeps fun hok => hg hc hok
  · exact keeps_mute_seq (Only.call trivial) fun _ => trivial
  · split
    · exact keeps_mute_seq (trimRange_plain _ _).mute fun _ => trivial
    · trivial
  · trivial

/-- **`handle_one`** draws only for the blocks of its request. -/
theorem handleOne_keeps (h : Hdr) (m : Mem) (g : Option (ℕ × ℕ)) :
    Keeps (drawing cfg) (handleOne cfg h m) g fun _ _ => True := by
  unfold handleOne
  refine Keeps.call trivial fun _ => ?_
  have hspan : Room (h.from' / 4096) ((h.req []).span cfg).2 (some ((h.req []).span cfg)) := by
    intro q hq
    obtain rfl := Option.some.inj hq
    exact ⟨le_rfl, le_rfl⟩
  refine keeps_mute_seq (countOne_plain h).mute fun _ => keeps_mute_seq (oobAccess_plain h).mute fun _ => ?_
  refine (handleBody_keeps (b := ((h.req []).span cfg).2) fun hw hok hpos => ⟨hspan, ?_⟩).seq
    fun x g' _ => keeps_of_mute_true ?_ g'
  · split at hok
    · cases hok
    · rename_i ho
      change ¬ (h.req []).Oob cfg at ho
      have hin : ¬ oob cfg h.from' h.len := fun hoob => ho ⟨.inr (.inl hw), hoob⟩
      have hdisk := cfg.disk_lt
      rw [oob_iff] at hin
      have hend : ((h.req []).span cfg).2 = (h.from' + h.len + 4095) / 4096 := by
        have hne : ¬ (h.req []).len = 0 := hpos.ne'
        rw [Req.span, if_neg (not_or.mpr ⟨ho, hne⟩)]
        rfl
      rw [hend]
      exact ⟨by omega, le_rfl⟩
  · refine .ite (fun _ => trivial) fun _ => ⟨trivial, fun _ => (sendAll_plain _).mute.bind fun ok => ?_⟩
    refine .ite (fun _ => trivial) fun _ => .ite (fun _ => trivial) fun _ =>
      .ite (fun _ => trivial) fun _ => ?_
    exact .ite (fun _ => readLoop_mute _ _ _ _ _) fun _ => trivial

/-! ## The batched path -/

/-- As long as a batch holds one request, its ops are for the blocks of that request in order. -/
structure Numbered (cfg : Config) (b : Batch) : Prop where
  empty : b.nreq = 0 → b.nops = 0
  blk : b.nreq = 1 → ∀ j < b.nops, (b.mem.ops j).blk = (b.mem.reqAt 0).off / 4096 + j
  le : b.nreq = 1 → (b.mem.reqAt 0).off / 4096 + b.nops ≤ ((b.mem.reqAt 0).span cfg).2

theorem Numbered.start (m : Mem) : Numbered cfg ⟨0, 0, m⟩ :=
  ⟨fun _ => rfl, fun h => absurd h Nat.zero_ne_one, fun h => absurd h Nat.zero_ne_one⟩

/-- Batches of two and more requests. -/
theorem Numbered.many {q : Batch} (h : 2 ≤ q.nreq) : Numbered cfg q :=
  ⟨fun h' => by omega, fun h' => by omega, fun h' => by omega⟩

/-- The memory of a batch after the request `h` has been admitted, before its payload is there. -/
def admitted (cfg : Config) (h : Hdr) (q : Batch) : Mem :=
  let error : Err := if oob cfg h.from' h.len then .einval else .ok
  let n := if error ≠ .ok then 0 else h.len / 4096
  (q.mem.setReq q.nreq ⟨h.handle, h.from', h.len, h.cmd, error, ⟨.ubuf, q.nreq * 65536⟩, q.nops, n⟩).setOps
    q.nops n (h.from' / 4096) h.cmd ⟨.ubuf, q.nreq * 65536⟩ q.nreq

theorem Numbered.admit {q : Batch} (hq : Numbered cfg q) {m : Mem} {n : ℕ}
    (hn : n = if (if oob cfg h.from' h.len then Err.einval else Err.ok) ≠ .ok then 0 else h.len / 4096)
    (hops : m.ops = (admitted cfg h q).ops) (hreqs : m.reqs = (admitted cfg h q).reqs) :
    Numbered cfg ⟨q.nreq + 1, q.nops + n, m⟩ := by
  rcases Nat.eq_zero_or_pos q.nreq with hz | hpos
  · have hz' := hq.empty hz
    have hreq : m.reqs 0 = ⟨h.handle, h.from', h.len, h.cmd,
        if oob cfg h.from' h.len then .einval else .ok, ⟨.ubuf, q.nreq * 65536⟩, q.nops, n⟩ := by
      rw [hreqs, admitted, hn]
      simp only [Mem.setOps, Mem.setReq, hz, Function.update_self]
    have hoff : (m.reqAt 0).off = h.from' := by rw [Mem.reqAt, hreq]
    have hlen : (m.reqAt 0).len = h.len := by rw [Mem.reqAt, hreq]
    refine ⟨fun h' => absurd h' (Nat.succ_ne_zero _), fun _ j hj => ?_, fun _ => ?_⟩
    · simp only [hz', Nat.zero_add] at hj
      show (m.ops j).blk = (m.reqAt 0).off / 4096 + j
      rw [hoff, hops, admitted, ← hn]
      simp only [Mem.setOps, hz', Nat.zero_add, Nat.zero_le, true_and, if_pos hj, blkopSet, Nat.sub_zero]
    · show (m.reqAt 0).off / 4096 + (q.nops + n) ≤ ((m.reqAt 0).span cfg).2
      rw [Req.span, hoff, hlen, hz', Nat.zero_add]
      by_cases ho : oob cfg h.from' h.len
      · rw [if_pos ho, if_pos (by simp)] at hn
        split <;> omega
      · rw [if_neg ho, if_neg (by simp)] at hn
        have hno : ¬ (m.reqAt 0).Oob cfg := by
          rintro ⟨-, hoob⟩
          rw [hoff, hlen] at hoob
          exact ho hoob
        by_cases hz : h.len = 0
        · rw [if_pos (.inr hz)]
          omega
        · rw [if_neg (not_or.mpr ⟨hno, hz⟩)]
          omega
  · exact .many (by show 2 ≤ q.nreq + 1; omega)

theorem blkopSets_keeps (m : Mem) (i n blk : ℕ) (cmd : Cmd) (page : Ptr) (req : ℕ)
    (g : Option (ℕ × ℕ)) : Keeps (drawing cfg) (blkopSets m i n blk cmd page req) g fun m' g' =>
      m' = m.setOps i n blk cmd page req ∧ g' = g :=
  ⟨trivial, fun _ => ⟨trivial, fun _ => ⟨rfl, rfl⟩⟩⟩

/-- **`batch_admit`** keeps the ops numbered. -/
theorem batchAdmit_keeps {q : Batch} (hq : Numbered cfg q) (g : Option (ℕ × ℕ)) :
    Keeps (drawing cfg) (batchAdmit cfg h q) g fun a g' =>
      (a.1 ≠ .drop → Numbered cfg a.2) ∧ g' = g := by
  unfold batchAdmit
  split
  · exact ⟨fun hne => absurd rfl hne, rfl⟩
  split
  · exact ⟨fun _ => hq, rfl⟩
  split
  · exact ⟨fun _ => hq, rfl⟩
  refine keeps_mute_seq (Only.call trivial) fun _ => keeps_mute_seq (oobAccess_plain h).mute fun _ => ?_
  refine (blkopSets_keeps _ _ _ _ _ _ _ g).seq fun m' g' hm => ?_
  obtain ⟨hm, rfl⟩ := hm
  have hadm : ∀ m₁ : Mem, m₁.ops = m'.ops → m₁.reqs = m'.reqs →
      Numbered cfg ⟨q.nreq + 1, q.nops + _, m₁⟩ := fun m₁ h1 h2 =>
    hq.admit rfl (h1.trans (congrArg Mem.ops hm)) (h2.trans (congrArg Mem.reqs hm))
  split
  · refine keeps_mute_seq (Only.call trivial) fun _ => keeps_mute_seq (recvAll_plain _).mute fun r => ?_
    dsimp only
    split
    · exact ⟨fun hne => absurd rfl hne, rfl⟩
    · exact ⟨fun _ => hadm _ rfl rfl, rfl⟩
  · exact ⟨fun _ => hadm _ rfl rfl, rfl⟩

theorem gather_keeps {fuel : ℕ} {q : Batch} (hq : Numbered cfg q) (g : Option (ℕ × ℕ)) :
    Keeps (drawing cfg) (gather cfg fuel q) g fun t g' =>
      (t.1 = .drop ∨ Numbered cfg t.2) ∧ g' = g := by
  induction fuel generalizing q with
  | zero => exact ⟨.inr hq, rfl⟩
  | succ fuel ih =>
      unfold gather
      split
      · refine keeps_mute_seq recvHdrNb_plain.mute fun r => ?_
        split
        · exact ⟨.inl rfl, rfl⟩
        · exact ⟨.inr hq, rfl⟩
        · split
          · exact ⟨.inl rfl, rfl⟩
          split
          · exact ⟨.inr hq, rfl⟩
          refine (batchAdmit_keeps hq g).seq fun a g' ha => ?_
          obtain ⟨hnum, rfl⟩ := ha
          split
          · exact ⟨.inl rfl, rfl⟩
          · exact ⟨.inr (hnum (by simp [*])), rfl⟩
          · exact ih (hnum (by simp [*]))
      · exact ⟨.inr hq, rfl⟩

theorem prepareOne_keeps : Prepares cfg (prepareOne cfg) := by
  intro j m b g hroom hlt
  unfold prepareOne
  split
  · exact wrPrepare_keeps hroom hlt
  · exact ⟨trivial, fun _ => ⟨hroom.mono (Nat.le_succ _) le_rfl, id, setOp_blk rfl⟩⟩

/-- **`flush_batch`** of a single request draws for its blocks. -/
theorem flushBatch_keeps {q : Batch} (hq : Numbered cfg q) (g : Option (ℕ × ℕ)) :
    Keeps (drawing cfg) (flushBatch cfg q) g fun _ _ => True := by
  unfold flushBatch
  refine Keeps.call trivial fun _ => ?_
  show Keeps (drawing cfg) _ (begun cfg ((List.range q.nreq).map q.mem.reqAt)) _
  have hprep : Keeps (drawing cfg) (forRange q.nops (prepareOne cfg) q.mem)
      (begun cfg ((List.range q.nreq).map q.mem.reqAt)) fun _ _ => True := by
    by_cases hone : q.nreq = 1
    · rw [hone]
      refine (prepareLoop_keeps (b := ((q.mem.reqAt 0).span cfg).2) prepareOne_keeps (hq.blk hone)
        (fun p hp => ?_) (hq.le hone)).mono fun _ _ _ => trivial
      obtain rfl := Option.some.inj hp
      exact ⟨le_rfl, le_rfl⟩
    · have hnone : begun cfg ((List.range q.nreq).map q.mem.reqAt) = none := by
        unfold begun
        split
        · rename_i r hr
          have hlen := congrArg List.length hr
          rw [List.length_map, List.length_range] at hlen
          exact absurd hlen hone
        · rfl
      rw [hnone]
      exact (prepareLoop_keeps_none q.nops prepareOne_keeps).mono fun _ _ _ => trivial
  have hrun : Keeps (drawing cfg) (runBatch cfg q.nops q.mem)
      (begun cfg ((List.range q.nreq).map q.mem.reqAt)) fun _ _ => True := by
    unfold runBatch
    refine hprep.seq fun m g₁ _ => keeps_of_mute_true ?_ g₁
    exact (Plain.mute (Only.forRange abortOne_plain _ _)).bind fun m => (doBlocks_mute _ m).bind fun _ => trivial
  refine hrun.seq fun m g₁ _ => keeps_of_mute_true ?_ g₁
  exact (countBatch_plain q).mute.bind fun _ =>
    (Plain.mute (Only.forRange (fun i alive => replyOne_plain m i alive) _ _)).bind fun _ => trivial

/-! ## Rounds -/

theorem serveHdr_keeps (h : Hdr) (m : Mem) (g : Option (ℕ × ℕ)) :
    Keeps (drawing cfg) (serveHdr cfg h m) g fun _ _ => True := by
  have hone : ∀ m' g', Keeps (drawing cfg) (handleOne cfg h m' >>= fun r => pure (turnOf r)) g'
      fun _ _ => True := fun m' g' => (handleOne_keeps h m' g').seq fun _ _ _ => trivial
  unfold serveHdr
  split
  · exact hone m g
  refine (batchAdmit_keeps (Numbered.start m) g).seq fun a g₁ ha => ?_
  split
  · trivial
  · exact hone _ _
  · rename_i hbat
    refine keeps_mute_seq (Only.call trivial) fun _ => ?_
    refine (gather_keeps (ha.1 (by simp [hbat])) g₁).seq fun t g₂ ht => ?_
    split
    · trivial
    · rename_i hnd
      have hnum : Numbered cfg t.2 := ht.1.resolve_left hnd
      refine (flushBatch_keeps hnum g₂).seq fun r g₃ _ => ?_
      split
      · trivial
      split
      · exact (handleOne_keeps _ _ g₃).seq fun _ _ _ => trivial
      · trivial
      · trivial

theorem serve_keeps (m : Mem) (g : Option (ℕ × ℕ)) :
    Keeps (drawing cfg) (serve cfg m) g fun _ _ => True := by
  unfold serve
  refine keeps_mute_seq (recvAll_plain _).mute fun r => ?_
  split
  · trivial
  split
  · trivial
  split
  · trivial
  refine (serveHdr_keeps _ m g).seq fun t g₁ _ => ?_
  split
  · trivial
  · trivial
  · exact keeps_mute_seq (Only.call trivial) fun _ => trivial

/-- **Every round of every worker** keeps the discipline, from any state of it. -/
theorem next_keeps (ph : Phase) (g : Option (ℕ × ℕ)) :
    Keeps (drawing cfg) (next cfg ph) g fun _ _ => True := by
  cases ph with
  | logging => exact ⟨trivial, fun _ => ⟨trivial, fun _ => trivial⟩⟩
  | waiting m => exact ⟨trivial, fun _ => ⟨trivial, fun _ => trivial⟩⟩
  | serving m => exact serve_keeps m g
  | ended why m => exact ⟨trivial, fun _ => trivial⟩
  | stopped m => trivial

end NbdVram
