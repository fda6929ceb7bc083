import NbdVram.Between
import NbdVram.Copies

/-!
# Each block is touched once

A request of `handle_one` is cut twice: into windows that fit `iobuf`, and each
window into a head, whole blocks and a tail. `windows` and `rangeCalls` are these
cuts as data, the loops of the source are what they say (`writeLoop_windows`,
`readLoop_windows`), and put together they are the range cut at its block
boundaries, so every block is touched by one call, for exactly the bytes of it that
the request covers.
-/

namespace NbdVram

open Interleave Prog Span MutationLog

variable {cfg : Config} {md : Mode} {s : State} {w n k off : ℕ} {x : Local} {m : Mem}

/-! ## The cuts -/

/-- Bytes of one block: `cnt` of them from `boff` on, which are those from `pos` on of the range.
`whole` tells whether a block op or a read-modify-write does it. -/
structure Share where
  whole : Bool
  blk : ℕ
  boff : ℕ
  cnt : ℕ
  pos : ℕ
  deriving DecidableEq

/-- The bytes of block `b` in a range that touches it: a block is written whole exactly where the
range covers it. -/
def shareOf (off n b : ℕ) : Share where
  whole := decide (off ≤ b * 4096 ∧ b * 4096 + 4096 ≤ off + n)
  blk := b
  boff := off - b * 4096
  cnt := min (off + n) (b * 4096 + 4096) - max off (b * 4096)
  pos := b * 4096 - off

/-- The blocks that a range of `n` bytes touches, each once and in order. -/
def shares (off n : ℕ) : List Share :=
  (List.range (if n = 0 then 0 else (off + n + 4095) / 4096 - off / 4096)).map fun i =>
    shareOf off n (off / 4096 + i)

/-- The same bytes, seen from a range that starts `k` bytes earlier. -/
def Share.shift (k : ℕ) (t : Share) : Share := { t with pos := k + t.pos }

/-- A call of `load_range` or `store_range`: part of one block, or `n` whole blocks. -/
inductive Call
  | part (blk boff pos cnt : ℕ)
  | blocks (blk pos n : ℕ)

def Call.shares : Call → List Share
  | .part blk boff pos cnt => [⟨false, blk, boff, cnt, pos⟩]
  | .blocks blk pos n => (List.range n).map fun j => ⟨true, blk + j, 0, 4096, pos + j * 4096⟩

/-- The calls of `load_range` and `store_range`: head, whole blocks and tail. -/
def rangeCalls (off n : ℕ) : List Call :=
  let cnt := headLen off n
  let rest := n - cnt
  (if off % 4096 = 0 then [] else [.part (off / 4096) (off % 4096) 0 cnt]) ++
  (if 4096 ≤ rest then [.blocks ((off + cnt) / 4096) cnt (rest / 4096)] else []) ++
  (if rest % 4096 = 0 then []
    else [.part ((off + cnt + rest / 4096 * 4096) / 4096) 0 (cnt + rest / 4096 * 4096) (rest % 4096)])

/-- The windows of a request, each with its offset and its length. -/
def windows : ℕ → ℕ → ℕ → List (ℕ × ℕ)
  | 0, _, _ => []
  | fuel + 1, voff, remaining =>
    if remaining = 0 then []
    else
      let chunk := nextChunk voff remaining
      (voff, chunk) :: windows fuel ((voff + chunk) % 2 ^ 64) (remaining - chunk)

/-! ## Put together -/

theorem shares_zero (off : ℕ) : shares off 0 = [] := rfl

theorem shares_pos (hn : 0 < n) : shares off n =
    (List.range ((off + n + 4095) / 4096 - off / 4096)).map fun i => shareOf off n (off / 4096 + i) := by
  rw [shares, if_neg (Nat.pos_iff_ne_zero.mp hn)]

/-- Ranges that meet at a block boundary. -/
theorem shares_append (n' : ℕ) (h : 4096 ∣ off + n) :
    shares off (n + n') = shares off n ++ (shares (off + n) n').map (Share.shift n) := by
  rcases Nat.eq_zero_or_pos n with rfl | hn
  · have hid : Share.shift 0 = id := funext fun t => by simp [Share.shift]
    rw [shares_zero, Nat.zero_add, Nat.add_zero, hid, List.map_id, List.nil_append]
  rcases Nat.eq_zero_or_pos n' with rfl | hn'
  · rw [shares_zero, List.map_nil, List.append_nil, Nat.add_zero]
  have hcount : (off + (n + n') + 4095) / 4096 - off / 4096 =
      ((off + n + 4095) / 4096 - off / 4096) + ((off + n + n' + 4095) / 4096 - (off + n) / 4096) := by
    omega
  rw [shares_pos (by omega), shares_pos hn, shares_pos hn', hcount, List.range_add, List.map_append,
    List.map_map, List.map_map]
  congr 1
  · refine List.map_congr_left fun i hi => ?_
    have hi := List.mem_range.mp hi
    simp only [shareOf, Share.mk.injEq, decide_eq_decide, true_and, and_true]
    omega
  · refine List.map_congr_left fun i hi => ?_
    simp only [shareOf, Share.shift, Function.comp_apply, Share.mk.injEq, decide_eq_decide]
    omega

/-- Part of one block. -/
theorem shares_part (hn : 0 < n) (hle : off % 4096 + n ≤ 4096) (hlt : n < 4096) :
    shares off n = [⟨false, off / 4096, off % 4096, n, 0⟩] := by
  have hcount : (off + n + 4095) / 4096 - off / 4096 = 1 := by omega
  rw [shares_pos hn, hcount, List.range_one, List.map_singleton, List.singleton_inj]
  simp only [shareOf, Share.mk.injEq, decide_eq_false_iff_not]
  omega

/-- Whole blocks. -/
theorem shares_blocks (h : 4096 ∣ off) (k : ℕ) :
    shares off (k * 4096) = Call.shares (.blocks (off / 4096) 0 k) := by
  rcases Nat.eq_zero_or_pos k with rfl | hk
  · rw [Nat.zero_mul]
    rfl
  have hcount : (off + k * 4096 + 4095) / 4096 - off / 4096 = k := by omega
  rw [shares_pos (by omega), hcount, Call.shares]
  refine List.map_congr_left fun i hi => ?_
  have hi := List.mem_range.mp hi
  have hmul : (off / 4096 + i) * 4096 = off + i * 4096 := by omega
  simp only [shareOf, Share.mk.injEq, decide_eq_true_eq, hmul]
  exact ⟨⟨by omega, by omega⟩, trivial, by omega, by omega, by omega⟩

/-- Calls for a part of the range that starts `k` bytes into it. -/
def Call.shift (k : ℕ) : Call → Call
  | .part blk boff pos cnt => .part blk boff (k + pos) cnt
  | .blocks blk pos n => .blocks blk (k + pos) n

theorem Call.shares_shift (k : ℕ) (c : Call) : (c.shift k).shares = c.shares.map (Share.shift k) := by
  cases c with
  | part blk boff pos cnt => rfl
  | blocks blk pos n =>
      rw [Call.shift, Call.shares, Call.shares, List.map_map]
      refine List.map_congr_left fun j _ => ?_
      rw [Function.comp_apply, Share.shift, Nat.add_assoc]

theorem Call.flatMap_shift (k : ℕ) (cs : List Call) :
    (cs.map (Call.shift k)).flatMap Call.shares = (cs.flatMap Call.shares).map (Share.shift k) := by
  induction cs with
  | nil => rfl
  | cons c cs ih =>
      rw [List.map_cons, List.flatMap_cons, List.flatMap_cons, List.map_append, ih, Call.shares_shift]

theorem headCalls_shares (off n : ℕ) (hn : 0 < n) :
    (if off % 4096 = 0 then [] else [Call.part (off / 4096) (off % 4096) 0 (headLen off n)]).flatMap
      Call.shares = shares off (headLen off n) := by
  split
  · rw [headLen, if_pos ‹_›]
    rfl
  · have hcnt : headLen off n = min (4096 - off % 4096) n := headLen_of_ne ‹_›
    rw [shares_part (by omega) (by omega) (by omega)]
    rfl

theorem bodyCalls_shares (h : n = 0 ∨ 4096 ∣ off) :
    (if 4096 ≤ n then [Call.blocks (off / 4096) 0 (n / 4096)] else []).flatMap Call.shares =
      shares off (n / 4096 * 4096) := by
  split
  · rw [shares_blocks (by omega), List.flatMap_singleton]
  · rw [show n / 4096 * 4096 = 0 by omega]
    rfl

theorem tailCalls_shares (h : n % 4096 = 0 ∨ 4096 ∣ off) :
    (if n % 4096 = 0 then [] else [Call.part (off / 4096) 0 0 (n % 4096)]).flatMap Call.shares =
      shares off (n % 4096) := by
  split
  · rw [‹n % 4096 = 0›]
    rfl
  · rw [shares_part (by omega) (by omega) (by omega), show off % 4096 = 0 by omega]
    rfl

/-- **The calls for a window.** Together they are the window, cut at its block boundaries. -/
theorem rangeCalls_shares (off : ℕ) (hn : 0 < n) :
    (rangeCalls off n).flatMap Call.shares = shares off n := by
  obtain ⟨hle, hal⟩ := headLen_spec off n
  have hhead := headCalls_shares off n hn
  rw [rangeCalls]
  generalize headLen off n = cnt at hle hal hhead ⊢
  obtain ⟨rest, rfl⟩ := Nat.exists_eq_add_of_le hle
  have hal' : rest = 0 ∨ 4096 ∣ off + cnt := hal.imp (fun h => by omega) id
  have hbody := bodyCalls_shares hal'
  have htail := @tailCalls_shares rest (off + cnt + rest / 4096 * 4096) (by omega)
  have hsplit : shares (off + cnt) rest = shares (off + cnt) (rest / 4096 * 4096) ++
      (shares (off + cnt + rest / 4096 * 4096) (rest % 4096)).map (Share.shift (rest / 4096 * 4096)) := by
    rcases hal' with rfl | hal'
    · rfl
    · rw [← shares_append _ (by omega)]
      congr 1
      omega
  have hcut : shares off (cnt + rest) =
      shares off cnt ++ (shares (off + cnt) rest).map (Share.shift cnt) := by
    rcases hal' with rfl | hal'
    · rw [shares_zero, List.map_nil, List.append_nil, Nat.add_zero]
    · exact shares_append _ hal'
  rw [hcut, hsplit, ← hhead, ← hbody, ← htail, Nat.add_sub_cancel_left, List.flatMap_append,
    List.flatMap_append, List.map_append, ← Call.flatMap_shift, ← Call.flatMap_shift,
    ← Call.flatMap_shift, List.append_assoc]
  congr 2
  · split
    · rw [List.map_singleton, Call.shift, Nat.add_zero]
    · rfl
  · split
    · rfl
    · rw [List.map_singleton, List.map_singleton, Call.shift, Call.shift, Nat.add_zero]

/-- Windows that follow one another from `a` to `b`: none is empty or larger than `iobuf`, and all but
the last end on a block boundary. -/
inductive Tiles : ℕ → List (ℕ × ℕ) → ℕ → Prop
  | nil (a : ℕ) : Tiles a [] a
  | cons {a b n : ℕ} {ws : List (ℕ × ℕ)} : 0 < n → n ≤ 262144 → (ws = [] ∨ 4096 ∣ a + n) →
      Tiles (a + n) ws b → Tiles a ((a, n) :: ws) b

theorem Tiles.le {a b : ℕ} {ws : List (ℕ × ℕ)} (h : Tiles a ws b) : a ≤ b := by
  induction h with
  | nil => exact le_rfl
  | cons _ _ _ _ ih => omega

theorem Tiles.pos {a b : ℕ} {ws : List (ℕ × ℕ)} (h : Tiles a ws b) : ∀ win ∈ ws, 0 < win.2 := by
  induction h with
  | nil => exact fun win hw => (nomatch hw)
  | cons hn _ _ _ ih => exact List.forall_mem_cons.mpr ⟨hn, ih⟩

theorem windows_tiles {fuel voff remaining : ℕ} (hf : remaining ≤ fuel)
    (hv : voff + remaining < 2 ^ 64) :
    Tiles voff (windows fuel voff remaining) (voff + remaining) := by
  induction fuel generalizing voff remaining with
  | zero =>
      obtain rfl := Nat.le_zero.mp hf
      exact .nil voff
  | succ fuel ih =>
      rw [windows]
      split
      · rename_i hz
        rw [hz]
        exact .nil voff
      · rename_i hz
        obtain ⟨hpos, hle, hbuf, hal⟩ := nextChunk_spec (show voff < 2 ^ 64 by omega)
          (Nat.pos_of_ne_zero hz)
        dsimp only
        generalize nextChunk voff remaining = chunk at hpos hle hbuf hal ⊢
        obtain ⟨rest, rfl⟩ := Nat.exists_eq_add_of_le hle
        rw [Nat.add_sub_cancel_left, Nat.mod_eq_of_lt (by omega), ← Nat.add_assoc]
        have hrest := @ih (voff + chunk) rest (by omega) (by omega)
        refine .cons hpos hbuf ?_ hrest
        rcases hal hv with hlast | hal
        · left
          obtain rfl : rest = 0 := by omega
          cases fuel <;> rfl
        · exact .inr hal

/-- **The windows of a request.** Together they are the request, cut at its block boundaries. -/
theorem Tiles.shares {a b o : ℕ} {ws : List (ℕ × ℕ)} (h : Tiles a ws b) (ho : o ≤ a) :
    ws.flatMap (fun win => (NbdVram.shares win.1 win.2).map (Share.shift (win.1 - o))) =
      (NbdVram.shares a (b - a)).map (Share.shift (a - o)) := by
  induction h with
  | nil a =>
      rw [Nat.sub_self]
      rfl
  | @cons a b n ws hn _ hal hrest ih =>
      have hle := hrest.le
      have hshift : ∀ t : Share, Share.shift (a - o) (Share.shift n t) = Share.shift (a + n - o) t := by
        intro t
        rw [Share.shift, Share.shift, Share.shift]
        dsimp only
        congr 1
        omega
      rw [List.flatMap_cons, ih (by omega)]
      rcases hal with rfl | hal
      · cases hrest
        rw [Nat.sub_self, Nat.add_sub_cancel_left, shares_zero, List.map_nil, List.append_nil]
      · rw [show b - a = n + (b - (a + n)) by omega, shares_append _ hal, List.map_append, List.map_map]
        congr 1
        refine List.map_congr_left fun t _ => ?_
        rw [Function.comp_apply, hshift]

/-- All that `handle_one` does for a range: the calls of its windows. -/
def requestShares (off len : ℕ) : List Share :=
  (windows len off len).flatMap fun win =>
    ((rangeCalls win.1 win.2).flatMap Call.shares).map (Share.shift (win.1 - off))

theorem requestShares_eq {len : ℕ} (h : off + len < 2 ^ 64) :
    requestShares off len = shares off len := by
  have ht := windows_tiles (le_refl len) h
  have hcalls : requestShares off len = (windows len off len).flatMap fun win =>
      (shares win.1 win.2).map (Share.shift (win.1 - off)) := by
    rw [requestShares, List.flatMap_def, List.flatMap_def]
    congr 1
    refine List.map_congr_left fun win hw => ?_
    rw [rangeCalls_shares win.1 (ht.pos win hw)]
  have hid : Share.shift 0 = id := funext fun t => by simp [Share.shift]
  rw [hcalls, ht.shares le_rfl, Nat.add_sub_cancel_left, Nat.sub_self, hid, List.map_id]

/-! ## One share a block -/

/-- The only one of the first `k` numbers that is `j`. -/
theorem filter_range_eq (k j : ℕ) :
    (List.range k).filter (fun i => decide (i = j)) = if j < k then [j] else [] := by
  rw [List.filter_eq, List.nodup_range.count]
  simp only [List.mem_range]
  split <;> rfl

/-- **A block that the range touches has one share, no other block has any.** -/
theorem shares_filter (off n b : ℕ) : (shares off n).filter (fun t => t.blk = b) =
    if 0 < n ∧ off / 4096 ≤ b ∧ b * 4096 < off + n then [shareOf off n b] else [] := by
  rw [shares, List.filter_map]
  show List.map _ (List.filter (fun i => decide (off / 4096 + i = b)) _) = _
  by_cases hb : off / 4096 ≤ b
  · obtain ⟨j, rfl⟩ := Nat.exists_eq_add_of_le hb
    have heq : (fun i => decide (off / 4096 + i = off / 4096 + j)) = fun i => decide (i = j) := by
      funext i
      rw [decide_eq_decide]
      omega
    rw [heq, filter_range_eq]
    rcases Nat.eq_zero_or_pos n with rfl | hn
    · simp
    · rw [if_neg (Nat.pos_iff_ne_zero.mp hn)]
      by_cases hj : j < (off + n + 4095) / 4096 - off / 4096
      · rw [if_pos hj, if_pos ⟨hn, hb, by omega⟩, List.map_singleton]
      · rw [if_neg hj, if_neg (by omega), List.map_nil]
  · have hno : ¬ (0 < n ∧ off / 4096 ≤ b ∧ b * 4096 < off + n) := fun h => hb h.2.1
    rw [if_neg hno, List.map_eq_nil_iff, List.filter_eq_nil_iff]
    intro i _ hi
    have := of_decide_eq_true hi
    omega

/-- Only at its ends does a range cover a block in part. -/
theorem shares_parts (off n : ℕ) : ((shares off n).filter (fun t => !t.whole)).length ≤ 2 := by
  rw [shares, List.filter_map, List.length_map]
  generalize hk : (if n = 0 then 0 else (off + n + 4095) / 4096 - off / 4096) = k
  have hsub : ((List.range k).filter ((fun t => !t.whole) ∘ fun i => shareOf off n (off / 4096 + i))).toFinset
      ⊆ {0, k - 1} := by
    intro i hi
    obtain ⟨hik, hw⟩ := List.mem_filter.mp (List.mem_toFinset.mp hi)
    have hik := List.mem_range.mp hik
    simp only [Function.comp_apply, shareOf, Bool.not_eq_true', decide_eq_false_iff_not] at hw
    have hends : i = 0 ∨ i = k - 1 := by
      split at hk <;> omega
    simpa using hends
  rw [← List.toFinset_card_of_nodup (List.nodup_range.filter _)]
  exact (Finset.card_le_card hsub).trans Finset.card_le_two

/-! ## The source makes these calls -/

/-- A program without its events, which stand for no action of the source. -/
def bare {α : Type} : Prog sig α → Prog sig α
  | .ret a => .ret a
  | .act (.event _) k => bare (k ())
  | .act o k => .act o fun r => bare (k r)

theorem bare_bind {α β : Type} (p : Prog sig α) (f : α → Prog sig β) :
    bare (p >>= f) = bare p >>= fun a => bare (f a) := by
  induction p with
  | ret a => rfl
  | act o k ih =>
      cases o with
      | event e => exact ih ()
      | _ => exact congrArg (Prog.act _) (funext ih)

theorem bare_access {α : Type} (a : Access) (f : Unit → Prog sig α) :
    bare (access a >>= f) = bare (f ()) := rfl

/-- The call on behalf of `store_range`. -/
def Call.store (cfg : Config) (src : Ptr) (m : Mem) : Call → Prog sig (Err × Mem)
  | .part blk boff pos cnt => rmwBlock cfg blk boff (src.add pos) cnt m
  | .blocks blk pos n => storeBlocks cfg blk (src.add pos) n m

/-- The call on behalf of `load_range`. -/
def Call.load (cfg : Config) (dst : Ptr) (m : Mem) : Call → Prog sig (Err × Mem)
  | .part blk boff pos cnt => loadPart cfg blk boff (dst.add pos) cnt m
  | .blocks blk pos n => loadBlocks cfg blk (dst.add pos) n m

/-- All of `cs`, whatever becomes of them. -/
def storeCalls (cfg : Config) (src : Ptr) : List Call → Err → Mem → Prog sig (Err × Mem)
  | [], err, m => pure (err, m)
  | c :: cs, err, m => do
    let r ← c.store cfg src m
    storeCalls cfg src cs (err.merge r.1) r.2

/-- All of `cs` up to one that fails. -/
def loadCalls (cfg : Config) (dst : Ptr) : List Call → Mem → Prog sig (Err × Mem)
  | [], m => pure (.ok, m)
  | c :: cs, m => do
    let r ← c.load cfg dst m
    if r.1 ≠ .ok then pure (.eio, r.2) else loadCalls cfg dst cs r.2

theorem storeCalls_append (src : Ptr) (cs cs' : List Call) (err : Err) (m : Mem) :
    storeCalls cfg src (cs ++ cs') err m =
      storeCalls cfg src cs err m >>= fun r => storeCalls cfg src cs' r.1 r.2 := by
  induction cs generalizing err m with
  | nil => rfl
  | cons c cs ih => simp only [List.cons_append, storeCalls, bind_assoc, ih]

theorem Ptr.add_add (p : Ptr) (a b : ℕ) : (p.add a).add b = p.add (a + b) := by
  simp only [Ptr.add, Nat.add_assoc]

theorem storeHead_calls (src : Ptr) (off n : ℕ) (m : Mem) :
    storeHead cfg off src n m = storeCalls cfg src
      (if off % 4096 = 0 then [] else [.part (off / 4096) (off % 4096) 0 (headLen off n)]) .ok m := by
  rw [storeHead]
  split
  · rfl
  · simp only [storeCalls, Call.store, Err.merge_ok_left]
    exact (bind_ret _).symm

theorem storeBody_calls (src : Ptr) (off n pos : ℕ) (err : Err) (m : Mem) :
    (bare (storeBody cfg off (src.add pos) n m) >>= fun r => pure (err.merge r.1, r.2)) =
      bare (storeCalls cfg src (if 4096 ≤ n then [.blocks (off / 4096) pos (n / 4096)] else []) err m) := by
  rw [storeBody]
  split
  · rw [bare_access, storeCalls, bare_bind]
    rfl
  · simp only [storeCalls, bare, pure_eq, ret_bind, Err.merge_ok_right]

/-- **`store_range`** makes the calls of `rangeCalls`. -/
theorem storeRange_calls (src : Ptr) (off n : ℕ) (m : Mem) :
    bare (storeRange cfg off src n m) = bare (storeCalls cfg src (rangeCalls off n) .ok m) := by
  rw [rangeCalls, storeCalls_append, storeCalls_append, storeRange, storeHead_calls, bind_assoc,
    bare_bind, bare_bind]
  congr 1
  funext head
  rw [bare_access, bare_bind, bare_bind, ← storeBody_calls, bind_assoc]
  congr 1
  funext mid
  rw [pure_eq, ret_bind]
  split
  · rfl
  · simp only [storeCalls, Call.store, Ptr.add_add]

theorem loadCalls_append (dst : Ptr) (cs cs' : List Call) (m : Mem) :
    loadCalls cfg dst (cs ++ cs') m = loadCalls cfg dst cs m >>= fun r =>
      if r.1 ≠ .ok then pure (.eio, r.2) else loadCalls cfg dst cs' r.2 := by
  induction cs generalizing m with
  | nil => rfl
  | cons c cs ih =>
      simp only [List.cons_append, loadCalls, bind_assoc]
      congr 1
      funext r
      split
      · rfl
      · exact ih r.2

/-- What follows a load that has not failed. -/
def unlessFailed (f : Mem → Prog sig (Err × Mem)) (r : Err × Mem) : Prog sig (Err × Mem) :=
  if r.1 ≠ .ok then pure (.eio, r.2) else f r.2

theorem loadCalls_one (dst : Ptr) (c : Call) (m : Mem) (f : Mem → Prog sig (Err × Mem)) :
    loadCalls cfg dst [c] m >>= unlessFailed f = c.load cfg dst m >>= unlessFailed f := by
  simp only [loadCalls, bind_assoc]
  congr 1
  funext r
  by_cases hr : r.1 ≠ .ok
  · rw [if_pos hr, unlessFailed, if_pos hr]
    rfl
  · rw [if_neg hr, unlessFailed, if_neg hr]
    rfl

theorem loadPart_calls (dst : Ptr) (blk boff pos cnt : ℕ) (m : Mem) :
    loadCalls cfg dst [.part blk boff pos cnt] m = loadPart cfg blk boff (dst.add pos) cnt m := by
  simp only [loadCalls, Call.load, loadPart, bind_assoc]
  congr 1
  funext r
  split
  · rfl
  · rfl

theorem loadBody_calls (dst : Ptr) (off n pos : ℕ) (m : Mem) (f : Mem → Prog sig (Err × Mem)) :
    bare (loadBody cfg off (dst.add pos) n m >>= unlessFailed f) = bare (loadCalls cfg dst
      (if 4096 ≤ n then [.blocks (off / 4096) pos (n / 4096)] else []) m >>= unlessFailed f) := by
  by_cases hn : 4096 ≤ n
  · have hbody : loadBody cfg off (dst.add pos) n m = access (.window n (n / 4096)) >>= fun _ =>
        loadBlocks cfg (off / 4096) (dst.add pos) (n / 4096) m := if_pos hn
    rw [if_pos hn, loadCalls_one, hbody, bind_assoc, bare_access]
    rfl
  · have hbody : loadBody cfg off (dst.add pos) n m = pure (.ok, m) := if_neg hn
    rw [if_neg hn, hbody]
    rfl

/-- **`load_range`** makes the calls of `rangeCalls`. -/
theorem loadRange_calls (dst : Ptr) (off n : ℕ) (m : Mem) :
    bare (loadRange cfg off dst n m) = bare (loadCalls cfg dst (rangeCalls off n) m) := by
  have hhead : loadHead cfg off dst n m = loadCalls cfg dst
      (if off % 4096 = 0 then [] else [.part (off / 4096) (off % 4096) 0 (headLen off n)]) m := by
    rw [loadHead]
    split
    · rfl
    · exact (loadPart_calls dst _ _ 0 _ m).symm
  rw [rangeCalls, List.append_assoc, loadCalls_append, loadRange, hhead, bare_bind, bare_bind]
  congr 1
  funext head
  by_cases hr : head.1 ≠ .ok
  · rw [if_pos hr, if_pos hr]
  rw [if_neg hr, if_neg hr, bare_access, loadCalls_append]
  have hbody := @loadBody_calls cfg dst (off + headLen off n) (n - headLen off n) (headLen off n) head.2
    fun m => if (n - headLen off n) % 4096 = 0 then pure (.ok, m)
      else loadPart cfg ((off + headLen off n + (n - headLen off n) / 4096 * 4096) / 4096) 0
        ((dst.add (headLen off n)).add ((n - headLen off n) / 4096 * 4096)) ((n - headLen off n) % 4096) m
  refine hbody.trans ?_
  congr 2
  funext mid
  rw [unlessFailed]
  congr 1
  split
  · rfl
  · rw [loadPart_calls, Ptr.add_add]

/-- A WRITE's payload, window by window: each is received and, as long as none has failed, stored. -/
def writeWindows (cfg : Config) : List (ℕ × ℕ) → Written → Prog sig Written
  | [], x => pure x
  | win :: ws, x => do
    let r ← recvAll win.2
    let m := x.mem.write ⟨.iobuf, 0⟩ r.2
    if r.1 = false then pure ⟨false, x.error, x.data ++ r.2, m⟩
    else
      let y ← if x.error = .ok then storeCalls cfg ⟨.iobuf, 0⟩ (rangeCalls win.1 win.2) .ok m
        else pure (.ok, m)
      writeWindows cfg ws ⟨true, x.error.merge y.1, x.data ++ r.2, y.2⟩

/-- A READ's data, window by window: each is loaded and sent. -/
def readWindows (cfg : Config) : List (ℕ × ℕ) → Mem → Prog sig (Bool × Mem)
  | [], m => pure (true, m)
  | win :: ws, m => do
    let x ← loadCalls cfg ⟨.iobuf, 0⟩ (rangeCalls win.1 win.2) m
    if x.1 ≠ .ok then pure (false, x.2)
    else
      let ok ← sendAll (x.2.read ⟨.iobuf, 0⟩ win.2)
      if ok = false then pure (false, x.2) else readWindows cfg ws x.2

theorem bare_nextWindow {α : Type} (voff remaining : ℕ) (f : ℕ → Prog sig α) :
    bare (nextWindow voff remaining >>= f) = bare (f (nextChunk voff remaining)) := by
  have hend : bare (endAccess voff remaining) = .ret () := by
    rw [endAccess]
    split <;> split <;> rfl
  rw [nextWindow, bare_bind, bare_bind, hend]
  rfl

/-- **The loop of a WRITE** goes through `windows`. -/
theorem writeLoop_windows (fuel voff remaining : ℕ) (x : Written) :
    bare (writeLoop cfg fuel voff remaining x) =
      bare (writeWindows cfg (windows fuel voff remaining) x) := by
  induction fuel generalizing voff remaining x with
  | zero => rfl
  | succ fuel ih =>
      rw [writeLoop, windows]
      split
      · rfl
      rw [bare_nextWindow]
      dsimp only
      rw [writeWindows, bare_bind, bare_bind]
      congr 1
      funext r
      dsimp only
      split
      · rfl
      split
      · rw [bare_bind, bare_bind, storeRange_calls]
        congr 1
        funext y
        exact ih _ _ _
      · exact ih _ _ _

/-- **The loop of a READ** goes through `windows`. -/
theorem readLoop_windows (r : Req) (fuel voff remaining : ℕ) (m : Mem) :
    bare (readLoop cfg r fuel voff remaining m) =
      bare (readWindows cfg (windows fuel voff remaining) m) := by
  induction fuel generalizing voff remaining m with
  | zero => rfl
  | succ fuel ih =>
      rw [readLoop, windows]
      split
      · rfl
      rw [bare_nextWindow]
      dsimp only
      rw [readWindows, bare_bind, bare_bind, loadRange_calls]
      congr 1
      funext z
      split
      · rfl
      · have hevent : ∀ (e : Event) (f : Unit → Prog sig (Bool × Mem)),
            bare (event e >>= f) = bare (f ()) := fun _ _ => rfl
        rw [hevent, bare_bind, bare_bind]
        congr 1
        funext ok
        split
        · rfl
        · exact ih _ _ _

theorem storeLoop_zero (fuel blk : ℕ) (src : Ptr) (err : Err) (m : Mem) :
    storeLoop cfg fuel blk src 0 err m = pure (err, m) := by
  cases fuel with
  | zero => rfl
  | succ fuel => exact if_pos rfl

theorem loadLoop_zero (fuel blk : ℕ) (dst : Ptr) (m : Mem) :
    loadLoop cfg fuel blk dst 0 m = pure (.ok, m) := by
  cases fuel with
  | zero => rfl
  | succ fuel => exact if_pos rfl

/-- The whole blocks of a window of `iobuf` are one window of ops. -/
theorem window_fits (cfg : Config) (h : n ≤ 64) : cfg.window n = n := by
  have := le_maxops cfg
  exact if_neg (by omega)

/-- `store_blocks` of blocks that fit one window of ops: op `j` writes block `blk + j`. -/
theorem storeBlocks_ops (blk : ℕ) (src : Ptr) (m : Mem) (hn : 0 < n) (hle : n ≤ 64) :
    bare (storeBlocks cfg blk src n m) = bare (do
      let m ← forRange n (wrPrepare cfg) (m.setOps 0 n blk .write src 0)
      let m ← doBlocks cfg n m
      pure (m.mergeErr n .ok, m)) := by
  have hwin := window_fits cfg hle
  obtain ⟨k, rfl⟩ := Nat.exists_eq_succ_of_ne_zero (Nat.pos_iff_ne_zero.mp hn)
  rw [storeBlocks, storeLoop, if_neg (Nat.succ_ne_zero k), hwin]
  simp only [Nat.sub_self, storeLoop_zero]
  rfl

/-- The same for `load_blocks`. -/
theorem loadBlocks_ops (blk : ℕ) (dst : Ptr) (m : Mem) (hn : 0 < n) (hle : n ≤ 64) :
    bare (loadBlocks cfg blk dst n m) = bare (do
      let m ← forRange n rdPrepare (m.setOps 0 n blk .read dst 0)
      let m ← doBlocks cfg n m
      if ∃ i < n, (m.ops i).err ≠ .ok then pure (.eio, m) else pure (.ok, m)) := by
  have hwin := window_fits cfg hle
  obtain ⟨k, rfl⟩ := Nat.exists_eq_succ_of_ne_zero (Nat.pos_iff_ne_zero.mp hn)
  rw [loadBlocks, loadLoop, if_neg (Nat.succ_ne_zero k), hwin]
  simp only [Nat.sub_self, loadLoop_zero]
  rfl

/-- The whole blocks of a window are few enough for that. -/
theorem Tiles.blocks_le {a b blk pos : ℕ} {ws : List (ℕ × ℕ)} (h : Tiles a ws b) {win : ℕ × ℕ}
    (hw : win ∈ ws) (hc : .blocks blk pos n ∈ rangeCalls win.1 win.2) : 0 < n ∧ n ≤ 64 := by
  have hbuf : win.2 ≤ 262144 := by
    induction h with
    | nil => cases hw
    | cons _ hle _ _ ih =>
        rcases List.mem_cons.mp hw with rfl | hw
        · exact hle
        · exact ih hw
  rw [rangeCalls] at hc
  rcases List.mem_append.mp hc with hc | hc
  · rcases List.mem_append.mp hc with hc | hc
    · split at hc
      · cases hc
      · cases List.mem_singleton.mp hc
    · split at hc
      · cases List.mem_singleton.mp hc
        omega
      · cases hc
  · split at hc
    · cases hc
    · cases List.mem_singleton.mp hc

/-! ## One publish a block -/

/-- A range inside one block. -/
theorem shares_one (hn : 0 < n) (hle : off % 4096 + n ≤ 4096) :
    shares off n = [shareOf off n (off / 4096)] := by
  have hcount : (off + n + 4095) / 4096 - off / 4096 = 1 := by omega
  rw [shares_pos hn, hcount]
  rfl

/-- The bytes of the range `l` at `off` that a share stands for. -/
def Share.piece (l : List UInt8) (t : Share) : Piece :=
  (t.blk * 4096 + t.boff, (l.drop t.pos).take t.cnt)

theorem Share.piece_one {l : List UInt8} (hle : off % 4096 + n ≤ 4096) :
    (shareOf off n (off / 4096)).piece l = (off, l.take n) := by
  have hboff : off / 4096 * 4096 + (off - off / 4096 * 4096) = off := by omega
  have hcnt : min (off + n) (off / 4096 * 4096 + 4096) - max off (off / 4096 * 4096) = n := by omega
  have hpos : off / 4096 * 4096 - off = 0 := by omega
  rw [Share.piece, shareOf, hboff, hcnt, hpos, List.drop_zero]

theorem Share.piece_shift (k : ℕ) (l : List UInt8) (t : Share) :
    (t.shift k).piece l = t.piece (l.drop k) := by
  rw [Share.piece, Share.piece, Share.shift, List.drop_drop]

/-- What is cut from a range are its shares. -/
theorem chop_shares (off : ℕ) (l : List UInt8) :
    chop off l = (shares off l.length).map (Share.piece l) := by
  induction off, l using chop_induct with
  | h0 off => rw [chop_nil, List.length_nil, shares_zero, List.map_nil]
  | h1 off l hl ih =>
      have hpos := List.length_pos_of_ne_nil hl
      have hmod := Nat.mod_lt off (show 4096 > 0 by decide)
      rw [chop_cons hl, ih]
      rcases Nat.le_total l.length (4096 - off % 4096) with hle | hle
      · rw [List.drop_eq_nil_of_le hle, List.length_nil, shares_zero, List.map_nil,
          shares_one hpos (by omega), List.map_singleton, Share.piece_one (by omega),
          List.take_of_length_le hle, List.take_length]
      · have hcut : shares off l.length = shares off (4096 - off % 4096) ++
            (shares (off + (4096 - off % 4096)) (l.length - (4096 - off % 4096))).map
              (Share.shift (4096 - off % 4096)) := by
          rw [← shares_append _ (by omega), Nat.add_sub_cancel' hle]
        have hhead : shares off (4096 - off % 4096) =
            [shareOf off (4096 - off % 4096) (off / 4096)] := shares_one (by omega) (by omega)
        rw [hcut, hhead, List.map_append, List.map_singleton, Share.piece_one (by omega), List.map_map,
          List.length_drop, List.singleton_append]
        congr 1
        refine List.map_congr_left fun t _ => ?_
        rw [Function.comp_apply, Share.piece_shift]

theorem mem_shares {t : Share} (ht : t ∈ shares off n) :
    0 < n ∧ off / 4096 ≤ t.blk ∧ t.blk * 4096 < off + n ∧ t = shareOf off n t.blk := by
  have hmem : t ∈ (shares off n).filter (fun t' => t'.blk = t.blk) :=
    List.mem_filter.mpr ⟨ht, decide_eq_true rfl⟩
  rw [shares_filter] at hmem
  split at hmem
  · rename_i h
    exact ⟨h.1, h.2.1, h.2.2, List.mem_singleton.mp hmem⟩
  · cases hmem

theorem Share.blk_piece {t : Share} {l : List UInt8} (ht : t ∈ shares off n) :
    Piece.blk (t.piece l) = t.blk := by
  obtain ⟨-, hb, -, heq⟩ := mem_shares ht
  have hboff : t.boff = off - t.blk * 4096 := congrArg Share.boff heq
  rw [Piece.blk, Share.piece, hboff]
  omega

theorem shares_blk_piece (l : List UInt8) :
    ((shares off n).map (Share.piece l)).map Piece.blk = (shares off n).map Share.blk := by
  rw [List.map_map]
  exact List.map_congr_left fun t ht => Share.blk_piece ht

theorem shares_nodup (off n : ℕ) : ((shares off n).map Share.blk).Nodup := by
  rw [shares, List.map_map]
  exact List.nodup_range.map fun i j h => Nat.add_left_cancel h

/-- The pieces of a script are put one by one. -/
theorem own_pieces {i : ℕ} {ps : List Piece} {d : Disk} {log : List Mut}
    (h : Lin Mut.who Mut.app w d (ps.map (Piece.wrote cfg md i)) log) :
    (log.filter fun m => m.who = w).map Mut.blk = ps.map Piece.blk := by
  have hmap : ps.map (Piece.wrote cfg md i) = (ps.map fun p m d => m.req = i ∧ m.blk = p.1 / 4096 ∧
      (md.Stores cfg → Mut.app m d = splice d p.1 p.2)).map Item.put := by
    rw [List.map_map]
    rfl
  rw [hmap] at h
  have hown := h.own
  generalize (log.filter fun m => m.who = w) = ms at hown ⊢
  clear h hmap
  induction ps generalizing ms with
  | nil =>
      cases hown
      rfl
  | cons p ps ih =>
      cases hown with
      | cons hc hrest =>
          obtain ⟨-, -, hb, -⟩ := hc
          rw [List.map_cons, List.map_cons, ih _ hrest, hb]
          rfl

/-- What was received is one WRITE. -/
theorem single_write {ds : List Done} {raw raw' rest : List UInt8} {r : Req} (hf : Frame raw r)
    (hfs : Frames raw' (ds.map Done.req)) (hrest : rest = [] ∨ DiscHdr rest) (heq : raw = raw' ++ rest) :
    ds.map Done.req = [r] ∧ rest = [] := by
  have h1 : parse (raw ++ []) = ([r] ++ (parse []).1, (parse []).2) := (Frames.one hf).parse
  have h2 : parse (raw' ++ rest) = (ds.map Done.req ++ (parse rest).1, (parse rest).2) := hfs.parse
  have hrest' : parse rest = ([], rest) := by
    rcases hrest with rfl | hd
    · exact parse_nil
    · exact hd.parse
  rw [List.append_nil, heq, h2, parse_nil, hrest', Prod.mk.injEq, List.append_nil, List.append_nil] at h1
  exact h1

/-- **A WRITE is published block by block, and each block at once.** -/
theorem Daemon.Run.write_once {S S' : Daemon cfg} (hcodec : cfg.codec.RoundTrip)
    (h : Daemon.Reachable cfg .flawless S) (hrun : Daemon.Run cfg .flawless S S') {ph ph' : Phase}
    (hw : S.prog w = .ret ph) (hw' : S'.prog w = .ret ph') (hk : ph'.Kept)
    (hconn : (S'.st.priv w).net.conn = (S.st.priv w).net.conn) {raw : List UInt8} {r : Req}
    (hf : Frame raw r) (hc : r.cmd = .write) (ho : ¬ r.Oob cfg)
    (hgot : (S'.st.priv w).net.got = (S.st.priv w).net.got ++ raw) :
    (S'.st.priv w).net.out = (S.st.priv w).net.out ++ respHdr .ok r.handle ∧
    ∃ new, S'.st.log = S.st.log ++ new ∧
      (new.filter fun m => m.who = w).map Mut.blk = (shares r.off r.len).map Share.blk ∧
      (∀ pre m post, new = pre ++ m :: post → m.who = w → ∃ t ∈ shares r.off r.len, m.blk = t.blk ∧
        disk (S.st.log ++ pre ++ [m]) =
          splice (disk (S.st.log ++ pre)) (t.piece r.data).1 (t.piece r.data).2) ∧
      ∀ (T : Daemon cfg) (b : ℕ), Daemon.Run cfg .flawless S T → Daemon.Run cfg .flawless T S' →
        T.st.content cfg b = pageOf (disk T.st.log) b ∧ ∃ pre, pre <+: new ∧
          T.st.log = S.st.log ++ pre ∧ (pre.filter fun m => m.who = w ∧ m.blk = b).length ≤ 1 := by
  obtain ⟨ds, effs, raw', rest, hfs, hrest, htk, hok, heff, new, hlog, hlin⟩ :=
    h.between rfl hw hrun hw' hconn fun _ => hk
  have hraw : raw = raw' ++ rest := List.append_cancel_left (hgot.symm.trans htk.got)
  obtain ⟨hreq, -⟩ := single_write hf hfs hrest hraw
  obtain ⟨d, rfl, rfl⟩ := List.map_eq_singleton_iff.mp hreq
  cases heff with
  | @cons _ is _ effs he hnil =>
  cases hnil
  have hst : Mode.flawless.Stores cfg := ⟨rfl, hcodec⟩
  have hdok := hok d List.mem_cons_self
  have herr : d.err = .ok := hdok.ok hst (fun hr => by rw [hr] at hc; cases hc) rfl rfl ho
  have hlen : d.req.data.length = d.req.len := hf.data hc
  cases he with
  | refused hb => exact absurd hb ho
  | other hnw _ => exact absurd hc hnw
  | trimmed its _ ht _ =>
      rw [ht] at hc
      cases hc
  | wrote i sub _ _ _ hall =>
  obtain rfl := hall herr
  have hout : d.out = [] := by
    have hl := hdok.out
    rw [if_neg (by rw [hc]; simp)] at hl
    exact List.length_eq_zero_iff.mp hl
  simp only [List.flatten_cons, List.flatten_nil, List.append_nil] at hlin
  have hblks := own_pieces hlin
  rw [chop_shares, hlen, shares_blk_piece] at hblks
  refine ⟨?_, new, hlog, hblks, fun pre m post hsplit hm => ?_, fun T b hT hT' => ?_⟩
  · rw [htk.out, List.flatMap_singleton, Done.reply, herr, hout, List.append_nil]
  · rw [hsplit] at hlin
    obtain ⟨c, hcm, hcond⟩ := hlin.put_of_split hm
    obtain ⟨p, hp, heq⟩ := List.mem_map.mp hcm
    cases heq
    obtain ⟨-, hb, happ⟩ := hcond
    rw [chop_shares, hlen] at hp
    obtain ⟨t, ht, rfl⟩ := List.mem_map.mp hp
    refine ⟨t, ht, hb.trans (Share.blk_piece ht), ?_⟩
    rw [disk_append, disk_append]
    exact happ hst
  · have hreach : Daemon.Reachable cfg .flawless T := h.imp fun _ h0 => ⟨h0.1, h0.2.trans hT⟩
    have hi : Inv cfg .flawless T.st := hreach.inv rfl
    obtain ⟨pre, hpre⟩ := hT.instant.1
    have hle : pre <+: new := by
      have h2 := hT'.instant.1
      rwa [hlog, ← hpre, List.prefix_append_right_inj] at h2
    refine ⟨hi.content b, pre, hle, hpre.symm, ?_⟩
    calc (pre.filter fun m => m.who = w ∧ m.blk = b).length
        ≤ (new.filter fun m => m.who = w ∧ m.blk = b).length := (hle.sublist.filter _).length_le
      _ = ((new.filter fun m => m.who = w).map Mut.blk).count b := by
          rw [List.count, List.countP_map, List.countP_filter, List.countP_eq_length_filter]
          refine congrArg List.length (List.filter_congr fun m _ => ?_)
          rw [Function.comp_apply, Bool.decide_and, Bool.and_comm]
          rfl
      _ ≤ 1 := by
          rw [hblks]
          exact List.nodup_iff_count_le_one.mp (shares_nodup _ _) b

/-- **Each block is touched once.** For every range that lies on the device, the loop of a WRITE
receives and stores, and the loop of a READ loads and sends, exactly the windows of the range, which
follow one another from its start to its end; with the calls that each window makes, a block that the
range covers wholly is written by one op of `store_blocks`, one that it covers in part by one
`rmw_block` for exactly these bytes, at most two for a request, and no other block is touched; a READ
loads the same blocks, each once; and the block ops of a call are the blocks it names. So, when no
`slot_alloc` and no CUDA call fails, whatever the other workers do, a WRITE is answered 0 after it has
mutated each of its blocks once, by all its bytes in the block at once, and in no state of the run does
a block hold only some of them. -/
theorem blocks_touched_once (hcodec : cfg.codec.RoundTrip) :
    (∀ off len, off + len ≤ cfg.diskSize →
      (∀ x, bare (writeLoop cfg len off len x) = bare (writeWindows cfg (windows len off len) x)) ∧
      (∀ r m, bare (readLoop cfg r len off len m) =
        bare (readWindows cfg (windows len off len) m)) ∧
      Tiles off (windows len off len) (off + len) ∧
      requestShares off len = shares off len ∧
      (∀ b, (requestShares off len).filter (fun t => t.blk = b) =
        if 0 < len ∧ off / 4096 ≤ b ∧ b * 4096 < off + len then [shareOf off len b] else []) ∧
      ((requestShares off len).filter (fun t => !t.whole)).length ≤ 2 ∧
      ∀ win ∈ windows len off len, ∀ blk pos n, .blocks blk pos n ∈ rangeCalls win.1 win.2 →
        (∀ src m, bare (storeBlocks cfg blk src n m) = bare (do
          let m ← forRange n (wrPrepare cfg) (m.setOps 0 n blk .write src 0)
          let m ← doBlocks cfg n m
          pure (m.mergeErr n .ok, m))) ∧
        ∀ dst m, bare (loadBlocks cfg blk dst n m) = bare (do
          let m ← forRange n rdPrepare (m.setOps 0 n blk .read dst 0)
          let m ← doBlocks cfg n m
          if ∃ i < n, (m.ops i).err ≠ .ok then pure (.eio, m) else pure (.ok, m))) ∧
    ∀ (w : ℕ) (S S' : Daemon cfg) (ph ph' : Phase) (raw : List UInt8) (r : Req),
      Daemon.Reachable cfg .flawless S → Daemon.Run cfg .flawless S S' → S.prog w = .ret ph →
      S'.prog w = .ret ph' → ph'.Kept → (S'.st.priv w).net.conn = (S.st.priv w).net.conn →
      Frame raw r → r.cmd = .write → ¬ r.Oob cfg →
      (S'.st.priv w).net.got = (S.st.priv w).net.got ++ raw →
      (S'.st.priv w).net.out = (S.st.priv w).net.out ++ respHdr .ok r.handle ∧
      ∃ new, S'.st.log = S.st.log ++ new ∧
        (new.filter fun m => m.who = w).map Mut.blk = (shares r.off r.len).map Share.blk ∧
        (∀ pre m post, new = pre ++ m :: post → m.who = w → ∃ t ∈ shares r.off r.len, m.blk = t.blk ∧
          disk (S.st.log ++ pre ++ [m]) =
            splice (disk (S.st.log ++ pre)) (t.piece r.data).1 (t.piece r.data).2) ∧
        ∀ (T : Daemon cfg) (b : ℕ), Daemon.Run cfg .flawless S T → Daemon.Run cfg .flawless T S' →
          T.st.content cfg b = pageOf (disk T.st.log) b ∧ ∃ pre, pre <+: new ∧
            T.st.log = S.st.log ++ pre ∧ (pre.filter fun m => m.who = w ∧ m.blk = b).length ≤ 1 := by
  refine ⟨fun off len hle => ?_, fun w S S' ph ph' raw r h hrun hw hw' hk hconn hf hc ho hgot =>
    hrun.write_once hcodec h hw hw' hk hconn hf hc ho hgot⟩
  have hlt := cfg.disk_lt
  have hbound : off + len < 2 ^ 64 := by omega
  have htiles := windows_tiles (le_refl len) hbound
  have heq := requestShares_eq hbound
  refine ⟨writeLoop_windows len off len, fun r => readLoop_windows r len off len, htiles, heq,
    fun b => ?_, ?_, fun win hwin blk pos n hcall => ?_⟩
  · rw [heq, shares_filter]
  · rw [heq]
    exact shares_parts off len
  · obtain ⟨hn, hle⟩ := htiles.blocks_le hwin hcall
    exact ⟨fun src m => storeBlocks_ops blk src m hn hle, fun dst m => loadBlocks_ops blk dst m hn hle⟩

/-- A worker that has just got a client. -/
def Daemon.connected : Daemon smallConfig :=
  Daemon.drive 0 [.client byteWrite, .plain] (Daemon.booted smallConfig)

/-- The same worker when it has answered the WRITE of one byte. -/
def Daemon.answered : Daemon smallConfig :=
  Daemon.drive 0 (List.replicate 27 .plain) Daemon.connected

theorem Daemon.connected_reachable : Daemon.Reachable smallConfig .flawless Daemon.connected :=
  ⟨_, ⟨State.boot_initial smallConfig, fun _ => .inr ⟨.blank, rfl⟩⟩,
    Daemon.drive_calm rfl (Mode.flawless_solo 0) _ _ (by decide)⟩

set_option maxRecDepth 100000 in
theorem blocks_touched_once_answered :
    requestShares 0 1 = [⟨false, 0, 0, 1, 0⟩] ∧
      ∃ new, Daemon.answered.st.log = Daemon.connected.st.log ++ new ∧
        (new.filter fun m => m.who = 0).map Mut.blk = [0] := by
  have hcalm : Daemon.calm 0 (List.replicate 27 .plain) Daemon.connected = true := by decide
  have hrun : Daemon.Run smallConfig .flawless Daemon.connected Daemon.answered :=
    Daemon.drive_calm rfl (Mode.flawless_solo 0) _ _ hcalm
  have hopen : (Daemon.answered.phase 0).open = true := rfl
  obtain ⟨ph, hp⟩ := Daemon.resting_iff.mp (show Daemon.connected.resting 0 = true from rfl)
  obtain ⟨ph', hp'⟩ := Daemon.resting_iff.mp (show Daemon.answered.resting 0 = true from rfl)
  rw [Daemon.phase_eq hp'] at hopen
  have hframe : Frame byteWrite ((parseHdr (byteWrite.take 28)).req (byteWrite.drop 28)) :=
    ⟨by decide, by decide, by decide, by decide, rfl⟩
  obtain ⟨hall, honce⟩ := @blocks_touched_once smallConfig (fun h => absurd rfl h)
  obtain ⟨-, new, hlog, hblk, -⟩ := honce 0 Daemon.connected Daemon.answered ph ph' byteWrite _
    Daemon.connected_reachable hrun hp hp' (.inl hopen) rfl hframe rfl (by decide) rfl
  refine ⟨?_, new, hlog, hblk⟩
  rw [(hall 0 1 (by decide)).2.2.2.1]
  rfl

end NbdVram
