import NbdVram.AllocFragment
import NbdVram.GapCheck
import NbdVram.Startup
import NbdVram.Lib.Latch
import Mathlib.Order.CompletePartialOrder

/-!
# What the daemon tells about its heap

Beside the line of `stats_log` the statistics thread prints where the partial
extents sit, which `extents_log` counts in one pass over the extents, and once a
second it looks whether the heap is about to be full, or full of holes. Both
warnings are latches: they speak once, and again only after the heap has recovered.
-/

namespace NbdVram

namespace Report

open Alloc GapCheck

/-! ## The extents line -/

/-- Subtraction of two `uint32_t`. -/
def sub32 (a b : ℕ) : ℕ := (a + 2 ^ 32 - b) % 2 ^ 32

theorem sub32_of_le {a b : ℕ} (h : b ≤ a) (ha : a < 2 ^ 32) : sub32 a b = a - b := by
  unfold sub32
  omega

/-- `ext_bin`: the fullness bucket of an extent, 0 for the fullest. -/
def extBin (e : ExtentBody) : ℕ :=
  let q := sub32 e.nslots e.nfree * 4 % 2 ^ 32 / e.nslots
  let q := if 4 ≤ q then 3 else q
  3 - q

/-- The variables of the loop in `extents_log`; `partly` is its `partial`. -/
structure Tally where
  bin : ℕ → ℕ
  used : ℕ
  partly : ℕ
  classes : ℕ
  clsSeen : ℕ → Bool

/-- One round of the loop. -/
def Tally.extent (t : Tally) (e : ExtentBody) : Tally :=
  if e.used = false then t
  else
    let t := { t with used := t.used + 1 }
    if e.nfree = 0 then t
    else
      let t := { t with
        partly := t.partly + 1
        bin := Function.update t.bin (extBin e) (t.bin (extBin e) + 1) }
      if t.clsSeen e.cls = false then
        { t with clsSeen := Function.update t.clsSeen e.cls true, classes := t.classes + 1 }
      else t

/-- The loop over the first `n` extents. -/
def tally (a : Alloc) (n : ℕ) : Tally :=
  (List.range n).foldl (fun t i => t.extent (a.ext i).toExtentBody)
    ⟨fun _ => 0, 0, 0, 0, fun _ => false⟩

/-- The label and the count of bucket `b`. -/
def binText (t : Tally) (b : ℕ) : List Char :=
  let lo := (4 - 1 - b) * 100 / 4
  (if b = 0 then [] else " | ".toList) ++ dec lo ++ "-".toList ++ dec (lo + 100 / 4) ++ "% ".toList ++
    dec (t.bin b)

/-- The text of `extents_log`. The histogram is shorter than the buffer it is put together in. -/
def extentsLog (H : Heap) (tag : GapCheck.Tag) (a : Alloc) : List Char :=
  let t := tally a H.nExtents
  "[nbd-vram] ".toList ++ tag.text ++ " extents: ".toList ++ dec t.used ++ " used = ".toList ++
    dec (sub32 t.used t.partly) ++ " full + ".toList ++ dec t.partly ++ " partial | free ".toList ++
    dec (sub32 H.nExtents t.used) ++ " | classes ".toList ++ dec t.classes ++
    " | partial by fullness: ".toList ++ ((List.range 4).map (binText t)).flatten ++ "\n".toList

variable {H : Heap} {a : Alloc} {ls : Option ℕ → List ℕ} {m : Moment} {ms : List Moment} {n : ℕ}

/-- The partial extents among the first `n`. -/
def partialSet (a : Alloc) (n : ℕ) : Finset ℕ :=
  (Finset.range n).filter fun e => (a.ext e).used = true ∧ (a.ext e).nfree ≠ 0

theorem partialSet_succ (a : Alloc) (n : ℕ) : partialSet a (n + 1) =
    if (a.ext n).used = true ∧ (a.ext n).nfree ≠ 0 then insert n (partialSet a n)
    else partialSet a n := by
  rw [partialSet, Finset.range_add_one, Finset.filter_insert, partialSet]

theorem notMem_partialSet (a : Alloc) (n : ℕ) : n ∉ partialSet a n := by
  simp [partialSet]

/-- What the loop has counted after `n` extents. -/
structure Counted (a : Alloc) (n : ℕ) (t : Tally) : Prop where
  used : t.used = ((Finset.range n).filter fun e => (a.ext e).used = true).card
  partly : t.partly = (partialSet a n).card
  bin : ∀ b, t.bin b = ((partialSet a n).filter fun e => extBin (a.ext e).toExtentBody = b).card
  seen : ∀ c, t.clsSeen c = true ↔ c ∈ (partialSet a n).image fun e => (a.ext e).cls
  classes : t.classes = ((partialSet a n).image fun e => (a.ext e).cls).card

theorem Counted.extent {t : Tally} (h : Counted a n t) :
    Counted a (n + 1) (t.extent (a.ext n).toExtentBody) := by
  have hrange : (Finset.range (n + 1)).filter (fun e => (a.ext e).used = true) =
      if (a.ext n).used = true then insert n ((Finset.range n).filter fun e => (a.ext e).used = true)
      else (Finset.range n).filter fun e => (a.ext e).used = true := by
    rw [Finset.range_add_one, Finset.filter_insert]
  have hnew : n ∉ (Finset.range n).filter fun e => (a.ext e).used = true := by simp
  unfold Tally.extent
  by_cases hu : (a.ext n).used = true
  · rw [if_neg (by simp [hu])]
    rw [if_pos hu] at hrange
    by_cases hf : (a.ext n).nfree = 0
    · dsimp only
      rw [if_pos hf]
      have hp : partialSet a (n + 1) = partialSet a n := by
        rw [partialSet_succ, if_neg fun hno => hno.2 hf]
      refine ⟨?_, by rw [hp]; exact h.partly, by rw [hp]; exact h.bin, by rw [hp]; exact h.seen,
        by rw [hp]; exact h.classes⟩
      rw [hrange, Finset.card_insert_of_notMem hnew, ← h.used]
    · dsimp only
      rw [if_neg hf]
      have hp : partialSet a (n + 1) = insert n (partialSet a n) := by
        rw [partialSet_succ, if_pos ⟨hu, hf⟩]
      have hnp := notMem_partialSet a n
      have hused : t.used + 1 = ((Finset.range (n + 1)).filter fun e => (a.ext e).used = true).card := by
        rw [hrange, Finset.card_insert_of_notMem hnew, ← h.used]
      have hpart : t.partly + 1 = (partialSet a (n + 1)).card := by
        rw [hp, Finset.card_insert_of_notMem hnp, ← h.partly]
      have hbin : ∀ b, Function.update t.bin (extBin (a.ext n).toExtentBody)
          (t.bin (extBin (a.ext n).toExtentBody) + 1) b =
          ((partialSet a (n + 1)).filter fun e => extBin (a.ext e).toExtentBody = b).card := by
        intro b
        rw [hp, Finset.filter_insert]
        by_cases hb : extBin (a.ext n).toExtentBody = b
        · subst hb
          rw [Function.update_self, if_pos rfl, Finset.card_insert_of_notMem (by simp [hnp]), h.bin]
        · rw [Function.update_of_ne (fun e => hb e.symm), if_neg hb, h.bin]
      by_cases hs : t.clsSeen (a.ext n).cls = true
      · rw [if_neg (by simp [hs])]
        have hin := (h.seen _).mp hs
        refine ⟨hused, hpart, hbin, fun c => ?_, ?_⟩
        · rw [hp, Finset.image_insert, Finset.insert_eq_of_mem hin]
          exact h.seen c
        · rw [hp, Finset.image_insert, Finset.insert_eq_of_mem hin]
          exact h.classes
      · rw [if_pos (by simpa using hs)]
        have hout := fun hin => hs ((h.seen _).mpr hin)
        refine ⟨hused, hpart, hbin, fun c => ?_, ?_⟩
        · rw [hp, Finset.image_insert, Finset.mem_insert, ← h.seen]
          by_cases hc : c = (a.ext n).cls
          · subst hc
            simp
          · simp [hc]
        · rw [hp, Finset.image_insert, Finset.card_insert_of_notMem hout, ← h.classes]
  · rw [if_pos (by simpa using hu)]
    rw [if_neg hu] at hrange
    have hp : partialSet a (n + 1) = partialSet a n := by
      rw [partialSet_succ, if_neg fun hno => hu hno.1]
    exact ⟨by rw [hrange]; exact h.used, by rw [hp]; exact h.partly, by rw [hp]; exact h.bin,
      by rw [hp]; exact h.seen, by rw [hp]; exact h.classes⟩

theorem tally_counted (a : Alloc) (n : ℕ) : Counted a n (tally a n) := by
  induction n with
  | zero => exact ⟨rfl, rfl, fun _ => rfl, fun c => by simp [tally, partialSet], rfl⟩
  | succ n ih =>
      rw [tally, List.range_succ, List.foldl_append, List.foldl_cons, List.foldl_nil]
      exact ih.extent

/-- A partial extent is in the bucket whose label tells how full it is. -/
theorem extBin_label {e : ExtentBody} (hn : e.nslots < 2 ^ 16) (hf : 0 < e.nfree)
    (hle : e.nfree ≤ e.nslots) : extBin e < 4 ∧ ∀ b < 4, extBin e = b ↔
      (4 - 1 - b) * 100 / 4 * e.nslots ≤ 100 * (e.nslots - e.nfree) ∧
      100 * (e.nslots - e.nfree) < ((4 - 1 - b) * 100 / 4 + 100 / 4) * e.nslots := by
  have hpos : 0 < e.nslots := by omega
  unfold extBin
  rw [sub32_of_le hle (by omega), Nat.mod_eq_of_lt (by omega)]
  have hq : (e.nslots - e.nfree) * 4 / e.nslots < 4 := by
    rw [Nat.div_lt_iff_lt_mul hpos]
    omega
  have hdiv : ∀ k, (e.nslots - e.nfree) * 4 / e.nslots = k ↔
      k * e.nslots ≤ (e.nslots - e.nfree) * 4 ∧ (e.nslots - e.nfree) * 4 < k * e.nslots + e.nslots := by
    intro k
    rw [Nat.div_eq_iff hpos]
    omega
  have hb' : ∀ b < 4, 3 - (e.nslots - e.nfree) * 4 / e.nslots = b ↔
      (e.nslots - e.nfree) * 4 / e.nslots = 3 - b := fun b hb => by omega
  dsimp only
  rw [if_neg (not_le.mpr hq)]
  refine ⟨(Nat.sub_le 3 _).trans_lt (by decide), fun b hb => ?_⟩
  rw [hb' b hb, hdiv]
  interval_cases b <;> norm_num <;> omega

/-- **The extents line is right.** After every history the figures of the line are those of the
heap: `used` is `g_extents_used`, what is neither full nor partial is free, each bucket counts the
partial extents that are as full as its label says and the buckets together all of them, and
`classes` counts the classes from which `slot_alloc` would take a slot of their own. -/
theorem extents_report (h : History H (m :: ms)) :
    let t := tally m.a H.nExtents
    t.used = m.a.extentsUsed ∧
    sub32 t.used t.partly = ((usedSet H m.a).filter fun e => (m.a.ext e).nfree = 0).card ∧
    sub32 H.nExtents t.used =
      ((Finset.range H.nExtents).filter fun e => (m.a.ext e).used = false).card ∧
    t.bin 0 + t.bin 1 + t.bin 2 + t.bin 3 = t.partly ∧
    (∀ b < 4, t.bin b = ((partialSet m.a H.nExtents).filter fun e =>
      (4 - 1 - b) * 100 / 4 * (m.a.ext e).nslots ≤
        100 * ((m.a.ext e).nslots - (m.a.ext e).nfree) ∧
      100 * ((m.a.ext e).nslots - (m.a.ext e).nfree) <
        ((4 - 1 - b) * 100 / 4 + 100 / 4) * (m.a.ext e).nslots).card) ∧
    t.classes = ((Finset.range 64).filter fun c => m.a.classHead c ≠ extNone).card := by
  intro t
  have hi := h.good_head.1.inv
  obtain ⟨ls, hw⟩ := hi.wf
  have ht : Counted m.a H.nExtents t := tally_counted m.a H.nExtents
  have hN := H.nExtents_lt
  have hused : t.used = (usedSet H m.a).card := ht.used
  have hle := usedSet_card_le H m.a
  have hbody : ∀ e ∈ partialSet m.a H.nExtents, (m.a.ext e).nslots < 2 ^ 16 ∧ 0 < (m.a.ext e).nfree ∧
      (m.a.ext e).nfree ≤ (m.a.ext e).nslots := by
    intro e he
    obtain ⟨he, hu, hf⟩ := Finset.mem_filter.mp he
    have he := Finset.mem_range.mp he
    have hslots := H.slots_le (m.a.ext e).cls
    have hwords := H.extBmwords_bounds.2
    have hn := hw.nslots_eq he hu
    exact ⟨by omega, Nat.pos_of_ne_zero hf, (hi.nonempty e he hu).le⟩
  have hpart : partialSet m.a H.nExtents =
      (usedSet H m.a).filter fun e => (m.a.ext e).nfree ≠ 0 := by
    rw [usedSet, Finset.filter_filter, partialSet]
  have hsplit : ((usedSet H m.a).filter fun e => (m.a.ext e).nfree = 0).card + t.partly = t.used := by
    rw [ht.partly, hpart, hused]
    exact Finset.card_filter_add_card_filter_not _
  refine ⟨by rw [hused, hi.used_eq], ?_, ?_, ?_, fun b hb => ?_, ?_⟩
  · rw [sub32_of_le (by omega) (by omega)]
    omega
  · have hfree := Finset.card_filter_add_card_filter_not (s := Finset.range H.nExtents)
      fun e => (m.a.ext e).used = true
    simp only [Bool.not_eq_true, Finset.card_range] at hfree
    rw [sub32_of_le (by omega) (by omega), hused, usedSet]
    omega
  · -- the buckets are fibres of the partial extents
    have hmaps : ∀ e ∈ partialSet m.a H.nExtents, extBin (m.a.ext e).toExtentBody ∈ Finset.range 4 := by
      intro e he
      obtain ⟨h1, h2, h3⟩ := hbody e he
      exact Finset.mem_range.mpr (extBin_label h1 h2 h3).1
    rw [ht.partly, Finset.card_eq_sum_card_fiberwise hmaps]
    simp only [Finset.sum_range_succ, Finset.sum_range_zero, Nat.zero_add, ht.bin]
  · rw [ht.bin]
    congr 1
    refine Finset.filter_congr fun e he => ?_
    obtain ⟨h1, h2, h3⟩ := hbody e he
    exact (extBin_label h1 h2 h3).2 b hb
  · rw [ht.classes]
    congr 1
    ext c
    rw [Finset.mem_image, Finset.mem_filter, Finset.mem_range]
    constructor
    · rintro ⟨e, he, rfl⟩
      obtain ⟨he, hu, hf⟩ := Finset.mem_filter.mp he
      have he := Finset.mem_range.mp he
      refine ⟨(hw.extent e he hu).cls_lt, fun hnone => ?_⟩
      have hmem := (hw.mem_part (m.a.ext e).cls e).mpr ⟨he, hu, rfl, Nat.pos_of_ne_zero hf⟩
      rw [hw.classHead_eq.mp hnone] at hmem
      cases hmem
    · rintro ⟨-, hc⟩
      obtain ⟨he, hu, hcls, hf⟩ := (hw.mem_part c _).mp (hw.classHead_mem hc)
      exact ⟨_, Finset.mem_filter.mpr ⟨Finset.mem_range.mpr he, hu, hf.ne'⟩, hcls⟩

/-- After one page has been stored: one extent, a quarter full. -/
theorem extents_report_first : let m : Moment := ⟨storeInit smallHeap, fun _ => none⟩
    let t := tally (m.alloc smallHeap 4096).a smallHeap.nExtents
    t.bin 0 + t.bin 1 + t.bin 2 + t.bin 3 = t.partly :=
  (extents_report (.alloc .init (by decide) (by decide))).2.2.2.1

/-! ## The warnings -/

/-- What the loop of `stats_worker` reads in one round: `heap_committed()` twice, and between the
two `g_slot_bytes`. -/
structure Reading where
  committed : ℕ
  slots : ℕ
  commit : ℕ
  deriving Repr, DecidableEq

/-- `pct`. -/
def Reading.pct (vramSize : ℕ) (r : Reading) : ℕ :=
  if vramSize = 0 then 0 else 100 * r.committed / vramSize

/-- `occ`: `heap_occupancy()` cut to an `int`. Both bytes are exact as a `double`. -/
def Reading.occ (r : Reading) : ℕ := if r.commit = 0 then 0 else 100 * r.slots / r.commit

def level (pct : ℕ) : ℕ := if 99 ≤ pct then 3 else if 95 ≤ pct then 2 else if 90 ≤ pct then 1 else 0

/-- The local variables of `stats_worker`. -/
structure Watch where
  tick : ℕ
  warned : ℕ
  fragWarned : Bool
  deriving Repr, DecidableEq

/-- What one round prints: the two warnings, and whether the two lines of statistics follow. -/
structure Notice where
  full : Option (List Char)
  frag : Option (List Char)
  log : Bool
  deriving Repr, DecidableEq

def fullText (pct : ℕ) : List Char :=
  "[nbd-vram] VRAM heap ".toList ++ dec pct ++
    "% committed - writes will start failing with ENOSPC when it fills\n".toList

def fragText (pct occ : ℕ) : List Char :=
  "[nbd-vram] VRAM heap ".toList ++ dec pct ++ "% committed but only ".toList ++ dec occ ++
    ("% occupied - fragmentation, not data; committed VRAM cannot recede until " ++
      "extents empty completely\n").toList

/-- The warning on the way up to full, and the level it has been given for. -/
def fullWarning (warned pct : ℕ) : Option (List Char) × ℕ :=
  let lv := level pct
  if warned < lv then (some (fullText pct), lv)
  else if lv < warned ∧ pct < 85 then (none, lv)
  else (none, warned)

/-- The warning of fragmentation, and whether it has been given. -/
def fragWarning (fragWarned : Bool) (pct occ : ℕ) : Option (List Char) × Bool :=
  if fragWarned = false ∧ 75 ≤ pct ∧ occ < 50 then (some (fragText pct occ), true)
  else if fragWarned = true ∧ (pct < 65 ∨ 60 ≤ occ) then (none, false)
  else (none, fragWarned)

/-- One round of `stats_worker`; `interval` is `g_stats_interval`. -/
def Watch.round (vramSize interval : ℕ) (w : Watch) (r : Reading) : Notice × Watch :=
  let f := fullWarning w.warned (r.pct vramSize)
  let g := fragWarning w.fragWarned (r.pct vramSize) r.occ
  let tick := w.tick + 1
  if tick < interval then (⟨f.1, g.1, false⟩, ⟨tick, f.2, g.2⟩)
  else (⟨f.1, g.1, true⟩, ⟨0, f.2, g.2⟩)

/-- The variables after some rounds, oldest first. -/
def watch (vramSize interval : ℕ) (rs : List Reading) : Watch :=
  rs.foldl (fun w r => (w.round vramSize interval r).2) ⟨0, 0, false⟩

/-- What the round after `rs` prints. -/
def notice (vramSize interval : ℕ) (rs : List Reading) (r : Reading) : Notice :=
  ((watch vramSize interval rs).round vramSize interval r).1

/-- Full of holes. -/
def Reading.Frag (vramSize : ℕ) (r : Reading) : Prop := 75 ≤ r.pct vramSize ∧ r.occ < 50

/-- No longer full of holes. -/
def Reading.Clear (vramSize : ℕ) (r : Reading) : Prop := r.pct vramSize < 65 ∨ 60 ≤ r.occ

instance (v : ℕ) : DecidablePred (Reading.Frag v) := fun _ => inferInstanceAs (Decidable (_ ∧ _))

instance (v : ℕ) : DecidablePred (Reading.Clear v) := fun _ => inferInstanceAs (Decidable (_ ∨ _))

variable {v i : ℕ} {rs : List Reading} {r : Reading}

theorem watch_concat : watch v i (rs ++ [r]) = ((watch v i rs).round v i r).2 := by
  rw [watch, List.foldl_append, List.foldl_cons, List.foldl_nil, watch]

theorem Watch.round_full (w : Watch) : (w.round v i r).1.full = (fullWarning w.warned (r.pct v)).1 ∧
    (w.round v i r).2.warned = (fullWarning w.warned (r.pct v)).2 := by
  unfold Watch.round
  dsimp only
  split <;> exact ⟨rfl, rfl⟩

theorem Watch.round_frag (w : Watch) :
    (w.round v i r).1.frag = (fragWarning w.fragWarned (r.pct v) r.occ).1 ∧
    (w.round v i r).2.fragWarned = (fragWarning w.fragWarned (r.pct v) r.occ).2 := by
  unfold Watch.round
  dsimp only
  split <;> exact ⟨rfl, rfl⟩

theorem level_low {pct : ℕ} (h : pct < 85) : level pct = 0 := by
  unfold level
  rw [if_neg (by omega), if_neg (by omega), if_neg (by omega)]

/-- `warned` is a latch that a heap below 85 percent resets. -/
theorem watch_warned : (watch v i rs).warned =
    Latch.hold (fun r => level (r.pct v)) (fun r : Reading => r.pct v < 85) rs := by
  induction rs using List.reverseRecOn with
  | nil => rfl
  | append_singleton rs r ih =>
      rw [watch_concat, Latch.hold_concat, ← ih, ((watch v i rs).round_full).2]
      unfold Latch.next fullWarning
      dsimp only
      by_cases hlow : r.pct v < 85
      · rw [if_pos hlow, level_low hlow]
        split
        · rfl
        · split
          · rfl
          · dsimp only
            omega
      · rw [if_neg hlow]
        split
        · exact (max_eq_right (by omega)).symm
        · rw [if_neg fun h => hlow h.2]
          exact (max_eq_left (by omega)).symm

/-- `frag_warned` is a latch too. -/
theorem watch_fragWarned : (watch v i rs).fragWarned =
    Latch.hold (fun r => decide (Reading.Frag v r)) (Reading.Clear v) rs := by
  induction rs using List.reverseRecOn with
  | nil => rfl
  | append_singleton rs r ih =>
      rw [watch_concat, Latch.hold_concat, ← ih, ((watch v i rs).round_frag).2]
      generalize (watch v i rs).fragWarned = w
      have hex : r.Clear v → ¬ r.Frag v := by
        unfold Reading.Clear Reading.Frag
        omega
      have hround : (fragWarning w (r.pct v) r.occ).2 = if w = false ∧ r.Frag v then true
          else if w = true ∧ r.Clear v then false else w := by
        unfold fragWarning Reading.Frag Reading.Clear
        split
        · rfl
        · split <;> rfl
      rw [hround]
      unfold Latch.next
      by_cases hc : r.Clear v
      · have := hex hc
        cases w <;> simp [*]
      · by_cases hf : r.Frag v <;> cases w <;> simp [*]

theorem watch_tick (hi : 0 < i) : (watch v i rs).tick = rs.length % i := by
  induction rs using List.reverseRecOn with
  | nil => exact (Nat.zero_mod i).symm
  | append_singleton rs r ih =>
      have hlt := Nat.mod_lt rs.length hi
      rw [watch_concat, List.length_append, List.length_singleton]
      unfold Watch.round
      dsimp only
      rw [ih, ← Nat.mod_add_mod]
      split
      · rename_i h
        exact (Nat.mod_eq_of_lt h).symm
      · rename_i h
        rw [show rs.length % i + 1 = i by omega, Nat.mod_self]

/-- **When the daemon warns.** For every sequence of readings, the round after it warns that the
heap is about to be full if and only if the heap has reached a level that no reading has reached
since the last one below 85 percent; it warns of fragmentation if and only if the heap is full of
holes and has recovered since it was the last time; and every `interval` rounds the statistics
follow. -/
theorem stats_worker_warns (hi : 0 < i) (rs : List Reading) (r : Reading) :
    (∀ t, (notice v i rs r).full = some t ↔ t = fullText (r.pct v) ∧ 0 < level (r.pct v) ∧
      ∀ pre q post, rs = pre ++ q :: post → (∀ p ∈ post, 85 ≤ p.pct v) →
        level (q.pct v) < level (r.pct v)) ∧
    (∀ t, (notice v i rs r).frag = some t ↔ t = fragText (r.pct v) r.occ ∧ r.Frag v ∧
      ∀ pre q post, rs = pre ++ q :: post → q.Frag v → ∃ p ∈ post, p.Clear v) ∧
    ((notice v i rs r).log = true ↔ i ∣ rs.length + 1) := by
  refine ⟨fun t => ?_, fun t => ?_, ?_⟩
  · have hw : (fullWarning (watch v i rs).warned (r.pct v)).1 = some t ↔
        t = fullText (r.pct v) ∧ (watch v i rs).warned < level (r.pct v) := by
      unfold fullWarning
      dsimp only
      split
      · rename_i h
        simp [h, eq_comm]
      · rename_i h
        split <;> simp [h]
    rw [notice, (Watch.round_full _).1, hw]
    refine and_congr_right fun _ => ?_
    rw [watch_warned]
    constructor
    · intro h
      have hpos : 0 < level (r.pct v) := (Nat.zero_le _).trans_lt h
      refine ⟨hpos, fun pre q post he hpost => ?_⟩
      exact (Latch.hold_lt_iff (fun _ => level_low) hpos).mp h pre q post he fun p hp =>
        not_lt.mpr (hpost p hp)
    · rintro ⟨hpos, h⟩
      refine (Latch.hold_lt_iff (fun _ => level_low) hpos).mpr fun pre q post he hpost => ?_
      exact h pre q post he fun p hp => not_lt.mp (hpost p hp)
  · have hw : (fragWarning (watch v i rs).fragWarned (r.pct v) r.occ).1 = some t ↔
        t = fragText (r.pct v) r.occ ∧ r.Frag v ∧ (watch v i rs).fragWarned < true := by
      unfold fragWarning Reading.Frag
      split
      · rename_i h
        simp [h, eq_comm]
      · rename_i h
        cases hf : (watch v i rs).fragWarned with
        | false => simp_all
        | true =>
            simp only [lt_irrefl, and_false]
            split <;> simp
    rw [notice, (Watch.round_frag _).1, hw]
    refine and_congr_right fun _ => and_congr_right fun _ => ?_
    have hreset : ∀ q : Reading, q.Clear v → decide (q.Frag v) = ⊥ := by
      intro q hq
      refine decide_eq_false ?_
      unfold Reading.Clear at hq
      unfold Reading.Frag
      omega
    rw [watch_fragWarned, Latch.hold_lt_iff hreset (by decide)]
    refine forall_congr' fun pre => forall_congr' fun q => forall_congr' fun post =>
      imp_congr_right fun _ => ?_
    constructor
    · intro h hq
      by_contra hno
      push Not at hno
      simpa [hq] using h hno
    · intro h hno
      by_cases hq : q.Frag v
      · obtain ⟨p, hp, hc⟩ := h hq
        exact absurd hc (hno p hp)
      · simp [hq]
  · have hlog : (notice v i rs r).log = true ↔ ¬ (watch v i rs).tick + 1 < i := by
      unfold notice Watch.round
      dsimp only
      split <;> simp [*]
    have hlt := Nat.mod_lt rs.length hi
    rw [hlog, watch_tick hi, Nat.dvd_iff_mod_eq_zero, ← Nat.mod_add_mod]
    constructor
    · intro h
      rw [show rs.length % i + 1 = i by omega, Nat.mod_self]
    · intro h hno
      rw [Nat.mod_eq_of_lt hno] at h
      omega

/-- A heap at 97 percent of 100 bytes, after one at 91. -/
theorem stats_worker_warns_second :
    (notice 100 60 [⟨91, 90, 91⟩] ⟨97, 90, 97⟩).full = some (fullText 97) := by
  refine ((stats_worker_warns (by decide) _ _).1 _).mpr ⟨rfl, by decide, ?_⟩
  rintro pre q post he -
  cases pre with
  | nil =>
      cases he
      decide
  | cons p pre => simp at he

/-- `heap_committed`. -/
def heapCommitted (H : Heap) (a : Alloc) : ℕ := a.extentsUsed * H.extentSize % 2 ^ 64

end Report

end NbdVram
