import NbdVram.Request

/-!
# The flat device

What the daemon is for: an array of bytes that answers requests in order. A READ
returns the current bytes, a WRITE overlays its own, a TRIM zeroes the blocks that
lie wholly inside its range, and a range that is not on the device is refused and
changes nothing. A worker that has the blocks to itself does to the device exactly
what its requests do to this array, group by group.
-/

namespace NbdVram

open Interleave Span MutationLog

variable {cfg : Config} {md : Mode} {w : ℕ} {D D' : Disk} {d : Done} {r : Req} {ds : List Done}
  {is : List (Item Disk Mut)}

/-- What a request leaves of the array. -/
def Req.apply (cfg : Config) (r : Req) (D : Disk) : Disk :=
  if r.Oob cfg then D
  else
    match r.cmd with
    | .write => splice D r.off r.data
    | .trim => fun a =>
      if r.off ≤ a / 4096 * 4096 ∧ a / 4096 * 4096 + 4096 ≤ r.off + r.len then 0 else D a
    | _ => D

/-- How the array answers a request. -/
def Req.answer (cfg : Config) (D : Disk) (r : Req) : Done where
  req := r
  err := if r.Oob cfg then .einval else .ok
  out := if r.cmd = .read ∧ ¬ r.Oob cfg then slice D r.off r.len else []

/-- The array after all of `rs`. -/
def applyReqs (cfg : Config) (D : Disk) (rs : List Req) : Disk := rs.foldl (fun D r => r.apply cfg D) D

/-- The answers to `rs`, in order. -/
def flat (cfg : Config) : Disk → List Req → List Done
  | _, [] => []
  | D, r :: rs => r.answer cfg D :: flat cfg (r.apply cfg D) rs

/-! ## What a script leaves -/

/-- A worker that has the blocks to itself. -/
theorem Script.seq {log log' : List Mut} (h : Script w log is log')
    (hown : ∀ m ∈ log'.drop log.length, m.who = w) : Seq Mut.who Mut.app w (disk log) is (disk log') := by
  obtain ⟨new, rfl, hlin⟩ := h
  rw [disk_append]
  refine hlin.seq fun m hm => hown m ?_
  rwa [List.drop_left]

/-- The array with pieces written to it. -/
def overlay (D : Disk) (ps : List Piece) : Disk := ps.foldl (fun D p => splice D p.1 p.2) D

theorem seq_pieces (hm : md.Stores cfg) {i : ℕ} {ps : List Piece}
    (h : Seq Mut.who Mut.app w D (ps.map (Piece.wrote cfg md i)) D') : D' = overlay D ps := by
  induction ps generalizing D with
  | nil => exact h
  | cons p ps ih =>
      obtain ⟨m, -, ⟨-, -, happ⟩, hrest⟩ := h
      rw [happ hm] at hrest
      exact ih hrest

/-- All pieces of a range make up the range. -/
theorem overlay_chop (D : Disk) (off : ℕ) (l : List UInt8) : overlay D (chop off l) = splice D off l := by
  induction off, l using chop_induct generalizing D with
  | h0 off => simp [overlay]
  | h1 off l hl ih =>
      rw [chop_cons hl, overlay, List.foldl_cons, ← overlay, ih]
      dsimp only
      rcases Nat.le_total (4096 - off % 4096) l.length with h | h
      · have hlen : (l.take (4096 - off % 4096)).length = 4096 - off % 4096 := List.length_take_of_le h
        have hsp := @splice_append _ _ D off (l.take (4096 - off % 4096)) (l.drop (4096 - off % 4096))
        rwa [hlen, List.take_append_drop] at hsp
      · rw [List.drop_eq_nil_of_le h, splice_nil, List.take_of_length_le h]

/-- What was seen piece by piece was seen. -/
theorem slice_of_chop {off : ℕ} {l : List UInt8} (h : ∀ p ∈ chop off l, slice D p.1 p.2.length = p.2) :
    slice D off l.length = l := by
  refine eq_slice rfl fun i hi => ?_
  obtain ⟨p, hp, h1, h2⟩ := @exists_mem_chop off _ _ hi
  rw [← mem_chop_getD hp h1 h2, ← h p hp, slice_getD (by omega)]
  congr 1
  omega

theorem Page.zero_getD (i : ℕ) : Page.zero.bytes.getD i default = 0 := by
  rw [Page.zero, List.getD_eq_getElem?_getD, List.getElem?_replicate]
  split <;> rfl

theorem seq_trimmed (hm : md.Stores cfg) {bs : List ℕ} {its : List (Item Disk Mut)}
    (ht : List.Forall₂ (Trimmed cfg md) bs its) (h : Seq Mut.who Mut.app w D its D') (a : ℕ) :
    D' a = if a / 4096 ∈ bs then 0 else D a := by
  induction ht generalizing D with
  | nil =>
      rw [if_neg (by simp)]
      exact congrFun h a
  | @cons b it bs its hb _ ih =>
      have hmem : a / 4096 ∈ b :: bs ↔ a / 4096 = b ∨ a / 4096 ∈ bs := List.mem_cons
      rcases hb with rfl | rfl
      · obtain ⟨m, -, ⟨-, -, happ⟩, hrest⟩ := h
        rw [happ hm] at hrest
        rw [ih hrest]
        by_cases hin : a / 4096 = b
        · rw [if_pos (hmem.mpr (.inl hin))]
          split
          · rfl
          · rw [splice_in (by omega) (by rw [Page.length_eq]; omega)]
            exact Page.zero_getD _
        · rw [splice_out (by rw [Page.length_eq]; omega)]
          simp only [hmem, hin, false_or]
      · obtain ⟨hz, hrest⟩ := h
        rw [ih hrest]
        have hzero : pageOf D b = Page.zero := hz _ List.mem_cons_self
        by_cases hin : a / 4096 = b
        · rw [if_pos (hmem.mpr (.inl hin))]
          split
          · rfl
          · have hbyte : (pageOf D b).bytes.getD (a % 4096) default = D a := by
              rw [pageOf, Page.read_bytes, slice_getD (by omega)]
              congr 1
              omega
            rw [← hbyte, hzero]
            exact Page.zero_getD _
        · simp only [hmem, hin, false_or]

/-- The blocks that a TRIM zeroes. -/
theorem mem_trimBlocks {off len b : ℕ} (h : ¬ oob cfg off len) :
    b ∈ trimBlocks cfg off len ↔ off ≤ b * 4096 ∧ b * 4096 + 4096 ≤ off + len := by
  rw [oob_iff] at h
  have h1 := cfg.disk_lt
  have h2 : cfg.nblocks * 4096 = cfg.diskSize := Nat.div_mul_cancel cfg.disk_blocks
  have h3 : (off + 4095) % 2 ^ 64 = off + 4095 := Nat.mod_eq_of_lt (by omega)
  have h4 : (off + len) % 2 ^ 64 = off + len := Nat.mod_eq_of_lt (by omega)
  have h5 : ¬ cfg.nblocks < (off + len) / 4096 := by omega
  simp only [trimBlocks, trimBounds, h3, h4, if_neg h5, List.mem_map, List.mem_range]
  constructor
  · rintro ⟨i, hi, rfl⟩
    omega
  · intro hb
    exact ⟨b - (off + 4095) / 4096, by omega, by omega⟩

/-- **One request.** -/
theorem Effect.seq (he : Effect cfg md d is) (hm : md.Stores cfg)
    (hok : d.req.cmd = .write → ¬ d.req.Oob cfg → d.err = .ok)
    (h : Seq Mut.who Mut.app w D is D') : D' = d.req.apply cfg D := by
  cases he with
  | refused ho =>
      rw [Req.apply, if_pos ho]
      exact h
  | other h1 h2 =>
      have hD : D' = D := h
      rw [hD, Req.apply]
      split
      · rfl
      · split
        · exact absurd ‹_› h1
        · exact absurd ‹_› h2
        · rfl
  | wrote i sub ho hc _ hall =>
      rw [seq_pieces hm h, hall (hok hc ho), overlay_chop, Req.apply, if_neg ho, hc]
  | trimmed its ho hc ht =>
      funext a
      have hno : ¬ oob cfg d.req.off d.req.len := fun hb => ho ⟨.inr (.inr hc), hb⟩
      rw [seq_trimmed hm ht h a, Req.apply, if_neg ho, hc]
      simp only [mem_trimBlocks hno]

/-! ## Groups -/

theorem Seq.flatten {α : Type} {as : List α} {effs : List (List (Item Disk Mut))}
    {f : α → Disk → Disk}
    (hf : List.Forall₂ (fun a is => ∀ D D', Seq Mut.who Mut.app w D is D' → D' = f a D) as effs)
    (h : Seq Mut.who Mut.app w D effs.flatten D') : D' = as.foldl (fun D a => f a D) D := by
  induction hf generalizing D with
  | nil => exact h
  | cons hd _ ih =>
      rw [List.flatten_cons, Seq.append_iff] at h
      obtain ⟨D₁, h1, h2⟩ := h
      rw [ih h2, hd D D₁ h1, List.foldl_cons]

/-- The data of a READ that has seen what it returns. -/
theorem Done.out_eq (hm : md.Reads cfg) (hs : ∀ P ∈ d.saw cfg md, P D) (hc : d.req.cmd = .read) :
    slice D d.req.off d.out.length = d.out := by
  refine slice_of_chop fun p hp => hs (Piece.saw cfg md p) ?_ hm
  rw [Done.saw, if_pos hc]
  exact List.mem_map_of_mem hp

/-- Where nothing fails, an answer is the array's. -/
theorem Done.Ok.answer (hd : d.Ok cfg md) (hm : md.Reads cfg) (ha : md.alloc = true)
    (hl : md.launch = true) (hs : ∀ P ∈ d.saw cfg md, P D) : d = d.req.answer cfg D := by
  have herr : d.err = if d.req.Oob cfg then .einval else .ok := by
    split
    · exact hd.oob ‹_›
    · exact hd.ok hm.1 (fun _ => hm) ha hl ‹_›
  have hout : d.out = if d.req.cmd = .read ∧ ¬ d.req.Oob cfg then slice D d.req.off d.req.len else [] := by
    have hlen := hd.out
    rw [herr] at hlen
    by_cases ho : d.req.Oob cfg
    · rw [if_neg fun h => h.2 ho]
      rw [if_pos ho, if_neg (by simp)] at hlen
      exact List.length_eq_zero_iff.mp hlen
    · rw [if_neg ho] at hlen
      by_cases hc : d.req.cmd = .read
      · rw [if_pos ⟨hc, ho⟩]
        rw [if_pos ⟨hc, rfl⟩] at hlen
        rw [← hlen]
        exact (Done.out_eq hm hs hc).symm
      · rw [if_neg fun h => hc h.1]
        rw [if_neg fun h => hc h.1] at hlen
        exact List.length_eq_zero_iff.mp hlen
  obtain ⟨r, err, out⟩ := d
  simp only at herr hout
  rw [herr, hout, Req.answer]

/-- **One group**: all READs see the array as it was before, all mutations are applied in order. -/
theorem Group.flat (hg : Group cfg md ds is) (hm : md.Reads cfg) (ha : md.alloc = true)
    (hl : md.launch = true) (h : Seq Mut.who Mut.app w D is D') :
    ds = (ds.map Done.req).map (Req.answer cfg D) ∧ D' = applyReqs cfg D (ds.map Done.req) := by
  cases hg with
  | intro hok _ heff _ =>
      obtain ⟨hsaw, hrest⟩ := h
      constructor
      · rw [List.map_map]
        refine (List.map_id ds).symm.trans (List.map_congr_left fun d hd => ?_)
        exact (hok d hd).answer hm ha hl fun P hP => hsaw P (List.mem_flatMap.mpr ⟨d, hd, hP⟩)
      · rw [applyReqs, List.foldl_map]
        have hboth := (List.forall₂_and_left _ _).mpr ⟨hok, heff⟩
        refine Seq.flatten (hboth.imp fun d is hd D D' hseq => ?_) hrest
        exact hd.2.seq hm.1 (fun _ ho => hd.1.ok hm.1 (fun _ => hm) ha hl ho) hseq

/-! ## In order -/

theorem flat_append (rs rs' : List Req) :
    flat cfg D (rs ++ rs') = flat cfg D rs ++ flat cfg (applyReqs cfg D rs) rs' := by
  induction rs generalizing D with
  | nil => rfl
  | cons r rs ih => rw [List.cons_append, flat, flat, ih, List.cons_append, applyReqs, applyReqs, List.foldl_cons]

theorem applyReqs_append (rs rs' : List Req) :
    applyReqs cfg D (rs ++ rs') = applyReqs cfg (applyReqs cfg D rs) rs' := List.foldl_append

/-- A READ does not see a WRITE to other blocks. -/
theorem Req.answer_apply {r' : Req} (hw : r.cmd = .write) (hlen : r.data.length = r.len)
    (hr : r'.cmd = .read → ¬ r.Overlap r') : r'.answer cfg (r.apply cfg D) = r'.answer cfg D := by
  unfold Req.answer
  congr 1
  split
  · rename_i hc
    have hno := hr hc.1
    rw [Req.Overlap] at hno
    rw [Req.apply]
    split
    · rfl
    · rw [hw]
      exact slice_splice_out (by omega)
  · rfl

/-- **A batch whose READs are apart from its earlier WRITEs answers in order.** -/
theorem Apart.flat {rs : List Req} (h : Apart rs) (hd : ∀ r ∈ rs, r.cmd = .write → r.data.length = r.len)
    (hc : rs.length ≤ 1 ∨ ∀ r ∈ rs, r.cmd = .read ∨ r.cmd = .write) :
    rs.map (Req.answer cfg D) = flat cfg D rs := by
  induction rs generalizing D with
  | nil => rfl
  | cons r rs ih =>
      obtain ⟨h1, h2⟩ := List.pairwise_cons.mp h
      have hrest : rs.length ≤ 1 ∨ ∀ r ∈ rs, r.cmd = .read ∨ r.cmd = .write := by
        refine hc.imp (fun h => ?_) fun h r' hr' => h r' (List.mem_cons_of_mem _ hr')
        rw [List.length_cons] at h
        omega
      rw [List.map_cons, NbdVram.flat, ← ih h2 (fun r' hr' => hd r' (List.mem_cons_of_mem _ hr')) hrest]
      congr 1
      refine List.map_congr_left fun r' hr' => ?_
      rcases hc with hc | hc
      · rw [List.length_eq_zero_iff.mp (Nat.le_zero.mp (Nat.le_of_succ_le_succ hc))] at hr'
        cases hr'
      · rcases hc r List.mem_cons_self with hr | hw
        · rw [Req.apply, hr]
          split <;> rfl
        · exact (Req.answer_apply hw (hd r List.mem_cons_self hw) fun hrd => h1 r' hr' hw hrd).symm

end NbdVram
