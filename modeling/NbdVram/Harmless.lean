import NbdVram.Refused

/-!
# Writes that fail

A WRITE can lose any of its blocks to a refused allocation or to a rejected copy.
Whatever the pattern, each block of it ends up either with the bytes of the request
over what it held or with what it held, and the second is what a failed op leaves.
Nothing else changes, and every block still decodes.
-/

namespace NbdVram

open Interleave Span MutationLog Relation

variable {cfg : Config} {md : Mode} {w i off : ℕ} {x x₀ x₁ : Local} {m : Mem} {P : Plan} {b : Batch}
  {r : Req} {rs : List Req} {l : List UInt8} {D D' : Disk} {sub : List Piece} {s s' : State}

/-! ## Some of the pieces of a range -/

/-- A range has one piece in a block. -/
theorem chop_blk_unique {p q : Piece} (hp : p ∈ chop off l) (hq : q ∈ chop off l)
    (h : Piece.blk p = Piece.blk q) : p = q := by
  induction off, l using chop_induct with
  | h0 off => simp at hp
  | h1 off l hl ih =>
      have hmod := Nat.mod_lt off (show 4096 > 0 by decide)
      -- the pieces after the first begin behind its block
      have hlater : ∀ p' ∈ chop (off + (4096 - off % 4096)) (l.drop (4096 - off % 4096)),
          off / 4096 < Piece.blk p' := by
        intro p' hp'
        have := (mem_chop hp').2.2.1
        rw [Piece.blk]
        omega
      rw [chop_cons hl, List.mem_cons] at hp hq
      rcases hp with rfl | hp
      · rcases hq with rfl | hq
        · rfl
        · exact absurd h (hlater q hq).ne
      · rcases hq with rfl | hq
        · exact absurd h (hlater p hp).ne'
        · exact ih hp hq

/-- In its block a piece writes what the whole range writes. -/
theorem splice_piece {p : Piece} (hp : p ∈ chop off l) {a : ℕ} (ha : a / 4096 = Piece.blk p) :
    splice D p.1 p.2 a = splice D off l a := by
  obtain ⟨-, -, h3, h4, -⟩ := mem_chop hp
  by_cases hin : off ≤ a ∧ a < off + l.length
  · obtain ⟨k, rfl⟩ := Nat.exists_eq_add_of_le hin.1
    have hk : k < l.length := by omega
    obtain ⟨q, hq, h1, h2⟩ := @exists_mem_chop off l k hk
    have hqin := (mem_chop hq).2.1
    obtain rfl : q = p := chop_blk_unique hq hp (by rw [← ha, Piece.blk]; omega)
    rw [splice_in h1 h2, splice_at hk, mem_chop_getD hq h1 h2]
  · rw [splice_out (by omega), splice_out (by omega)]

theorem splice_of_ne {p : Piece} (hp : p ∈ chop off l) {a : ℕ} (ha : a / 4096 ≠ Piece.blk p) :
    splice D p.1 p.2 a = D a := by
  have := (mem_chop hp).2.1
  rw [Piece.blk] at ha
  exact splice_out (by omega)

/-- The array with only some pieces of a range written to it. -/
theorem overlay_some (h : ∀ p ∈ sub, p ∈ chop off l) (a : ℕ) :
    overlay D sub a = if ∃ p ∈ sub, Piece.blk p = a / 4096 then splice D off l a else D a := by
  induction sub generalizing D with
  | nil => simp [overlay]
  | cons p sub ih =>
      have hp := h p List.mem_cons_self
      rw [overlay, List.foldl_cons, ← overlay, ih fun q hq => h q (List.mem_cons_of_mem _ hq)]
      have hover : splice (splice D p.1 p.2) off l a = splice D off l a := by
        by_cases hin : off ≤ a ∧ a < off + l.length
        · rw [splice_in hin.1 hin.2, splice_in hin.1 hin.2]
        · have := mem_chop hp
          rw [splice_out (by omega), splice_out (by omega), splice_out (by omega)]
      by_cases hblk : a / 4096 = Piece.blk p
      · rw [if_pos (⟨p, List.mem_cons_self, hblk.symm⟩ : ∃ q ∈ p :: sub, Piece.blk q = a / 4096),
          hover, splice_piece hp hblk, ite_self]
      · have hiff : (∃ q ∈ p :: sub, Piece.blk q = a / 4096) ↔ ∃ q ∈ sub, Piece.blk q = a / 4096 := by
          simp [Ne.symm hblk]
        rw [hover, splice_of_ne hp hblk]
        simp only [hiff]

/-! ## What failures leave -/

/-- The array after a WRITE of which only the blocks in `kept` were stored. -/
def Req.partly (r : Req) (kept : ℕ → Bool) (D : Disk) : Disk :=
  fun a => if kept (a / 4096) = true then splice D r.off r.data a else D a

/-- The array after all of `rs`, of which the blocks in `kept` were stored. -/
def partlyAll (kept : ℕ → ℕ → Bool) (rs : List Req) (D : Disk) : Disk :=
  rs.zipIdx.foldl (fun D x => x.1.partly (kept x.2) D) D

/-- What the requests `rs` of worker `w`, served together, leave of the device: their WRITEs in
order, block by block where the op has not failed; and every written block decodes. -/
structure Spared (cfg : Config) (w : ℕ) (s s' : State) (rs : List Req) (kept : ℕ → ℕ → Bool) :
    Prop where
  bytes : s'.bytes cfg = partlyAll kept rs (s.bytes cfg)
  within : ∀ i r blk, rs[i]? = some r → kept i blk = true →
    r.cmd = .write ∧ ¬ r.Oob cfg ∧ r.Touches blk
  failed : ∀ i, ∀ f ∈ (s'.priv w).faultsOf i, kept i f.tag.blk = false
  readable : ∀ blk, entClen (s'.index blk) ≠ 0 →
    cfg.codec.decompBlock (s'.stored (s'.index blk)) = some (s'.content cfg blk)

theorem partlyAll_one {kept : ℕ → ℕ → Bool} : partlyAll kept [r] D = r.partly (kept 0) D := rfl

/-- **One request.** A block is what it was, or the request covers part of it, no op of the request
on it has failed and it has got the request's bytes. -/
theorem Spared.block {kept : ℕ → ℕ → Bool} (h : Spared cfg w s s' [r] kept) (hi : Inv cfg md s)
    (hi' : Inv cfg md s') (blk : ℕ) : s'.content cfg blk = s.content cfg blk ∨
      r.Touches blk ∧ (∀ f ∈ (s'.priv w).faultsOf 0, f.tag.blk ≠ blk) ∧
        s'.content cfg blk = pageOf (splice (s.bytes cfg) r.off r.data) blk := by
  have hpage : ∀ {D₁ D₂ : Disk}, (∀ a, a / 4096 = blk → D₁ a = D₂ a) → pageOf D₁ blk = pageOf D₂ blk := by
    intro D₁ D₂ heq
    rw [Page.ext_iff, pageOf, pageOf, Page.read_bytes, Page.read_bytes]
    exact slice_congr fun k hk => heq _ (by omega)
  have hbytes := h.bytes
  rw [partlyAll_one] at hbytes
  rw [hi'.content, hi.content, ← hi'.bytes, ← hi.bytes, hbytes]
  cases hk : kept 0 blk with
  | false =>
      left
      refine hpage fun a ha => ?_
      rw [Req.partly, ha, hk, if_neg (by simp)]
  | true =>
      right
      refine ⟨(h.within 0 r blk rfl hk).2.2, fun f hf heq => ?_, hpage fun a ha => ?_⟩
      · have hfail := h.failed 0 f hf
        rw [heq, hk] at hfail
        cases hfail
      · rw [Req.partly, ha, hk, if_pos rfl]

theorem StoredAs.partly {err : Err} {fs : List Fault}
    (h : StoredAs cfg md i (chop r.off r.data) sub err fs) :
    overlay D sub = r.partly (fun blk => decide (∃ p ∈ sub, Piece.blk p = blk)) D := by
  funext a
  rw [overlay_some fun p hp => h.sublist.subset hp, Req.partly]
  simp only [decide_eq_true_eq]

theorem Req.partly_none {kept : ℕ → Bool} (h : ∀ blk, kept blk = false) : r.partly kept D = D := by
  funext a
  rw [Req.partly, h, if_neg (by simp)]

theorem Inv.readable (hi : Inv cfg md s) (hm : md.Stores cfg) {blk : ℕ}
    (hb : entClen (s.index blk) ≠ 0) :
    cfg.codec.decompBlock (s.stored (s.index blk)) = some (s.content cfg blk) := by
  rw [State.content, if_neg hb]
  obtain ⟨p, hp⟩ := Option.ne_none_iff_exists'.mp (hi.decodes hm blk hb)
  rw [hp, Option.getD_some]

/-! ## A batch -/

/-- The pieces of request `i` that a batch has published. -/
def pieces (cfg : Config) (rs : List Req) (m : Mem) (P : Plan) (i : ℕ) : List Piece :=
  pubPieces m P (opStart cfg rs i) (opStart cfg rs (i + 1) - opStart cfg rs i)

/-- The blocks that request `i` of a batch has published. -/
def stored (cfg : Config) (rs : List Req) (m : Mem) (P : Plan) (i blk : ℕ) : Bool :=
  decide (∃ p ∈ pieces cfg rs m P i, Piece.blk p = blk)

theorem stored_nil (h : pieces cfg rs m P i = []) (blk : ℕ) : stored cfg rs m P i blk = false := by
  rw [stored, h]
  simp

/-- What is known of the pieces of request `i`. -/
theorem Ran.pieces_cases (hR : Ran cfg md w b P x₀ x m) (hb : Holds cfg b rs)
    (h0 : x₀.priv.faults = []) (hr : rs[i]? = some r) :
    pieces cfg rs m P i = [] ∨ r.cmd = .write ∧ ¬ r.Oob cfg ∧
      StoredAs cfg md i (chop r.off r.data) (pieces cfg rs m P i)
        (NbdVram.verdict (x.priv.faultsOf i)) (x.priv.faultsOf i) := by
  rw [pieces, opStart_succ hr, Nat.add_sub_cancel_left]
  by_cases ho : r.Oob cfg
  · left
    rw [Req.nops_oob ho]
    rfl
  by_cases hc : r.cmd = .write
  · exact .inr ⟨hc, ho, hR.storedAs hb h0 hr hc ho⟩
  · exact .inl (hR.pubPieces_read hb hr hc)

theorem pieces_oor (hi : rs.length ≤ i) : pieces cfg rs m P i = [] := by
  have hsame : opStart cfg rs (i + 1) = opStart cfg rs i := by
    rw [opStart, opStart, List.take_of_length_le hi, List.take_of_length_le (by omega)]
  rw [pieces, hsame, Nat.sub_self]
  rfl

/-- What a batch leaves of the array. -/
theorem Ran.partly (hR : Ran cfg md w b P x₀ x m) (hb : Holds cfg b rs) (h0 : x₀.priv.faults = [])
    (hm : md.Stores cfg) (hown : ∀ mu ∈ x.log.drop x₀.log.length, mu.who = w) :
    disk x.log = partlyAll (stored cfg rs m P) rs (disk x₀.log) := by
  obtain ⟨-, hseq⟩ := (hR.did hb h0).seq hown
  have hmap : (List.range b.nreq).map (effAt cfg md rs m P) =
      rs.zipIdx.map fun x => effAt cfg md rs m P x.2 := by
    rw [show (fun x : Req × ℕ => effAt cfg md rs m P x.2) = effAt cfg md rs m P ∘ Prod.snd from rfl,
      ← List.map_map, List.zipIdx_map_snd, hb.nreq, List.range_eq_range']
  rw [hmap] at hseq
  refine Seq.flatten (f := fun (x : Req × ℕ) D => x.1.partly (stored cfg rs m P x.2) D) ?_ hseq
  rw [List.forall₂_map_right_iff, List.forall₂_same]
  intro y hy D D' h
  have hr : rs[y.2]? = some y.1 := List.mem_zipIdx_iff_getElem?.mp hy
  rw [show effAt cfg md rs m P y.2 = (pieces cfg rs m P y.2).map (Piece.wrote cfg md y.2) from rfl] at h
  rw [seq_pieces hm h]
  rcases hR.pieces_cases hb h0 hr with hnil | ⟨-, -, hst⟩
  · rw [hnil, Req.partly_none (stored_nil hnil)]
    rfl
  · exact hst.partly

theorem FlushedAlone.spared (h : FlushedAlone cfg md w b s s' P x₀ x₁ m) (hb : Holds cfg b rs)
    (hi : Inv cfg md s) (hi' : Inv cfg md s') (hm : md.Stores cfg) :
    Spared cfg w s s' rs (stored cfg rs m P) := by
  have hfs : ∀ i, (s'.priv w).faultsOf i = x₁.priv.faultsOf i := by
    intro i
    rw [Priv.faultsOf, Priv.faultsOf, h.faults]
  refine ⟨?_, fun i r blk hr hk => ?_, fun i f hf => ?_, fun blk hblk => hi'.readable hm hblk⟩
  · rw [hi'.bytes, hi.bytes, ← h.log, ← h.log']
    exact h.ran.partly hb h.clean hm (by rw [h.log, h.log']; exact h.own)
  · obtain ⟨p, hp, rfl⟩ := of_decide_eq_true hk
    rcases h.ran.pieces_cases hb h.clean hr with hnil | ⟨hc, ho, hst⟩
    · rw [hnil] at hp
      cases hp
    · refine ⟨hc, ho, ?_⟩
      have hlen : r.data.length = r.len := by
        rw [(hb.fits r (List.mem_of_getElem? hr)).data, if_pos hc]
      exact (Req.touches_iff hlen).mpr ⟨p, hst.sublist.subset hp, rfl⟩
  · rw [hfs] at hf
    rcases Nat.lt_or_ge i rs.length with hlt | hge
    · rcases h.ran.pieces_cases hb h.clean (List.getElem?_eq_getElem hlt) with hnil | ⟨-, -, hst⟩
      · exact stored_nil hnil _
      · rw [stored, decide_eq_false_iff_not]
        rintro ⟨p, hp, hblk⟩
        exact hst.out f hf p hp hblk
    · exact stored_nil (pieces_oor hge) _

/-! ## The per-request path -/

/-- What is left of a WRITE of which `data` was received in whole windows. -/
theorem Tried.spared {h : Hdr} {gin : List UInt8} {is : List (Item Disk Mut)}
    (ht : Tried cfg md h.from' h.len gin is (s'.priv w).faults) (hc : h.cmd = .write)
    (hlen : gin.length ≤ h.len)
    (hsc : Script w s.log is s'.log) (hown : ∀ mu ∈ s'.log.drop s.log.length, mu.who = w)
    (hi : Inv cfg md s) (hi' : Inv cfg md s') (hm : md.Stores cfg) : ∃ data kept,
      data <+: gin ∧ Whole h.from' h.len data ∧ Spared cfg w s s' [h.req data] kept := by
  obtain ⟨data, part, sub, err, rfl, hwh, rfl, hst⟩ := ht
  have hbytes : s'.bytes cfg = overlay (s.bytes cfg) sub := by
    rw [hi'.bytes, hi.bytes]
    exact seq_pieces hm (hsc.seq hown)
  have hread := fun blk hblk => @Inv.readable _ _ _ hi' hm blk hblk
  rcases hst with ⟨-, rfl, hnil⟩ | ⟨ho, hst⟩
  · refine ⟨data, fun _ _ => false, List.prefix_append _ _, hwh, ?_, (by simp),
      fun _ _ _ => rfl, hread⟩
    rw [hbytes, partlyAll_one, Req.partly_none fun _ => rfl]
    rfl
  · refine ⟨data, fun i blk => decide (i = 0) && decide (∃ p ∈ sub, Piece.blk p = blk),
      List.prefix_append _ _, hwh, ?_, fun i r blk hr hk => ?_, fun i f hf => ?_, hread⟩
    · rw [hbytes, partlyAll_one]
      have hp := StoredAs.partly (r := h.req data) (D := s.bytes cfg) hst
      simp only [decide_true, Bool.true_and]
      exact hp
    · rw [Bool.and_eq_true, decide_eq_true_eq, decide_eq_true_eq] at hk
      obtain ⟨rfl, p, hp, rfl⟩ := hk
      cases hr
      have hin := blk_of_mem_chop (hst.sublist.subset hp)
      rw [List.length_append] at hlen
      refine ⟨hc, fun hob => ho hob.2, ?_⟩
      show 0 < h.len ∧ h.from' / 4096 ≤ _ ∧ _ < h.from' + h.len
      omega
    · have hmem := (List.mem_filter.mp hf).1
      rw [Bool.and_eq_false_iff, decide_eq_false_iff_not, decide_eq_false_iff_not]
      right
      rintro ⟨p, hp, hblk⟩
      exact hst.out f hmem p hp hblk

theorem CutOne.gin_le {h : Hdr} {gin gout : List UInt8} {x' : Local}
    (hc : CutOne cfg md w x h gin gout x') : gin.length ≤ h.len := by
  have hpay : h.payload ≤ h.len := by
    unfold Hdr.payload
    split
    · exact le_rfl
    · exact Nat.zero_le _
  cases hc with
  | payload _ hlt _ _ _ => exact hlt.le
  | reply _ _ hlen _ _ _ => rwa [hlen]
  | data _ _ hnil _ _ _ _ _ _ =>
      rw [hnil]
      exact Nat.zero_le _

/-! ## The claim -/

/-- **Failed writes never damage stored data.** From any reachable state in which no synchronize has
failed, let an idle worker serve one WRITE by `handle_one`, of any offset and length and however much
of its payload comes, or flush any batch, while `slot_alloc` and copy launches fail in any pattern.
Then each block of a WRITE has got the bytes received for it over what it held, or is what it was;
the second where the request's op on it has failed; no other block has changed; and every written
block still decodes. -/
theorem failed_writes_harmless {S : Daemon cfg} (hcodec : cfg.codec.RoundTrip)
    (h : Daemon.Reachable cfg .synced S) (hw : S.st.Idle w) :
    (∀ b rs z s', Holds cfg b rs → RunsAlone cfg .synced w (flushBatch cfg b) S.st z s' →
      ∃ kept, Spared cfg w S.st s' rs kept) ∧
    ∀ hb m z s', (parseHdr hb).cmd = .write →
      RunsAlone cfg .synced w (handleOne cfg (parseHdr hb) m) S.st z s' → ∃ gin data kept,
        (s'.priv w).net.got = (S.st.priv w).net.got ++ gin ∧ data <+: gin ∧
        Whole (parseHdr hb).from' (parseHdr hb).len data ∧
        Spared cfg w S.st s' [(parseHdr hb).req data] kept ∧
        ∀ blk, s'.content cfg blk = S.st.content cfg blk ∨
          ((parseHdr hb).req data).Touches blk ∧
          (∀ f ∈ (s'.priv w).faultsOf 0, f.tag.blk ≠ blk) ∧
          s'.content cfg blk = pageOf (splice (S.st.bytes cfg) (parseHdr hb).from' data) blk := by
  have hi : Inv cfg (Mode.synced.alone w S.st) S.st := (h.inv rfl).alone fun hs => ⟨rfl, hs.2⟩
  have hm : (Mode.synced.alone w S.st).Stores cfg := ⟨rfl, hcodec⟩
  refine ⟨fun b rs z s' hb hrun => ?_, fun hb m z s' hc hrun => ?_⟩
  · obtain ⟨hi', ⟨x', hx', hr', hfl⟩, -⟩ := wp_loc_alone hi (flushBatch_spec hi hw.loc hw.rest hb)
      (hrun.mono fun o c s hadm => hadm.alone)
    obtain ⟨x₀, x₁, P, -, -, hfa, -⟩ := hfl.alone hi' hx' hr'
    exact ⟨_, hfa.spared hb hi hi' hm⟩
  · have hwp := handleOne_spec (m := m) hi hw.loc hw.rest (parseHdr_from_lt hb)
    have hwp' : wp (contract cfg (Mode.synced.alone w S.st)) w (handleOne cfg (parseHdr hb) m)
        (fun r s' => ∃ x', Loc cfg w x' s' ∧ x'.Rest (Mode.synced.alone w S.st) ∧ ∃ gin is,
          x'.priv.net.got = (S.st.priv w).net.got ++ gin ∧ gin.length ≤ (parseHdr hb).len ∧
          Script w S.st.log is x'.log ∧ Tried cfg (Mode.synced.alone w S.st) (parseHdr hb).from'
            (parseHdr hb).len gin is x'.priv.faults) S.st := by
      refine wp_mono hi hwp fun r s' _ hp => ?_
      obtain ⟨x', gin, gout, hx', hr', htk, hwr, htrue, hfalse⟩ := hp
      obtain ⟨is, hsc, htr⟩ := hwr hc
      refine ⟨x', hx', hr', gin, is, htk.got, ?_, hsc, htr⟩
      cases hr : r.1 with
      | true =>
          rw [(htrue hr).1]
          exact (if_pos hc).le
      | false => exact (hfalse hr).gin_le
    obtain ⟨hi', ⟨x', hx', hr', gin, is, hgot, hlen, hsc, htr⟩, -⟩ := wp_loc_alone hi hwp'
      (hrun.mono fun o c s hadm => hadm.alone)
    rw [← hx'.priv] at htr hgot
    rw [← hx'.log_eq hi' rfl hr'.since] at hsc
    obtain ⟨data, kept, hpre, hwh, hsp⟩ := htr.spared hc hlen hsc (hi'.solo w rfl) hi hi' hm
    exact ⟨gin, data, kept, hgot, hpre, hwh, hsp, hsp.block hi hi'⟩

theorem failed_writes_harmless_flushing : ∃ z s' kept, RunsAlone smallConfig .synced 0
    (flushBatch smallConfig writeBatch) (State.boot smallConfig) z s' ∧
      Spared smallConfig 0 (State.boot smallConfig) s' [blockWrite] kept := by
  have h : Daemon.Reachable smallConfig .synced (Daemon.booted smallConfig) :=
    ⟨_, ⟨State.boot_initial _, fun _ => .inr ⟨.blank, rfl⟩⟩, .refl⟩
  have hw : State.Idle (Daemon.booted smallConfig).st 0 :=
    ⟨fun _ => by simp [Daemon.booted, State.boot], rfl, rfl, rfl⟩
  have hi : Inv smallConfig (Mode.synced.alone 0 (Daemon.booted smallConfig).st)
      (Daemon.booted smallConfig).st := (h.inv rfl).alone fun hs => hs
  obtain ⟨z, s', hrun⟩ := wp_ends ⟨rfl, rfl, rfl⟩ (fun v hv => Option.some.inj hv) hi
    (fun m v hv => by cases hv) (flushBatch_spec hi hw.loc hw.rest writeBatch_holds)
  have hrun' := hrun.mono fun o c s hadm => hadm.of_alone rfl
  obtain ⟨kept, hsp⟩ := (failed_writes_harmless (fun h => absurd rfl h) h hw).1 _ _ z s'
    writeBatch_holds hrun'
  exact ⟨z, s', kept, hrun', hsp⟩

end NbdVram
