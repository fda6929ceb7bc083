import NbdVram.OpSet

/-!
# `do_blocks`

The phases of `do_blocks` and of the loops that prepare an op set for it: every
READ op that it leaves without error holds a page that its block had at one instant
since its snapshot, and every WRITE op that it leaves without error has been
published with its page.
-/

namespace NbdVram

open Interleave Span MutationLog

variable {cfg : Config} {md : Mode} {s s' : State} {w n i j : ℕ} {x x' x₀ : Local} {m m' m₀ : Mem}
  {P : Plan}

/-! ## The states of a staging slot on the way -/

def isStaged (_ : ℕ) (bs : List UInt8) (sl : SlotSt) : Prop := sl = .staged bs

def isUp (g : ℕ) (bs : List UInt8) (sl : SlotSt) : Prop := sl = .up g bs

/-- The copy is complete where synchronizes succeed. -/
structure IsSent (cfg : Config) (md : Mode) (g : ℕ) (bs : List UInt8) (sl : SlotSt) : Prop where
  calm : sl.Calm
  target : ∀ q, sl.target = some q → q.1 = g
  sent : md.Stores cfg → sl = .sent g bs

def isSnapped (bo : BlkOp) (t : ℕ) (sl : SlotSt) : Prop :=
  sl = .snapped bo.blk t bo.ent ∧ bo.dma = if bo.clen ≠ 0 then .queued else .none

def isDown (bo : BlkOp) (t : ℕ) (sl : SlotSt) : Prop :=
  bo.clen = 0 ∧ sl.Quiet ∨ bo.clen ≠ 0 ∧ sl = .down bo.blk t bo.ent

def isLoaded (cfg : Config) (md : Mode) (bo : BlkOp) (t : ℕ) (sl : SlotSt) : Prop :=
  sl.Quiet ∧ (md.Reads cfg → bo.clen ≠ 0 → sl = .loaded bo.blk t bo.ent)

/-- The op has lost its race. -/
def isLost (_ : BlkOp) (_ : ℕ) (sl : SlotSt) : Prop := sl.Quiet

def isNever (_ : BlkOp) (_ : ℕ) (_ : SlotSt) : Prop := False

theorem isStaged_target (g : ℕ) (bs : List UInt8) (sl : SlotSt) (q : ℕ × List UInt8)
    (h : isStaged g bs sl) (hq : sl.target = some q) : q.1 = g := by
  rw [isStaged] at h
  subst h
  cases hq

theorem isUp_target (g : ℕ) (bs : List UInt8) (sl : SlotSt) (q : ℕ × List UInt8)
    (h : isUp g bs sl) (hq : sl.target = some q) : q.1 = g := by
  rw [isUp] at h
  subst h
  cases hq
  rfl

theorem isSent_target (g : ℕ) (bs : List UInt8) (sl : SlotSt) (q : ℕ × List UInt8)
    (h : IsSent cfg md g bs sl) (hq : sl.target = some q) : q.1 = g := h.target q hq

theorem isSnapped_target (bo : BlkOp) (t : ℕ) (sl : SlotSt) (h : isSnapped bo t sl) :
    sl.target = none := by
  rw [h.1]
  rfl

theorem isDown_target (bo : BlkOp) (t : ℕ) (sl : SlotSt) (h : isDown bo t sl) :
    sl.target = none := by
  rcases h with ⟨-, h⟩ | ⟨-, h⟩
  · exact h.2
  · rw [h]
    rfl

theorem isLoaded_target (bo : BlkOp) (t : ℕ) (sl : SlotSt) (h : isLoaded cfg md bo t sl) :
    sl.target = none := h.1.2

theorem isLost_target (bo : BlkOp) (t : ℕ) (sl : SlotSt) (h : isLost bo t sl) :
    sl.target = none := h.2

theorem isNever_target (bo : BlkOp) (t : ℕ) (sl : SlotSt) (h : isNever bo t sl) :
    sl.target = none := h.elim

/-! ## Preparing -/

/-- An op as `blkop_set` leaves it. -/
structure Unprepared (j : ℕ) (x : Local) (m : Mem) : Prop where
  err : (m.ops j).err = .ok
  grain : (m.ops j).grain = slotNone
  dma : (m.ops j).dma = .none
  quiet : (x.slot (.cslot j)).Quiet

theorem framed_unprepared : Framed cfg n Unprepared := by
  intro i j x m x' m' hi hj hij ho ht h
  have hslot : x'.slot (.cslot j) = x.slot (.cslot j) :=
    ht.slot_eq hij fun _ q hq => by rw [h.quiet.2] at hq; cases hq
  refine ⟨?_, ?_, ?_, by rw [hslot]; exact h.quiet⟩
  all_goals rw [ht.ops j hij]
  exacts [h.err, h.grain, h.dma]

/-- An op that is ready for `do_blocks`. -/
structure Ready (cfg : Config) (md : Mode) (n : ℕ) (P : Plan) (L j : ℕ) (x : Local) (m : Mem) :
    Prop where
  read : (m.ops j).cmd = .read → RdOpen cfg L isSnapped j x m
  write : (m.ops j).cmd = .write → WrIs cfg md n P isStaged j x m

theorem framed_ready {L : ℕ} : Framed cfg n (Ready cfg md n P L) := by
  intro i j x m x' m' hi hj hij ho ht h
  refine ⟨fun hc => ?_, framed_write isStaged_target i j x m x' m' hi hj hij ho ht h.write⟩
  rw [ht.ops j hij] at hc
  exact framed_open isSnapped_target i j x m x' m' hi hj hij ho ht (h.read hc)

section

variable {f : Stage → SlotSt} {st : SlotSt}

theorem update_cslot_of_ne (hij : j ≠ i) : Function.update f (.cslot i) st (.cslot j) =
    f (.cslot j) :=
  Function.update_of_ne (by simp [hij]) _ _

theorem update_cslot_calm (hi : i < n) {sl : Stage} (hsl : ∀ j < n, sl ≠ .cslot j)
    (h : (f sl).Calm) : (Function.update f (.cslot i) st sl).Calm := by
  rwa [Function.update_of_ne (hsl i hi)]

/-- A slot without a target. -/
theorem update_cslot_target (ht : st.target = none) {sl : Stage} {q : ℕ × List UInt8} {Q : Prop}
    (hq : (Function.update f (.cslot i) st sl).target = some q) :
    sl ≠ .cslot i ∧ (f sl).target = some q ∨ Q := by
  rw [Function.update_apply] at hq
  split at hq
  · rw [ht] at hq
    cases hq
  · exact .inl ⟨‹_›, hq⟩

end

/-- What a visit comes to. -/
theorem visited {B : Local → Prop} (hx' : Loc cfg w x' s') (ht : Touch i x m x' m')
    (hg : Touch i x m x' m' → Going cfg md w n x₀ m₀ x' m') (hB : B x') :
    ∃ x', Loc cfg w x' s' ∧ Going cfg md w n x₀ m₀ x' m' ∧ B x' ∧ Touch i x m x' m' :=
  ⟨x', hx', hg ht, hB, ht⟩

theorem Loc.resv_slotNone (hi : Inv cfg md s) (hx : Loc cfg w x s) : x.resv slotNone = none := by
  by_contra hne
  obtain ⟨sz, hsz⟩ := Option.ne_none_iff_exists'.mp hne
  obtain ⟨ls, hwf⟩ := hi.alloc.wf
  have := hwf.live_lt (hi.resv_live (hx.mem_resv hsz))
  simp only [slotNone] at this
  omega

/-- `wr_prepare` as a visit. -/
theorem wrPrepare_visit {L : ℕ} (hlt : i < n) (hi : Inv cfg md s) (hx : Loc cfg w x s)
    (hg : Going cfg md w n x₀ m₀ x m) (hu : Unprepared i x m) (hc : (m.ops i).cmd = .write)
    (hP : P.page i = m.page (m.ops i).page) (hl : P.lost i) (hsp : ¬ P.spare i) :
    wp (contract cfg md) w (wrPrepare cfg i m) (fun m' s' => ∃ x', Loc cfg w x' s' ∧
      Going cfg md w n x₀ m₀ x' m' ∧ Ready cfg md n P L i x' m' ∧ Touch i x m x' m') s := by
  have hsl := hg.ops.cslot i hlt
  have hnone := hx.resv_slotNone hi
  refine wp_mono hi (wrPrepare_spec hi hx hg.free.alloc
    (by rw [hsl]; exact hlt.trans_le hg.ops.max) (by rw [hsl]; exact hu.quiet.1) rfl)
    fun m' s' _ h => ?_
  rw [← hP, hsl] at h
  rcases h with ⟨rfl, hal, hx'⟩ | ⟨g, sz, hgn, hgr, hsz, rfl, hx'⟩
  · refine visited hx' (.setOp ⟨rfl, rfl, rfl, rfl, rfl⟩ (fun h => absurd hu.err h)
      (fun j hj => update_cslot_of_ne hj) (fun _ _ => rfl) (fun _ _ _ => rfl)
      (fun _ => .inr (.inl rfl)) List.prefix_rfl) (fun ht => ?_) ⟨fun h => ?_, fun _ => ?_⟩
    · refine hg.visit ht hlt ⟨rfl, rfl, rfl, rfl⟩ rfl rfl ⟨[], Foreign.nil, by simp⟩ ⟨[_], rfl, ?_⟩
        (fun sl hsl => update_cslot_calm hlt hsl) (fun sl q => update_cslot_target rfl)
        (fun _ => .inl (by simp [BlkOp.refused])) (fun g h => .inl h)
        fun _ g h => .inl ⟨h, fun _ _ hgg => ?_⟩
      · exact .one false hu.err (by simp [BlkOp.refused])
      · rw [← hgg, hu.grain] at h
        exact absurd hnone h
    · rw [Mem.setOp_self] at h
      exact absurd (h.symm.trans hc) (by simp)
    · exact .inl ⟨.refused (by simp [BlkOp.refused]) hal hl,
        by simp [SlotSt.Quiet, SlotSt.Calm, SlotSt.target]⟩
  · refine visited hx' (.setOp ⟨rfl, rfl, rfl, rfl, rfl⟩ (fun h => absurd hu.err h)
      (fun j hj => update_cslot_of_ne hj) (fun _ _ => rfl) (fun g' hg' _ => ?_)
      (fun _ => .inr (.inr hgr)) List.prefix_rfl) (fun ht => ?_) ⟨fun h => ?_, fun _ => ?_⟩
    · exact Function.update_of_ne (by rintro rfl; exact hg' hgr) _ _
    · refine hg.visit ht hlt ⟨rfl, rfl, rfl, rfl⟩ rfl rfl ⟨[], Foreign.nil, by simp⟩ ⟨[], rfl, .none (by simp [BlkOp.holding])⟩
        (fun sl hsl => update_cslot_calm hlt hsl) (fun sl q => update_cslot_target rfl)
        (fun _ => .inr (by simp [BlkOp.holding])) (fun g' h => .inl ?_) fun _ g' h => ?_
      · show Function.update x.resv g (some sz) g' ≠ none
        rw [Function.update_of_ne (by rintro rfl; exact h hgr)]
        exact h
      · by_cases hgg : g' = g
        · rw [Mem.setOp_self]
          exact .inr ⟨hc, hu.err, hgg.symm⟩
        · have h : Function.update x.resv g (some sz) g' ≠ none := h
          rw [Function.update_of_ne hgg] at h
          refine .inl ⟨h, fun _ _ hgg' => ?_⟩
          rw [← hgg', hu.grain] at h
          exact absurd hnone h
    · rw [Mem.setOp_self] at h
      exact absurd (h.symm.trans hc) (by simp)
    · refine .inr ⟨cfg.codec.compBlock (P.page i), ⟨hsp, ?_, ?_, ?_, rfl, ?_, ⟨sz, ?_, hsz⟩,
        fun k hk hki hck => ?_⟩, ?_⟩
      · simp [BlkOp.holding, hu.err]
      · simpa [BlkOp.holding] using hgn
      · simp [BlkOp.holding]
      · simp [BlkOp.holding]
      · simp [BlkOp.holding]
      · -- the other WRITEs have no grain, or one that is reserved already
        rw [Mem.setOp_of_ne _ _ hki] at hck ⊢
        rw [Mem.setOp_self]
        rcases hg.held k hk hck with h | h
        · rw [h]
          exact hgn.symm
        · intro heq
          rw [heq] at h
          exact h hgr
      · simp [isStaged]

/-- `rd_prepare` as a visit, the first time or for a retry. -/
theorem rdPrepare_visit (hlt : i < n) (hi : Inv cfg md s) (hx : Loc cfg w x s)
    (hg : Going cfg md w n x₀ m₀ x m) (hc : (m.ops i).cmd = .read) (he : (m.ops i).err = .ok)
    (hq : (x.slot (.cslot i)).Quiet) :
    wp (contract cfg md) w (rdPrepare i m) (fun m' s' => ∃ x', Loc cfg w x' s' ∧
      Going cfg md w n x₀ m₀ x' m' ∧ (RdOpen cfg x₀.log.length isSnapped i x' m' ∧
        ∀ sl, sl ≠ .cslot i → x'.slot sl = x.slot sl) ∧ Touch i x m x' m') s := by
  refine wp_mono hi (rdPrepare_spec hi hx (hg.ops.blk i hlt) hq.1) fun m' s' _ h => ?_
  obtain ⟨e, new, hnew, rfl, hent, hx'⟩ := h
  have hnw : (m.ops i).cmd ≠ .write := by simp [hc]
  refine visited hx' (.setOp ⟨rfl, rfl, rfl, rfl, rfl⟩ (fun h => absurd he h)
    (fun j hj => update_cslot_of_ne hj) (fun j hj => Function.update_of_ne hj _ _)
    (fun _ _ _ => rfl) (fun h => absurd h hnw) (List.prefix_append _ _)) (fun ht => ?_) ⟨⟨?_, ?_,
    ⟨?_, ?_, ?_, ?_, ?_⟩, ?_, ?_⟩, fun sl hsl => Function.update_of_ne hsl _ _⟩
  · exact hg.visit_same ht hlt ⟨rfl, rfl, rfl, rfl⟩ rfl rfl ⟨new, hnew, rfl⟩
      ⟨[], rfl, .none (by simp [BlkOp.snapped])⟩
      (fun sl hsl => update_cslot_calm hlt hsl) (fun sl q => update_cslot_target rfl) rfl
      fun h => absurd h hnw
  · simpa [BlkOp.snapped] using he
  · simp only [Mem.setOp_self, BlkOp.snapped]
    split <;> simp
  · obtain ⟨new', -, hl⟩ := hg.log
    simp only [Function.update_self, hl, List.length_append]
    omega
  · simp
  · simp only [Function.update_self, Mem.setOp_self, BlkOp.snapped, List.take_length]
    exact hent
  · simp [BlkOp.snapped]
  · simp [BlkOp.snapped]
  · simp [BlkOp.snapped]
  · simp [BlkOp.snapped]

/-- The only slot that was copied to a held grain is the op's own. -/
theorem Going.target_held (hg : Going cfg md w n x₀ m₀ x m) {bs : List UInt8}
    (hh : Held cfg n P i x m bs) (ht : (x.slot (.cslot i)).target = none) (sl : Stage)
    (bs' : List UInt8) : (x.slot sl).target ≠ some ((m.ops i).grain, bs') := by
  intro h
  obtain ⟨k, hk, rfl, hc, hgr⟩ := hg.targets sl _ h
  by_cases hki : k = i
  · rw [hki, ht] at h
    cases h
  · exact hh.apart k hk hki hc hgr

/-- `wr_abort` as a visit: from now on the op counts as spared. -/
theorem wrAbort_visit {L : ℕ} {P' : Plan} (hlt : i < n) (hi : Inv cfg md s) (hx : Loc cfg w x s) (hcalm : x.Calm)
    (hg : Going cfg md w n x₀ m₀ x m) (hc : (m.ops i).cmd = .write) (he : (m.ops i).err = .ok)
    (hw : WrIs cfg md n P' isStaged i x m) (hsp : P.spare i) :
    wp (contract cfg md) w (wrAbort i m) (fun m' s' => ∃ x', Loc cfg w x' s' ∧
      Going cfg md w n x₀ m₀ x' m' ∧ (Ready cfg md n P L i x' m' ∧ x'.slot = x.slot) ∧
      Touch i x m x' m') s := by
  have hnr : (m.ops i).cmd ≠ .read := by simp [hc]
  rcases hw with ⟨hu, hq⟩ | ⟨bs, hh, hst⟩
  · -- nothing was reserved, so there is nothing to give back
    cases hu with
    | refused h _ _ | rejected h _ _ =>
        rw [he] at h
        cases h
    | given _ hgr hd _ =>
        unfold wrAbort
        simp only [hgr, ne_eq, not_true_eq_false, if_false]
        have hsame : m.setOp i { m.ops i with grain := slotNone, dma := .none } = m := by
          simp only [Mem.setOp, ← hgr, ← hd, Function.update_eq_self]
        show ∃ x', _
        rw [hsame]
        exact ⟨x, hx, hg, ⟨⟨fun h => absurd h hnr, fun _ => .inl ⟨.given he hgr hd hsp, hq⟩⟩, rfl⟩,
          .same (fun _ _ => rfl) (fun _ _ => rfl) rfl List.prefix_rfl⟩
  · have hst : x.slot (.cslot i) = .staged bs := hst
    obtain ⟨sz, hsz, -⟩ := hh.resv
    refine wp_mono hi (wrAbort_spec hi hx hg.free hcalm hsz hh.grain
      (hg.target_held hh (by rw [hst]; rfl))) fun m' s' _ h => ?_
    obtain ⟨rfl, hx'⟩ := h
    refine visited hx' (.setOp ⟨rfl, rfl, rfl, rfl, rfl⟩ (fun _ => rfl) (fun _ _ => rfl)
      (fun _ _ => rfl) (fun g _ hne => Function.update_of_ne (hne hc) _ _) (fun _ => .inr (.inl rfl))
      List.prefix_rfl) (fun ht => ?_) ⟨⟨fun h => ?_, fun _ => .inl ⟨?_, ?_⟩⟩, rfl⟩
    · refine hg.visit ht hlt ⟨rfl, rfl, rfl, rfl⟩ rfl rfl ⟨[], Foreign.nil, by simp⟩ ⟨[], rfl, .none (by simp)⟩
        (fun _ _ h => h) (fun sl q hq => ?_) (fun _ => .inl (by simp)) (fun g hgr => ?_)
        fun _ g hgr => ?_
      · by_cases hsl : sl = .cslot i
        · subst hsl
          rw [show x.slot (.cslot i) = _ from hst] at hq
          cases hq
        · exact .inl ⟨hsl, hq⟩
      · by_cases hgg : g = (m.ops i).grain
        · rw [hgg]
          exact .inr fun k hk hki hck => hh.apart k hk hki hck
        · left
          show Function.update x.resv (m.ops i).grain none g ≠ none
          rwa [Function.update_of_ne hgg]
      · have hgr : Function.update x.resv (m.ops i).grain none g ≠ none := hgr
        by_cases hgg : g = (m.ops i).grain
        · rw [hgg, Function.update_self] at hgr
          exact absurd rfl hgr
        · rw [Function.update_of_ne hgg] at hgr
          exact .inl ⟨hgr, fun _ _ h => absurd h.symm hgg⟩
    · rw [Mem.setOp_self] at h
      exact absurd h hnr
    · exact .given (by simpa using he) (by simp) (by simp) hsp
    · show (x.slot (.cslot i)).Quiet
      rw [hst]
      exact ⟨trivial, rfl⟩

/-! ## Queueing the copies -/

/-- If nothing was queued so far, no visited slot has a copy under way. -/
def Counted (i : ℕ) (x : Local) (k : ℕ) : Prop := k = 0 → ∀ j < i, (x.slot (.cslot j)).Calm

theorem Counted.step {k : ℕ} (h : Counted i x k)
    (hsl : ∀ sl, sl ≠ .cslot i → x'.slot sl = x.slot sl) (hc : (x'.slot (.cslot i)).Calm) :
    Counted (i + 1) x' k := by
  intro hk j hj
  by_cases hij : j = i
  · rw [hij]
    exact hc
  · rw [hsl _ (by simp [hij])]
    exact h hk j (by omega)

theorem Counted.succ {k : ℕ} : Counted i x (k + 1) := by
  intro h
  omega

/-- The copy of a READ op, as a visit: after it the copy is queued, or the op has failed. -/
theorem dtoh_visit {k : ℕ} (hlt : i < n) (hi : Inv cfg md s) (hx : Loc cfg w x s)
    (hg : Going cfg md w n x₀ m₀ x m) (hc : (m.ops i).cmd = .read)
    (ho : RdOpen cfg x₀.log.length isSnapped i x m) (hcl : (m.ops i).clen ≠ 0)
    (hk : Counted i x k) :
    wp (contract cfg md) w (do
      let r ← dtoh ⟨(m.ops i).req, (m.ops i).blk⟩ (.cslot (m.ops i).cslot) (m.ops i).grain (m.ops i).clen
      if r = false then pure (m.setOp i { m.ops i with err := .eio, dma := .none }, k)
      else pure (m, k + 1)) (fun y' s' => ∃ x', Loc cfg w x' s' ∧
        Going cfg md w n x₀ m₀ x' y'.1 ∧ (RdIs cfg md x₀.log.length isDown i x' y'.1 ∧
          Counted (i + 1) x' y'.2) ∧ Touch i x m x' y'.1) s := by
  have hnw : (m.ops i).cmd ≠ .write := by simp [hc]
  have hs := ho.snapped
  rw [hg.ops.cslot i hlt, hs.grain, hs.clen]
  refine wp_seq hi (dtoh_spec hi hx (hlt.trans_le hg.ops.max) ho.slot.1 (hs.entry.heap (by rw [← hs.clen]; exact hcl)))
    fun ok s₁ _ h => ?_
  rcases h with ⟨rfl, hx'⟩ | ⟨rfl, hla, hx'⟩
  · simp only [Bool.true_eq_false, if_false]
    refine visited hx' (.same (fun j hj => update_cslot_of_ne hj) (fun _ _ => rfl) rfl
      List.prefix_rfl) (fun ht => ?_) ⟨.inr ⟨ho.err, ho.dma, ⟨hs.base, hs.le, hs.entry, hs.clen,
        hs.grain⟩, .inr ⟨hcl, ?_⟩⟩, Counted.succ⟩
    · exact hg.visit_same ht hlt ⟨rfl, rfl, rfl, rfl⟩ rfl rfl ⟨[], Foreign.nil, by simp⟩
        ⟨[], rfl, .none (by simp)⟩ (fun sl hsl => update_cslot_calm hlt hsl)
        (fun sl q => update_cslot_target rfl) rfl fun h => absurd h hnw
    · simp
  · simp only [if_true]
    have hq : (x.slot (.cslot i)).Quiet := by
      rw [ho.slot.1]
      exact ⟨trivial, rfl⟩
    refine visited hx' (.setOp ⟨rfl, rfl, rfl, rfl, rfl⟩ (fun h => absurd ho.err h) (fun _ _ => rfl)
      (fun _ _ => rfl) (fun _ _ _ => rfl) (fun h => absurd h hnw) List.prefix_rfl) (fun ht => ?_)
      ⟨.inl ⟨.inl ⟨by simp, fun _ => hla⟩, hq⟩, hk.step (fun _ _ => rfl) hq.1⟩
    refine hg.visit_same ht hlt ⟨rfl, rfl, rfl, rfl⟩ rfl rfl ⟨[], Foreign.nil, by simp⟩ ⟨[_], rfl, ?_⟩
      (fun _ _ h => h) (fun sl q hq' => .inl ⟨?_, hq'⟩) rfl fun h => absurd h hnw
    · exact .one true ho.err (by simp)
    · rintro rfl
      rw [show (x.slot (.cslot i)).target = none from hq.2] at hq'
      cases hq'

/-- The copy of a WRITE op, as a visit. -/
theorem htod_visit {k : ℕ} {bs : List UInt8} (hlt : i < n) (hi : Inv cfg md s)
    (hx : Loc cfg w x s) (hg : Going cfg md w n x₀ m₀ x m) (hc : (m.ops i).cmd = .write)
    (hh : Held cfg n P i x m bs) (hst : x.slot (.cslot i) = .staged bs) (hk : Counted i x k) :
    wp (contract cfg md) w (do
      let r ← htod ⟨(m.ops i).req, (m.ops i).blk⟩ (.cslot (m.ops i).cslot) (m.ops i).grain (m.ops i).clen
      if r = false then pure (m.setOp i { m.ops i with err := .eio, dma := .none }, k)
      else pure (m, k + 1)) (fun y' s' => ∃ x', Loc cfg w x' s' ∧
        Going cfg md w n x₀ m₀ x' y'.1 ∧ (WrIs cfg md n P isUp i x' y'.1 ∧
          Counted (i + 1) x' y'.2) ∧ Touch i x m x' y'.1) s := by
  obtain ⟨sz, hsz, hle⟩ := hh.resv
  rw [hg.ops.cslot i hlt]
  refine wp_seq hi (htod_spec hi hx (hlt.trans_le hg.ops.max) hst hh.clen.symm hsz (by rw [hh.clen]; exact hle)
    (hg.target_held hh (by rw [hst]; rfl))) fun ok s₁ _ h => ?_
  rcases h with ⟨rfl, hx'⟩ | ⟨rfl, hla, hba, hx'⟩
  · simp only [Bool.true_eq_false, if_false]
    refine visited hx' (.same (fun j hj => update_cslot_of_ne hj) (fun _ _ => rfl) rfl
      List.prefix_rfl) (fun ht => ?_) ⟨.inr ⟨bs, ⟨hh.kept, hh.err, hh.grain, hh.dma, hh.comp, hh.clen,
        hh.resv, hh.apart⟩, ?_⟩, Counted.succ⟩
    · refine hg.visit_same ht hlt ⟨rfl, rfl, rfl, rfl⟩ rfl rfl ⟨[], Foreign.nil, by simp⟩
        ⟨[], rfl, .none (by simp)⟩ (fun sl hsl => update_cslot_calm hlt hsl) (fun sl q hq => ?_) rfl
        fun _ => ⟨rfl, fun _ h => h⟩
      simp only [Function.update_apply] at hq
      split at hq
      · cases hq
        exact .inr ⟨‹_›, hc, rfl⟩
      · exact .inl ⟨‹_›, hq⟩
    · simp [isUp]
  · simp only [if_true]
    have hq : (x.slot (.cslot i)).Quiet := by
      rw [hst]
      exact ⟨trivial, rfl⟩
    have hbf : md.batch = false := by
      cases hb : md.batch with
      | false => rfl
      | true => exact absurd (hba hb) (by simp)
    refine visited hx' (.setOp ⟨rfl, rfl, rfl, rfl, rfl⟩ (fun h => absurd hh.err h) (fun _ _ => rfl)
      (fun _ _ => rfl) (fun _ _ _ => rfl) (fun _ => .inl rfl) List.prefix_rfl) (fun ht => ?_)
      ⟨.inl ⟨.rejected (by simp) hla hbf, hq⟩, hk.step (fun _ _ => rfl) hq.1⟩
    refine hg.visit_same ht hlt ⟨rfl, rfl, rfl, rfl⟩ rfl rfl ⟨[], Foreign.nil, by simp⟩ ⟨[_], rfl, ?_⟩
      (fun _ _ h => h) (fun sl q hq' => .inl ⟨?_, hq'⟩) rfl fun _ => ⟨by simp, fun hb => ?_⟩
    · exact .one true hh.err (by simp)
    · rintro rfl
      rw [show (x.slot (.cslot i)).target = none from hq.2] at hq'
      cases hq'
    · rw [hbf] at hb
      cases hb

/-- A visit that does nothing. -/
theorem visited_same {B : Local → Prop} (hx : Loc cfg w x s) (hg : Going cfg md w n x₀ m₀ x m)
    (hB : B x) : ∃ x', Loc cfg w x' s ∧ Going cfg md w n x₀ m₀ x' m ∧ B x' ∧ Touch i x m x' m :=
  ⟨x, hx, hg, hB, .same (fun _ _ => rfl) (fun _ _ => rfl) rfl List.prefix_rfl⟩

theorem issue_visit {k : ℕ} (hlt : i < n) (hi : Inv cfg md s) (hx : Loc cfg w x s)
    (hg : Going cfg md w n x₀ m₀ x m) (hr : Ready cfg md n P x₀.log.length i x m)
    (hk : Counted i x k) :
    wp (contract cfg md) w (issue i (m, k)) (fun y' s' => ∃ x', Loc cfg w x' s' ∧
      Going cfg md w n x₀ m₀ x' y'.1 ∧ (OpIs cfg md n P x₀.log.length isUp isDown i x' y'.1 ∧
        Counted (i + 1) x' y'.2) ∧ Touch i x m x' y'.1) s := by
  unfold issue
  rcases hg.ops.cmd i hlt with hc | hc
  · have ho := hr.read hc
    have hq : (x.slot (.cslot i)).Quiet := by
      rw [ho.slot.1]
      exact ⟨trivial, rfl⟩
    by_cases hcl : (m.ops i).clen = 0
    · have hd : (m.ops i).dma = .none := by rw [ho.slot.2, if_neg (by simp [hcl])]
      simp only [hd, true_or, if_true]
      refine visited_same hx hg ⟨⟨fun _ => .inr ⟨ho.err, ho.dma, ho.snapped, .inl ⟨hcl, hq⟩⟩,
        fun h => ?_⟩, hk.step (fun _ _ => rfl) hq.1⟩
      rw [hc] at h
      cases h
    · have hd : (m.ops i).dma = .queued := by rw [ho.slot.2, if_pos hcl]
      dsimp only
      rw [if_neg (by simp [hd, ho.err]), if_pos hc]
      refine wp_mono hi (dtoh_visit hlt hi hx hg hc ho hcl hk) fun y' s' _ h => ?_
      obtain ⟨x', hx', hg', ⟨hB, hk'⟩, ht⟩ := h
      refine ⟨x', hx', hg', ⟨⟨fun _ => hB, fun h => ?_⟩, hk'⟩, ht⟩
      rw [ht.alike.cmd, hc] at h
      cases h
  · have hnr : (m.ops i).cmd ≠ .read := by simp [hc]
    rcases hr.write hc with ⟨hu, hq⟩ | ⟨bs, hh, hst⟩
    · have hskip : (m.ops i).dma = .none ∨ (m.ops i).err ≠ .ok := by
        cases hu with
        | refused h _ _ | rejected h _ _ => exact .inr (by simp [h])
        | given _ _ h _ => exact .inl h
      simp only [if_pos hskip]
      exact visited_same hx hg ⟨⟨fun h => absurd h hnr, fun _ => .inl ⟨hu, hq⟩⟩,
        hk.step (fun _ _ => rfl) hq.1⟩
    · dsimp only
      rw [if_neg (by simp [hh.dma, hh.err]), if_neg hnr]
      refine wp_mono hi (htod_visit hlt hi hx hg hc hh hst hk) fun y' s' _ h => ?_
      obtain ⟨x', hx', hg', ⟨hB, hk'⟩, ht⟩ := h
      refine ⟨x', hx', hg', ⟨⟨fun h => ?_, fun _ => hB⟩, hk'⟩, ht⟩
      rw [ht.alike.cmd, hc] at h
      cases h

/-! ## Waiting for the copies -/

theorem IsSent.of_up {g : ℕ} {bs : List UInt8} {sl : SlotSt} {ok : Bool} (h : isUp g bs sl)
    (hok : md.sync = true → ok = true) : IsSent cfg md g bs (sl.synced ok) := by
  rw [isUp] at h
  subst h
  refine ⟨SlotSt.synced_calm _ ok, fun q hq => ?_, fun hm => ?_⟩
  · have := SlotSt.synced_target hq
    cases this
    rfl
  · rw [hok hm.1]
    rfl

theorem Going.synced {ok : Bool} (hg : Going cfg md w n x₀ m₀ x m) :
    Going cfg md w n x₀ m₀ { x with slot := fun sl => (x.slot sl).synced ok } m :=
  ⟨hg.ops, hg.evolves, ⟨hg.free.locks, hg.free.entry, hg.free.disp, hg.free.busy⟩, hg.net, hg.start, hg.log,
    hg.faults, fun sl _ => SlotSt.synced_calm _ ok,
    fun sl q hq => hg.targets sl q (SlotSt.synced_target hq), hg.held, hg.resv, hg.since⟩

/-- A READ after the synchronize. -/
theorem RdIs.synced {ok : Bool} {L : ℕ} (h : RdIs cfg md L isDown j x m)
    (hok : md.sync = true → ok = true) :
    RdIs cfg md L (isLoaded cfg md) j { x with slot := fun sl => (x.slot sl).synced ok } m := by
  rcases h with ⟨hs, hq⟩ | ho
  · refine .inl ⟨hs, ?_⟩
    show ((x.slot (.cslot j)).synced ok).Quiet
    rwa [SlotSt.synced_of_calm hq.1]
  · refine .inr ⟨ho.err, ho.dma, ⟨ho.snapped.base, ho.snapped.le, ho.snapped.entry,
      ho.snapped.clen, ho.snapped.grain⟩, ?_⟩
    show isLoaded cfg md _ _ ((x.slot (.cslot j)).synced ok)
    rcases ho.slot with ⟨hz, hq⟩ | ⟨-, hd⟩
    · rw [SlotSt.synced_of_calm hq.1]
      exact ⟨hq, fun _ h => absurd hz h⟩
    · rw [hd]
      refine ⟨⟨SlotSt.synced_calm _ ok, ?_⟩, fun hm _ => ?_⟩
      · cases ok <;> rfl
      · rw [hok hm.1.1]
        rfl

/-- Where no copy is under way, there is nothing to wait for. -/
theorem RdIs.calm {L : ℕ} (h : RdIs cfg md L isDown j x m) (hc : (x.slot (.cslot j)).Calm) :
    RdIs cfg md L (isLoaded cfg md) j x m := by
  rcases h with hs | ho
  · exact .inl hs
  · refine .inr ⟨ho.err, ho.dma, ho.snapped, ?_⟩
    rcases ho.slot with ⟨hz, hq⟩ | ⟨-, hd⟩
    · exact ⟨hq, fun _ h => absurd hz h⟩
    · rw [hd] at hc
      exact hc.elim

/-- `cuStreamSynchronize` takes every queued copy to its end. -/
theorem syncIf_phase {st : ℕ → List UInt8 → SlotSt → Prop} {k : ℕ}
    (hst : ∀ g bs sl ok, st g bs sl → (md.sync = true → ok = true) →
      IsSent cfg md g bs (sl.synced ok))
    (hst' : ∀ g bs sl, st g bs sl → sl.Calm → IsSent cfg md g bs sl) (hi : Inv cfg md s)
    (hx : Loc cfg w x s) (hg : Going cfg md w n x₀ m₀ x m) (hk : Counted n x k)
    (h : ∀ j < n, OpIs cfg md n P x₀.log.length st isDown j x m) :
    wp (contract cfg md) w (syncIf k) (fun _ s' => ∃ x', Loc cfg w x' s' ∧
      Going cfg md w n x₀ m₀ x' m ∧ x'.Calm ∧
      ∀ j < n, OpIs cfg md n P x₀.log.length (IsSent cfg md) (isLoaded cfg md) j x' m) s := by
  unfold syncIf
  by_cases hz : k = 0
  · rw [if_pos hz]
    refine ⟨x, hx, hg, fun sl => ?_, fun j hj => ⟨fun hc => ?_, fun hc => ?_⟩⟩
    · by_cases hsl : ∃ j < n, sl = .cslot j
      · obtain ⟨j, hj, rfl⟩ := hsl
        exact hk hz j hj
      · exact hg.slots sl fun j hj he => hsl ⟨j, hj, he⟩
    · exact ((h j hj).read hc).calm (hk hz j hj)
    · rcases (h j hj).write hc with hu | ⟨bs, hh, hs⟩
      · exact .inl hu
      · exact .inr ⟨bs, hh, hst' _ _ _ hs (hk hz j hj)⟩
  · rw [if_neg hz]
    refine wp_seq hi (sync_spec hi hx) fun ok s₁ _ h' => ?_
    obtain ⟨hok, hx'⟩ := h'
    refine ⟨_, hx', hg.synced, fun sl => SlotSt.synced_calm _ ok,
      fun j hj => ⟨fun hc => ((h j hj).read hc).synced hok, fun hc => ?_⟩⟩
    rcases (h j hj).write hc with ⟨hu, hq⟩ | ⟨bs, hh, hs⟩
    · refine .inl ⟨hu, ?_⟩
      show ((x.slot (.cslot j)).synced ok).Quiet
      rwa [SlotSt.synced_of_calm hq.1]
    · exact .inr ⟨bs, ⟨hh.kept, hh.err, hh.grain, hh.dma, hh.comp, hh.clen, hh.resv, hh.apart⟩,
        hst _ _ _ ok hs hok⟩

/-! ## Validating -/

theorem Mem.write_page_self (m : Mem) (p : Ptr) (q : Page) : (m.write p q.bytes).page p = q := by
  simp only [Mem.page, Mem.write, Function.update_self]
  exact Page.read_splice_self _ _ _

theorem Mem.write_buf_of_not_covers {p : Ptr} {q : Page} {b : Buf} {a : ℕ}
    (h : ¬ p.Covers b a) : (m.write p q.bytes).buf b a = m.buf b a := by
  simp only [Mem.write, Function.update_apply]
  split
  · rename_i hb
    subst hb
    refine splice_out ?_
    rw [q.length_eq]
    by_contra hc
    exact h ⟨rfl, by omega, by omega⟩
  · rfl

theorem Snapped.grow {L : ℕ} {new : List Mut} (h : Snapped cfg L j x m) (hlog : x'.log = x.log ++ new)
    (hsnap : x'.priv.snap j = x.priv.snap j) : Snapped cfg L j x' m := by
  refine ⟨by rw [hsnap]; exact h.base, ?_, ?_, h.clen, h.grain⟩
  · rw [hsnap, hlog, List.length_append]
    exact h.le.trans (Nat.le_add_right _ _)
  · rw [hsnap, hlog, List.take_append_of_le_length h.le]
    exact h.entry

/-- Everything since the start of the op set was done by others. -/
theorem Going.fetched (hg : Going cfg md w n x₀ m₀ x m) (hs : Snapped cfg x₀.log.length i x m) :
    Fetched cfg w x i (m.ops i).blk (m.ops i).ent := by
  refine ⟨hs.le, ?_, hs.entry⟩
  obtain ⟨new, hnew, hl⟩ := hg.log
  have hsuf : x.log.drop (x.priv.snap i) <:+ new := by
    obtain ⟨d, hd⟩ := Nat.exists_eq_add_of_le hs.base
    rw [hl, hd, ← List.drop_drop, List.drop_left]
    exact List.drop_suffix _ _
  exact fun m hm => hnew m (hsuf.subset hm)

/-- A READ op accepts the page `p`, as a visit. -/
theorem accept_visit {p : Page} {L : ℕ} {bo : BlkOp} (hx' : Loc cfg w x' s') (hlt : i < n)
    (hg : Going cfg md w n x₀ m₀ x m) (hc : (m.ops i).cmd = .read) (he : (m.ops i).err = .ok)
    (hbo : bo = { m.ops i with dma := .done })
    (hfree : x'.locks = x.locks ∧ x'.entry = x.entry ∧ x'.disp = x.disp ∧
      x'.priv.busy = x.priv.busy)
    (hpriv : x'.priv = x.priv) (hresv : x'.resv = x.resv)
    (hslot : ∀ j, j ≠ i → x'.slot (.cslot j) = x.slot (.cslot j))
    (hsl : ∀ sl, (∀ j < n, sl ≠ .cslot j) → (x.slot sl).Calm → (x'.slot sl).Calm)
    (htg : ∀ sl q, (x'.slot sl).target = some q → sl ≠ .cslot i ∧ (x.slot sl).target = some q)
    (hlog : ∃ new, Alien w new ∧ x'.log = x.log ++ new)
    (hp : md.Reads cfg → ∃ t, L ≤ t ∧ x.priv.snap i ≤ t ∧ t ≤ x'.log.length ∧
      p = pageOf (disk (x'.log.take t)) (m.ops i).blk) :
    Loc cfg w x' s' ∧ Going cfg md w n x₀ m₀ x' ((m.write (m.ops i).page p.bytes).setOp i bo) ∧
      Settled cfg md L i x' ((m.write (m.ops i).page p.bytes).setOp i bo) ∧
      Touch i x m x' ((m.write (m.ops i).page p.bytes).setOp i bo) := by
  subst hbo
  have hnw : (m.ops i).cmd ≠ .write := by simp [hc]
  obtain ⟨new, hnew, hl⟩ := hlog
  have ht : Touch i x m x'
      ((m.write (m.ops i).page p.bytes).setOp i { m.ops i with dma := .done }) := by
    refine ⟨fun j hj => Mem.setOp_of_ne _ _ hj, ?_, fun h => absurd he h, rfl,
      fun j hj => .inl (hslot j hj), fun _ _ => by rw [hpriv], fun _ _ _ => by rw [hresv],
      fun h => absurd h hnw, by rw [hl]; exact List.prefix_append _ _, fun b a h => ?_⟩
    · rw [Mem.setOp_self]
      exact ⟨rfl, rfl, rfl, rfl, rfl⟩
    · exact Mem.write_buf_of_not_covers fun hcov => h ⟨hc, hcov⟩
  refine ⟨hx', ?_, .inr ⟨?_, ?_, fun hm => ?_⟩, ht⟩
  · exact hg.visit_same ht hlt hfree (by rw [hpriv]) (by rw [hpriv]) ⟨new, hnew, hl⟩
      ⟨[], by rw [hpriv]; rfl, .none (by simp)⟩ hsl (fun sl q hq => .inl (htg sl q hq)) hresv
      fun h => absurd h hnw
  · rw [Mem.setOp_self]
    exact he
  · rw [Mem.setOp_self]
  · obtain ⟨t, h1, h2, h3, h4⟩ := hp hm
    refine ⟨t, h1, by rwa [hpriv], h3, ?_⟩
    rw [Mem.setOp_self, Mem.setOp_page, Mem.write_page_self, h4]

/-- A READ op fails, as a visit. -/
theorem fail_visit {L : ℕ} (bo : BlkOp) (hx' : Loc cfg w x' s') (hlt : i < n)
    (hg : Going cfg md w n x₀ m₀ x m) (hc : (m.ops i).cmd = .read) (he : (m.ops i).err = .ok)
    (ha : (m.ops i).Alike bo) (hbo : bo.err = .eio)
    (hfree : x'.locks = x.locks ∧ x'.entry = x.entry ∧ x'.disp = x.disp ∧
      x'.priv.busy = x.priv.busy)
    (hpriv : x'.priv = { x.priv with faults := [⟨(m.ops i).tag, true⟩] ++ x.priv.faults })
    (hresv : x'.resv = x.resv)
    (hslot : ∀ j, j ≠ i → x'.slot (.cslot j) = x.slot (.cslot j))
    (hsl : ∀ sl, (∀ j < n, sl ≠ .cslot j) → (x.slot sl).Calm → (x'.slot sl).Calm)
    (htg : ∀ sl q, (x'.slot sl).target = some q → sl ≠ .cslot i ∧ (x.slot sl).target = some q)
    (hlog : ∃ new, Alien w new ∧ x'.log = x.log ++ new) (hm : md.Reads cfg → md.launch = false) :
    Loc cfg w x' s' ∧ Going cfg md w n x₀ m₀ x' (m.setOp i bo) ∧
      Settled cfg md L i x' (m.setOp i bo) ∧ Touch i x m x' (m.setOp i bo) := by
  have hnw : (m.ops i).cmd ≠ .write := by simp [hc]
  obtain ⟨new, hnew, hl⟩ := hlog
  have ht : Touch i x m x' (m.setOp i bo) :=
    .setOp ha (fun h => absurd he h) hslot (fun _ _ => by rw [hpriv])
      (fun _ _ _ => by rw [hresv]) (fun h => absurd h hnw) (by rw [hl]; exact List.prefix_append _ _)
  refine ⟨hx', ?_, .inl ⟨by simp [hbo], hm⟩, ht⟩
  exact hg.visit_same ht hlt hfree (by rw [hpriv]) (by rw [hpriv]) ⟨new, hnew, hl⟩
    ⟨_, by rw [hpriv], .one true he (by simp [hbo])⟩ hsl (fun sl q hq => .inl (htg sl q hq)) hresv
    fun h => absurd h hnw

/-- `rd_finish` and what `do_blocks` makes of its result, as a visit. -/
theorem finishOne_visit {k : ℕ} (hlt : i < n) (hi : Inv cfg md s) (hx : Loc cfg w x s)
    (hg : Going cfg md w n x₀ m₀ x m)
    (ho : OpIs cfg md n P x₀.log.length (IsSent cfg md) (isLoaded cfg md) i x m) :
    wp (contract cfg md) w (finishOne cfg i (m, k)) (fun y' s' => ∃ x', Loc cfg w x' s' ∧
      Going cfg md w n x₀ m₀ x' y'.1 ∧
      OpIs cfg md n P x₀.log.length (IsSent cfg md) isLost i x' y'.1 ∧ Touch i x m x' y'.1) s := by
  unfold finishOne
  rcases hg.ops.cmd i hlt with hc | hc
  · have hnw : (m.ops i).cmd ≠ .write := by simp [hc]
    -- what the visit of a READ has to show
    have hread : ∀ {m' : Mem} {s' : State}, (∃ x', Loc cfg w x' s' ∧
        Going cfg md w n x₀ m₀ x' m' ∧ RdIs cfg md x₀.log.length isLost i x' m' ∧
        Touch i x m x' m') → ∃ x', Loc cfg w x' s' ∧ Going cfg md w n x₀ m₀ x' m' ∧
        OpIs cfg md n P x₀.log.length (IsSent cfg md) isLost i x' m' ∧ Touch i x m x' m' := by
      rintro m' s' ⟨x', hx', hg', hB, ht⟩
      exact ⟨x', hx', hg', ⟨fun _ => hB, fun h => absurd (ht.alike.cmd ▸ h) hnw⟩, ht⟩
    rcases ho.read hc with ⟨hs, hq⟩ | hop
    · have hno : ¬ (m.ops i).Open := by
        rintro ⟨-, h1, h2⟩
        rcases hs with ⟨h, -⟩ | ⟨-, h, -⟩
        · rw [h1] at h
          cases h
        · exact h2 h
      rw [if_neg hno]
      exact hread (visited_same hx hg (.inl ⟨hs, hq⟩))
    · rw [if_pos ⟨hc, hop.err, hop.dma⟩]
      refine wp_seq hi (rdFinish_spec hi hx (hg.ops.blk i hlt) (hg.ops.cslot i hlt)
        (hlt.trans_le hg.ops.max) hop.slot.1.1
        hop.snapped.clen (hg.fetched hop.snapped)
        (hg.since.trans hop.snapped.base) hop.slot.2 hop.slot.1.2) fun r s₁ _ h => ?_
      obtain ⟨new, st, fs, x', hnew, hst, htn, rfl, hx', hr⟩ := h
      have hslot : ∀ j, j ≠ i → Function.update x.slot (.cslot i) st (.cslot j) =
          x.slot (.cslot j) := fun j hj => update_cslot_of_ne hj
      have htg : ∀ sl q, (Function.update x.slot (.cslot i) st sl).target = some q →
          sl ≠ .cslot i ∧ (x.slot sl).target = some q := fun sl q hq =>
        (update_cslot_target (Q := False) htn hq).resolve_right id
      have hq : (Function.update x.slot (.cslot i) st (.cslot i)).Quiet := by
        rw [Function.update_self]
        exact ⟨hst, htn⟩
      obtain ⟨f, m₁⟩ := r
      cases f with
      | done =>
          obtain ⟨rfl, p, rfl, hp⟩ := hr
          apply hread
          obtain ⟨h1, h2, h3, h4⟩ := accept_visit (L := x₀.log.length) hx' hlt hg hc hop.err rfl
            ⟨rfl, rfl, rfl, rfl⟩ rfl rfl hslot (fun sl hsl => update_cslot_calm hlt hsl) htg
            ⟨new, hnew, rfl⟩ (fun hm => by
              obtain ⟨t, h1, h2, h3⟩ := hp hm
              exact ⟨t, hop.snapped.base.trans h1, h1, h2, h3⟩)
          exact ⟨_, h1, h2, .inl ⟨h3, hq⟩, h4⟩
      | again =>
          obtain ⟨rfl, hr⟩ := hr
          have hr : m₁ = m := hr
          subst hr
          apply hread
          refine visited hx' (.same hslot (fun _ _ => rfl) rfl (List.prefix_append _ _))
            (fun ht => ?_) (.inr ⟨hop.err, hop.dma, hop.snapped.grow rfl rfl, hq⟩)
          exact hg.visit_same ht hlt ⟨rfl, rfl, rfl, rfl⟩ rfl rfl ⟨new, hnew, rfl⟩ ⟨[], rfl, .none (by simp)⟩
            (fun sl hsl => update_cslot_calm hlt hsl) (fun sl q hq => .inl (htg sl q hq)) rfl
            fun h => absurd h hnw
      | corrupt =>
          obtain ⟨rfl, hr, hm⟩ := hr
          have hr : m₁ = m := hr
          subst hr
          apply hread
          obtain ⟨h1, h2, h3, h4⟩ := fail_visit (L := x₀.log.length)
            { m₁.ops i with err := .eio } hx' hlt hg hc hop.err ⟨rfl, rfl, rfl, rfl, rfl⟩ rfl
            ⟨rfl, rfl, rfl, rfl⟩ rfl rfl hslot (fun sl hsl => update_cslot_calm hlt hsl) htg
            ⟨new, hnew, rfl⟩ fun h => absurd h hm
          exact ⟨_, h1, h2, .inl ⟨h3, hq⟩, h4⟩
  · have hno : ¬ (m.ops i).Open := by
      rintro ⟨h, -⟩
      rw [hc] at h
      cases h
    rw [if_neg hno]
    refine visited_same hx hg ⟨fun h => ?_, ho.write⟩
    rw [hc] at h
    cases h

/-- Two visits to one READ op are one. -/
theorem Touch.trans {x'' : Local} {m'' : Mem} (h : Touch i x m x' m') (h' : Touch i x' m' x'' m'')
    (hc : (m.ops i).cmd = .read) : Touch i x m x'' m'' := by
  have hc' : (m'.ops i).cmd = .read := h.alike.cmd.trans hc
  have hnw : (m.ops i).cmd ≠ .write := by simp [hc]
  have hnw' : (m'.ops i).cmd ≠ .write := by simp [hc']
  refine ⟨fun j hj => (h'.ops j hj).trans (h.ops j hj), h.alike.trans h'.alike, fun he => ?_,
    h'.reqs.trans h.reqs, fun j hj => .inl ?_, fun j hj => (h'.snap j hj).trans (h.snap j hj),
    fun g hg _ => ?_, fun hw => absurd hw hnw, h.log.trans h'.log, fun b a hb => ?_⟩
  · have h1 := h.err he
    rw [h'.err (by rwa [h1]), h1]
  · rw [(h'.slot j hj).resolve_right fun h => hnw' h.1, (h.slot j hj).resolve_right fun h => hnw h.1]
  · have h1 := h.resv g hg fun hw => absurd hw hnw
    rw [h'.resv g (by rwa [h1]) fun hw => absurd hw hnw', h1]
  · rw [h'.buf b a, h.buf b a hb]
    rw [h.alike.cmd, h.alike.page]
    exact hb

theorem reissue_visit {k : ℕ} (hlt : i < n) (hi : Inv cfg md s) (hx : Loc cfg w x s)
    (hg : Going cfg md w n x₀ m₀ x m)
    (ho : OpIs cfg md n P x₀.log.length (IsSent cfg md) isLost i x m) (hk : Counted i x k) :
    wp (contract cfg md) w (reissue i (m, k)) (fun y' s' => ∃ x', Loc cfg w x' s' ∧
      Going cfg md w n x₀ m₀ x' y'.1 ∧ (OpIs cfg md n P x₀.log.length (IsSent cfg md) isDown i x' y'.1 ∧
        Counted (i + 1) x' y'.2) ∧ Touch i x m x' y'.1) s := by
  unfold reissue
  rcases hg.ops.cmd i hlt with hc | hc
  · have hnw : (m.ops i).cmd ≠ .write := by simp [hc]
    rcases ho.read hc with ⟨hs, hq⟩ | hop
    · have hno : ¬ (m.ops i).Open := by
        rintro ⟨-, h1, h2⟩
        rcases hs with ⟨h, -⟩ | ⟨-, h, -⟩
        · rw [h1] at h
          cases h
        · exact h2 h
      rw [if_neg hno]
      exact visited_same hx hg ⟨⟨fun _ => .inl ⟨hs, hq⟩, fun h => absurd h hnw⟩,
        hk.step (fun _ _ => rfl) hq.1⟩
    · rw [if_pos ⟨hc, hop.err, hop.dma⟩]
      refine wp_seq hi (rdPrepare_visit hlt hi hx hg hc hop.err hop.slot) fun m₁ s₁ hi₁ h => ?_
      obtain ⟨x₁, hx₁, hg₁, ⟨hop₁, hsl₁⟩, ht₁⟩ := h
      have hc₁ : (m₁.ops i).cmd = .read := ht₁.alike.cmd.trans hc
      have hk₁ : Counted i x₁ k := fun hz j hj => by
        rw [hsl₁ _ (by simp; omega)]
        exact hk hz j hj
      have hq₁ : (x₁.slot (.cslot i)).Quiet := by
        rw [hop₁.slot.1]
        exact ⟨trivial, rfl⟩
      dsimp only
      by_cases hz : (m₁.ops i).clen = 0
      · rw [if_pos (by rw [hop₁.slot.2, if_neg (by simp [hz])])]
        exact ⟨x₁, hx₁, hg₁, ⟨⟨fun _ => .inr ⟨hop₁.err, hop₁.dma, hop₁.snapped, .inl ⟨hz, hq₁⟩⟩,
          fun h => absurd (hc₁.symm.trans h) (by simp)⟩, hk₁.step (fun _ _ => rfl) hq₁.1⟩, ht₁⟩
      · rw [if_neg (by rw [hop₁.slot.2, if_pos hz]; simp)]
        refine wp_mono hi₁ (dtoh_visit hlt hi₁ hx₁ hg₁ hc₁ hop₁ hz hk₁) fun y' s₂ _ h => ?_
        obtain ⟨x₂, hx₂, hg₂, ⟨hB, hk₂⟩, ht₂⟩ := h
        have hc₂ := ht₂.alike.cmd.trans hc₁
        exact ⟨x₂, hx₂, hg₂, ⟨⟨fun _ => hB, fun h => absurd (hc₂.symm.trans h) (by simp)⟩, hk₂⟩,
          ht₁.trans ht₂ hc⟩
  · have hno : ¬ (m.ops i).Open := by
      rintro ⟨h, -⟩
      rw [hc] at h
      cases h
    rw [if_neg hno]
    have hcalm : (x.slot (.cslot i)).Calm := by
      rcases ho.write hc with ⟨-, hq⟩ | ⟨bs, -, hs⟩
      · exact hq.1
      · exact hs.calm
    refine visited_same hx hg ⟨⟨fun h => ?_, ho.write⟩, hk.step (fun _ _ => rfl) hcalm⟩
    rw [hc] at h
    cases h

/-- Every slot is calm when the ops' own are. -/
theorem Going.calm {st : ℕ → List UInt8 → SlotSt → Prop} {R : BlkOp → ℕ → SlotSt → Prop} {L : ℕ}
    (hg : Going cfg md w n x₀ m₀ x m) (hst : ∀ g bs sl, st g bs sl → sl.Calm)
    (hR : ∀ bo t sl, R bo t sl → sl.Calm) (h : ∀ j < n, OpIs cfg md n P L st R j x m) : x.Calm := by
  intro sl
  by_cases hsl : ∃ j < n, sl = .cslot j
  · obtain ⟨j, hj, rfl⟩ := hsl
    rcases hg.ops.cmd j hj with hc | hc
    · rcases (h j hj).read hc with ⟨-, hq⟩ | ho
      · exact hq.1
      · exact hR _ _ _ ho.slot
    · rcases (h j hj).write hc with ⟨-, hq⟩ | ⟨bs, -, hs⟩
      · exact hq.1
      · exact hst _ _ _ hs
  · exact hg.slots sl fun j hj he => hsl ⟨j, hj, he⟩

/-- **The rounds of the read phase**: after them every READ is settled or has lost its last
race. -/
theorem rounds_phase (k : ℕ) (hi : Inv cfg md s) (hx : Loc cfg w x s)
    (hg : Going cfg md w n x₀ m₀ x m)
    (h : ∀ j < n, OpIs cfg md n P x₀.log.length (IsSent cfg md) (isLoaded cfg md) j x m) :
    wp (contract cfg md) w (rounds cfg n k m) (fun m' s' => ∃ x', Loc cfg w x' s' ∧
      Going cfg md w n x₀ m₀ x' m' ∧
      ∀ j < n, OpIs cfg md n P x₀.log.length (IsSent cfg md) isLost j x' m') s := by
  induction k generalizing x m s with
  | zero =>
      refine ⟨x, hx, hg, fun j hj => ⟨fun hc => ?_, (h j hj).write⟩⟩
      rcases (h j hj).read hc with hs | ho
      · exact .inl hs
      · exact .inr ⟨ho.err, ho.dma, ho.snapped, ho.slot.1⟩
  | succ k ih =>
      unfold rounds
      refine wp_seq hi (wp_each Prod.fst (fun _ x y => Going cfg md w n x₀ m₀ x y.1)
        (framed_op isSent_target isLoaded_target) (framed_op isSent_target isLost_target)
        (fun _ _ _ hg => hg.ops)
        (fun i x y s hlt hi hx hg ho => finishOne_visit hlt hi hx hg ho) hi hx hg h)
        fun y s₁ hi₁ h₁ => ?_
      obtain ⟨x₁, hx₁, hg₁, ho₁⟩ := h₁
      by_cases hz : y.2 = 0
      · rw [if_pos hz]
        exact ⟨x₁, hx₁, hg₁, ho₁⟩
      · rw [if_neg hz]
        refine wp_seq hi₁ (count_spec hi₁ hx₁ rfl) fun _ s₂ hi₂ hx₂ => ?_
        refine wp_seq hi₂ (wp_each (B := OpIs cfg md n P x₀.log.length (IsSent cfg md) isDown) Prod.fst
          (fun i x y => Going cfg md w n x₀ m₀ x y.1 ∧ Counted i x y.2)
          (framed_op isSent_target isLost_target) (framed_op isSent_target isDown_target)
          (fun _ _ _ h => h.1.ops)
          (fun i x y s hlt hi hx hj ho => ?_) hi₂ hx₂ ⟨hg₁, fun _ j hj => by omega⟩ ho₁)
          fun y' s₃ hi₃ h₃ => ?_
        · refine wp_mono hi (reissue_visit hlt hi hx hj.1 ho hj.2) fun y' s' _ h => ?_
          obtain ⟨x', h1, h2, ⟨h3, h4⟩, h5⟩ := h
          exact ⟨x', h1, ⟨h2, h4⟩, h3, h5⟩
        · obtain ⟨x₃, hx₃, ⟨hg₃, hk₃⟩, ho₃⟩ := h₃
          refine wp_seq hi₃ (syncIf_phase (fun g bs sl ok hs _ => ?_) (fun _ _ _ hs _ => hs) hi₃ hx₃
            hg₃ hk₃ ho₃) fun _ s₄ hi₄ h₄ => ?_
          · rwa [SlotSt.synced_of_calm hs.calm]
          · obtain ⟨x₄, hx₄, hg₄, -, ho₄⟩ := h₄
            exact ih hi₄ hx₄ hg₄ ho₄

/-! ## The locked path -/

theorem lockedOne_visit (hlt : i < n) (hi : Inv cfg md s) (hx : Loc cfg w x s) (hcalm : x.Calm)
    (hg : Going cfg md w n x₀ m₀ x m)
    (ho : OpIs cfg md n P x₀.log.length (IsSent cfg md) isLost i x m) :
    wp (contract cfg md) w (lockedOne cfg i m) (fun m' s' => ∃ x', Loc cfg w x' s' ∧
      Going cfg md w n x₀ m₀ x' m' ∧
      (OpIs cfg md n P x₀.log.length (IsSent cfg md) isNever i x' m' ∧ x'.Calm) ∧
      Touch i x m x' m') s := by
  unfold lockedOne
  rcases hg.ops.cmd i hlt with hc | hc
  · have hnw : (m.ops i).cmd ≠ .write := by simp [hc]
    rcases ho.read hc with ⟨hs, hq⟩ | hop
    · have hno : ¬ (m.ops i).Open := by
        rintro ⟨-, h1, h2⟩
        rcases hs with ⟨h, -⟩ | ⟨-, h, -⟩
        · rw [h1] at h
          cases h
        · exact h2 h
      rw [if_neg hno]
      exact visited_same hx hg ⟨⟨fun _ => .inl ⟨hs, hq⟩, fun h => absurd h hnw⟩, hcalm⟩
    · rw [if_pos ⟨hc, hop.err, hop.dma⟩]
      refine wp_seq hi (rdBlockLocked_spec hi hx hg.free (hg.ops.blk i hlt) hcalm) fun r s₁ _ h => ?_
      obtain ⟨new, st, fs, hnew, hst, htn, hbr, hx'⟩ := h
      have hslot : ∀ j, j ≠ i → Function.update x.slot .cscratch st (.cslot j) =
          x.slot (.cslot j) := fun j _ => Function.update_of_ne (by simp) _ _
      have hsl : ∀ sl, (∀ j < n, sl ≠ .cslot j) → (x.slot sl).Calm →
          (Function.update x.slot .cscratch st sl).Calm := by
        intro sl _ h
        rw [Function.update_apply]
        split
        · exact hst
        · exact h
      have htg : ∀ sl q, (Function.update x.slot .cscratch st sl).target = some q →
          sl ≠ .cslot i ∧ (x.slot sl).target = some q := by
        intro sl q h
        rw [Function.update_apply] at h
        split at h
        · rw [htn] at h
          cases h
        · refine ⟨?_, h⟩
          rintro rfl
          rw [hop.slot.2] at h
          cases h
      have hq : (Function.update x.slot .cscratch st (.cslot i)).Quiet := by
        rw [Function.update_of_ne (by simp)]
        exact hop.slot
      have hcalm' : ∀ sl, (Function.update x.slot .cscratch st sl).Calm := by
        intro sl
        rw [Function.update_apply]
        split
        · exact hst
        · exact hcalm sl
      cases hbr with
      | @got p hp =>
          obtain ⟨h1, h2, h3, h4⟩ := accept_visit (L := x₀.log.length) hx' hlt hg hc hop.err rfl
            ⟨rfl, rfl, rfl, rfl⟩ rfl rfl hslot hsl htg ⟨new, hnew, rfl⟩ (fun hm => by
              refine ⟨(x.log ++ new).length, ?_, ?_, le_rfl, ?_⟩
              · have := hop.snapped.base.trans hop.snapped.le
                simp only [List.length_append]
                omega
              · have := hop.snapped.le
                simp only [List.length_append]
                omega
              · simp only [Local.fault, List.take_length]
                exact hp hm.1)
          exact ⟨_, h1, h2, ⟨⟨fun _ => .inl ⟨h3, hq⟩, fun h => absurd (h4.alike.cmd ▸ h) hnw⟩, hcalm'⟩, h4⟩
      | rejected hla =>
          obtain ⟨h1, h2, h3, h4⟩ := fail_visit (L := x₀.log.length)
            { m.ops i with err := .eio, dma := .done } hx' hlt hg hc hop.err
            ⟨rfl, rfl, rfl, rfl, rfl⟩ rfl ⟨rfl, rfl, rfl, rfl⟩ rfl rfl hslot hsl htg
            ⟨new, hnew, rfl⟩ fun _ => hla
          exact ⟨_, h1, h2, ⟨⟨fun _ => .inl ⟨h3, hq⟩, fun h => absurd (h4.alike.cmd ▸ h) hnw⟩, hcalm'⟩, h4⟩
      | corrupt hm =>
          obtain ⟨h1, h2, h3, h4⟩ := fail_visit (L := x₀.log.length)
            { m.ops i with err := .eio, dma := .done } hx' hlt hg hc hop.err
            ⟨rfl, rfl, rfl, rfl, rfl⟩ rfl ⟨rfl, rfl, rfl, rfl⟩ rfl rfl hslot hsl htg
            ⟨new, hnew, rfl⟩ fun h => absurd h.1 hm
          exact ⟨_, h1, h2, ⟨⟨fun _ => .inl ⟨h3, hq⟩, fun h => absurd (h4.alike.cmd ▸ h) hnw⟩, hcalm'⟩, h4⟩
  · have hno : ¬ (m.ops i).Open := by
      rintro ⟨h, -⟩
      rw [hc] at h
      cases h
    rw [if_neg hno]
    refine visited_same hx hg ⟨⟨fun h => ?_, ho.write⟩, hcalm⟩
    rw [hc] at h
    cases h

/-! ## Publishing -/

/-- The op is published. -/
def BlkOp.Pub (bo : BlkOp) : Prop := bo.cmd = .write ∧ bo.err = .ok ∧ bo.grain ≠ slotNone

instance (bo : BlkOp) : Decidable bo.Pub := inferInstanceAs (Decidable (_ ∧ _ ∧ _))

/-- The READ was completed. -/
def BlkOp.Got (bo : BlkOp) : Prop := bo.cmd = .read ∧ bo.err = .ok

instance (bo : BlkOp) : Decidable bo.Got := inferInstanceAs (Decidable (_ ∧ _))

/-- The whole block that op `j` writes. -/
def Mem.piece (m : Mem) (P : Plan) (j : ℕ) : Piece := ((m.ops j).blk * 4096, (P.page j).bytes)

@[simp] theorem Mem.piece_blk (m : Mem) (P : Plan) (j : ℕ) :
    Piece.blk (m.piece P j) = (m.ops j).blk := by
  simp [Piece.blk, Mem.piece]

/-- The mutations of the first `i` ops. -/
def pubs (cfg : Config) (md : Mode) (m : Mem) (P : Plan) (i : ℕ) : List (Item Disk Mut) :=
  ((List.range i).filter fun j => (m.ops j).Pub).map fun j =>
    (m.piece P j).wrote cfg md (m.ops j).req

/-- Between two publishes: what the ops from `i` on still have to do. -/
structure Publishing (cfg : Config) (md : Mode) (w n : ℕ) (P : Plan) (x₁ : Local) (m : Mem)
    (i : ℕ) (x : Local) : Prop where
  free : x.Free
  priv : x.priv = x₁.priv
  calm : x.Calm
  script : Script w x₁.log (pubs cfg md m P i) x.log
  targets : ∀ sl q, (x.slot sl).target = some q →
    ∃ j < n, i ≤ j ∧ sl = .cslot j ∧ (m.ops j).cmd = .write ∧ (m.ops j).grain = q.1
  resv : md.batch = true → ∀ g, x.resv g ≠ none → g ∈ md.left ∨
    ∃ j < n, i ≤ j ∧ (m.ops j).cmd = .write ∧ (m.ops j).err = .ok ∧ (m.ops j).grain = g

theorem pubs_succ_of_pub (h : (m.ops i).Pub) : pubs cfg md m P (i + 1) =
    pubs cfg md m P i ++ [(m.piece P i).wrote cfg md (m.ops i).req] := by
  simp [pubs, List.range_succ, List.filter_append, h]

theorem pubs_succ_of_not (h : ¬ (m.ops i).Pub) : pubs cfg md m P (i + 1) = pubs cfg md m P i := by
  simp [pubs, List.range_succ, List.filter_append, h]

/-- An op that is not published leaves nothing behind. -/
theorem Publishing.skip {x₁ : Local} (h : Publishing cfg md w n P x₁ m i x) (hi : Inv cfg md s)
    (hx : Loc cfg w x s) (hp : ¬ (m.ops i).Pub)
    (hw : (m.ops i).cmd = .write → (x.slot (.cslot i)).Quiet) :
    Publishing cfg md w n P x₁ m (i + 1) x := by
  refine ⟨h.free, h.priv, h.calm, ?_, fun sl q hq => ?_, fun hb g hg => ?_⟩
  · rw [pubs_succ_of_not hp]
    exact h.script
  · obtain ⟨j, hj, hij, rfl, hc, hgr⟩ := h.targets sl q hq
    refine ⟨j, hj, Nat.lt_of_le_of_ne hij ?_, rfl, hc, hgr⟩
    rintro rfl
    rw [(hw hc).2] at hq
    cases hq
  · refine (h.resv hb g hg).imp_right ?_
    rintro ⟨j, hj, hij, hc, he, hgr⟩
    refine ⟨j, hj, Nat.lt_of_le_of_ne hij ?_, hc, he, hgr⟩
    rintro rfl
    refine hp ⟨hc, he, ?_⟩
    rw [hgr]
    rintro rfl
    exact hg (hx.resv_slotNone hi)

theorem publishOne_visit {x₁ : Local} (hlt : i < n) (hi : Inv cfg md s) (hx : Loc cfg w x s)
    (ho : OpsOk cfg n m) (hg : Publishing cfg md w n P x₁ m i x)
    (hw : (m.ops i).cmd = .write → WrIs cfg md n P (IsSent cfg md) i x m) :
    wp (contract cfg md) w (publishOne i m) (fun m' s' => m' = m ∧ ∃ x', Loc cfg w x' s' ∧
      Publishing cfg md w n P x₁ m (i + 1) x' ∧ Touch i x m x' m) s := by
  unfold publishOne
  by_cases hp : (m.ops i).Pub
  · obtain ⟨hc, he, hgr⟩ := hp
    dsimp only
    rw [if_neg (by simp [hc, he, hgr])]
    rcases hw hc with ⟨hu, -⟩ | ⟨bs, hh, hs⟩
    · cases hu with
      | refused h _ _ | rejected h _ _ =>
          rw [he] at h
          cases h
      | given _ h _ _ => exact absurd h hgr
    · obtain ⟨sz, hsz, hle⟩ := hh.resv
      refine wp_seq hi (wrPublish_spec (p := P.page i) hi hx hg.free hg.calm (ho.blk i hlt) hsz
        (by rw [hh.clen, hh.comp]) (by rw [hh.clen]; exact hle) fun hm => ⟨.cslot i, ?_⟩)
        fun _ s₁ _ h => ?_
      · rw [← hh.comp]
        exact hs.sent hm
      obtain ⟨new, page, hnew, hpage, hx'⟩ := h
      refine ⟨rfl, _, hx', ⟨⟨hg.free.locks, hg.free.entry, hg.free.disp, hg.free.busy⟩, hg.priv,
        fun sl => forget_calm hg.calm sl, ?_, fun sl q hq => ?_, fun hb g hgn => ?_⟩, ?_⟩
      · rw [pubs_succ_of_pub ⟨hc, he, hgr⟩]
        refine hg.script.trans (Script.wrote hnew ?_ fun hm => ?_)
        · simp only [Mem.piece]
          omega
        · rw [hpage hm]
          rfl
      · obtain ⟨h1, h2⟩ := forget_target hq
        obtain ⟨j, hj, hij, hsl, hcj, hgj⟩ := hg.targets sl q h1
        refine ⟨j, hj, Nat.lt_of_le_of_ne hij ?_, hsl, hcj, hgj⟩
        rintro rfl
        exact h2 hgj.symm
      · have hgn : Function.update x.resv (m.ops i).grain none g ≠ none := hgn
        by_cases hgg : g = (m.ops i).grain
        · rw [hgg, Function.update_self] at hgn
          exact absurd rfl hgn
        · rw [Function.update_of_ne hgg] at hgn
          refine (hg.resv hb g hgn).imp_right ?_
          rintro ⟨j, hj, hij, hcj, hej, hgj⟩
          refine ⟨j, hj, Nat.lt_of_le_of_ne hij ?_, hcj, hej, hgj⟩
          rintro rfl
          exact hgg hgj.symm
      · refine ⟨fun _ _ => rfl, .refl _, fun _ => rfl, rfl, fun j _ => ?_, fun _ _ => rfl,
          fun g _ hne => Function.update_of_ne (hne hc) _ _, fun _ => .inl rfl, ?_, fun _ _ _ => rfl⟩
        · simp only [Local.forget]
          split
          · exact .inr ⟨hc, ‹_›⟩
          · exact .inl rfl
        · simp
  · have hskip : (m.ops i).cmd ≠ .write ∨ (m.ops i).err ≠ .ok ∨ (m.ops i).grain = slotNone := by
      simp only [BlkOp.Pub] at hp
      tauto
    dsimp only
    rw [if_pos hskip]
    refine ⟨rfl, x, hx, hg.skip hi hx hp fun hc => ?_,
      .same (fun _ _ => rfl) (fun _ _ => rfl) rfl List.prefix_rfl⟩
    rcases hw hc with ⟨-, hq⟩ | ⟨bs, hh, -⟩
    · exact hq
    · exact absurd ⟨hc, hh.err, hh.grain⟩ hp

theorem publish_phase (hi : Inv cfg md s) (hx : Loc cfg w x s) (hg : Going cfg md w n x₀ m₀ x m)
    (hcalm : x.Calm) (h : ∀ j < n, (m.ops j).cmd = .write → WrIs cfg md n P (IsSent cfg md) j x m) :
    wp (contract cfg md) w (Prog.forRange n publishOne m) (fun m' s' => m' = m ∧
      ∃ x', Loc cfg w x' s' ∧ Publishing cfg md w n P x m n x') s := by
  refine wp_mono hi (wp_each (B := fun _ _ _ => True) (w := w) (n := n) id
    (fun i x' y => y = m ∧ Publishing cfg md w n P x m i x')
    (framed_write isSent_target) (fun _ _ _ _ _ _ _ _ _ _ _ _ => trivial)
    (fun _ _ _ h => by rw [h.1]; exact hg.ops) (fun i x' y s' hlt hi' hx' hj hA => ?_) hi hx
    ⟨rfl, hg.free, rfl, hcalm, Script.refl, fun sl q hq => ?_, fun hb g hgn => ?_⟩ h)
    fun m' s' _ h => ?_
  · obtain ⟨rfl, hp⟩ := hj
    refine wp_mono hi' (publishOne_visit hlt hi' hx' hg.ops hp hA) fun m' s'' _ h => ?_
    obtain ⟨rfl, x'', h1, h2, h3⟩ := h
    exact ⟨x'', h1, ⟨rfl, h2⟩, trivial, h3⟩
  · obtain ⟨j, hj, h1⟩ := hg.targets sl q hq
    exact ⟨j, hj, Nat.zero_le _, h1⟩
  · refine (hg.resv hb g hgn).imp_right ?_
    rintro ⟨j, hj, h1⟩
    exact ⟨j, hj, Nat.zero_le _, h1⟩
  · obtain ⟨x', hx', ⟨rfl, hp⟩, -⟩ := h
    exact ⟨rfl, x', hx', hp⟩

/-! ## All phases together -/

/-- A settled READ may be announced. -/
theorem Settled.eventOk {L : ℕ} (h : Settled cfg md L j x m) (hx : Loc cfg w x s) :
    EventOk cfg md w s (.readDone j (m.ops j).blk (m.page (m.ops j).page) (m.ops j).err) := by
  intro hm
  rcases h with ⟨he, hl⟩ | ⟨he, -, hs⟩
  · rw [he]
    refine ⟨fun h => ?_, fun h => (nomatch h)⟩
    rw [hl hm] at h
    cases h
  · obtain ⟨t, -, h1, h2, h3⟩ := hs hm
    obtain ⟨new, hlog, -⟩ := hx.log
    refine ⟨fun _ => he, fun _ => ⟨t, by rwa [hx.priv], ?_, ?_⟩⟩
    · rw [hlog, List.length_append]
      omega
    · rw [hlog, List.take_append_of_le_length h2, h3]

theorem announce_phase {L : ℕ} (hi : Inv cfg md s) (hx : Loc cfg w x s)
    (h : ∀ j < n, (m.ops j).cmd = .read → Settled cfg md L j x m) :
    wp (contract cfg md) w (Prog.forRange n announce m)
      (fun m' s' => m' = m ∧ Loc cfg w x s') s := by
  refine wp_forRange (C := contract cfg md) (fun _ m' s' => m' = m ∧ Loc cfg w x s') hi ⟨rfl, hx⟩
    fun i m' s' hlt hi' h' => ?_
  obtain ⟨rfl, hx'⟩ := h'
  unfold announce
  dsimp only
  split
  · rename_i hc
    exact wp_seq hi' (readDone_spec hi' hx' fun s₁ _ hx₁ => (h i hlt hc).eventOk hx₁)
      fun _ s'' _ hx'' => ⟨rfl, hx''⟩
  · exact ⟨rfl, hx'⟩

/-- What the completed READs of the first `n` ops have seen. -/
def seens (cfg : Config) (md : Mode) (m : Mem) (n : ℕ) : List (Disk → Prop) :=
  ((List.range n).filter fun j => (m.ops j).Got).map fun j d =>
    md.Reads cfg → pageOf d (m.ops j).blk = m.page (m.ops j).page

/-- What `do_blocks` comes to: the READs were completed before the first WRITE was published. -/
structure BlocksDone (cfg : Config) (md : Mode) (w n : ℕ) (P : Plan) (x₀ : Local) (m₀ : Mem)
    (x : Local) (m : Mem) : Prop where
  rest : x.Rest md
  ops : OpsOk cfg n m
  evolves : Evolves n m₀ m
  net : x.priv.net = x₀.priv.net
  start : x.priv.start = x₀.priv.start
  faults : ∃ fs, x.priv.faults = fs ++ x₀.priv.faults ∧ Blamed n m fs
  script : Script w x₀.log (.sees (seens cfg md m n) :: pubs cfg md m P n) x.log
  read : ∀ j < n, (m.ops j).cmd = .read →
    (m.ops j).err = .ok ∨ (m.ops j).err = .eio ∧ (md.Reads cfg → md.launch = false)
  write : ∀ j < n, (m.ops j).cmd = .write →
    (m.ops j).Pub ∧ ¬ P.spare j ∨ Unheld md (P.lost j) (P.spare j) (m.ops j)

theorem Going.sees (hg : Going cfg md w n x₀ m₀ x m)
    (h : ∀ j < n, (m.ops j).cmd = .read → Settled cfg md x₀.log.length j x m) :
    Script w x₀.log [.sees (seens cfg md m n)] x.log := by
  obtain ⟨new, hnew, hl⟩ := hg.log
  refine ⟨new, hl, Lin.sees hnew fun Q hQ => ?_⟩
  obtain ⟨j, hj, rfl⟩ := List.mem_map.mp hQ
  rw [List.mem_filter, List.mem_range, decide_eq_true_eq] at hj
  by_cases hm : md.Reads cfg
  · rcases h j hj.1 hj.2.1 with ⟨he, -⟩ | ⟨-, -, hs⟩
    · rw [hj.2.2] at he
      cases he
    · obtain ⟨t, h1, -, h3, h4⟩ := hs hm
      refine ⟨new.take (t - x₀.log.length), List.take_prefix _ _, fun _ => ?_⟩
      rw [h4, hl, ← disk_append, List.take_append, List.take_of_length_le h1]
  · exact ⟨[], List.nil_prefix, fun h => absurd h hm⟩

theorem counted_zero : Counted 0 x 0 := fun _ j hj => by omega

/-- **`do_blocks`.** -/
theorem doBlocks_spec (hi : Inv cfg md s) (hx : Loc cfg w x s) (hg : Going cfg md w n x₀ m₀ x m)
    (h : ∀ j < n, Ready cfg md n P x₀.log.length j x m) :
    wp (contract cfg md) w (doBlocks cfg n m) (fun m' s' => ∃ x', Loc cfg w x' s' ∧
      BlocksDone cfg md w n P x₀ m₀ x' m') s := by
  unfold doBlocks
  refine wp_seq hi (access_spec hi hx (by rw [Access.Ok, Nat.zero_add]; exact hg.ops.max))
    fun _ s hi hx => ?_
  refine wp_seq hi (wp_each (B := OpIs cfg md n P x₀.log.length isUp isDown) Prod.fst
    (fun i x y => Going cfg md w n x₀ m₀ x y.1 ∧ Counted i x y.2) framed_ready
    (framed_op isUp_target isDown_target) (fun _ _ _ h => h.1.ops)
    (fun i x y s hlt hi hx hj ho => ?_) hi hx ⟨hg, counted_zero⟩ h) fun y s₁ hi₁ h₁ => ?_
  · refine wp_mono hi (issue_visit hlt hi hx hj.1 ho hj.2) fun y' s' _ h => ?_
    obtain ⟨x', h1, h2, ⟨h3, h4⟩, h5⟩ := h
    exact ⟨x', h1, ⟨h2, h4⟩, h3, h5⟩
  obtain ⟨x₁, hx₁, ⟨hg₁, hk₁⟩, ho₁⟩ := h₁
  refine wp_seq hi₁ (syncIf_phase (fun _ _ _ _ hs hok => .of_up hs hok)
    (fun g bs sl hs hc => by rw [isUp] at hs; subst hs; exact hc.elim) hi₁ hx₁ hg₁ hk₁ ho₁)
    fun _ s₂ hi₂ h₂ => ?_
  obtain ⟨x₂, hx₂, hg₂, -, ho₂⟩ := h₂
  refine wp_seq hi₂ (rounds_phase 4 hi₂ hx₂ hg₂ ho₂) fun m₃ s₃ hi₃ h₃ => ?_
  obtain ⟨x₃, hx₃, hg₃, ho₃⟩ := h₃
  have hc₃ := hg₃.calm (fun _ _ _ h => h.calm) (fun _ _ _ h => h.1) ho₃
  refine wp_seq hi₃ (wp_each (B := OpIs cfg md n P x₀.log.length (IsSent cfg md) isNever) id
    (fun _ x y => Going cfg md w n x₀ m₀ x y ∧ x.Calm) (framed_op isSent_target isLost_target)
    (framed_op isSent_target isNever_target) (fun _ _ _ h => h.1.ops)
    (fun i x y s hlt hi hx hj ho => ?_) hi₃ hx₃ ⟨hg₃, hc₃⟩ ho₃) fun m₄ s₄ hi₄ h₄ => ?_
  · refine wp_mono hi (lockedOne_visit hlt hi hx hj.2 hj.1 ho) fun y' s' _ h => ?_
    obtain ⟨x', h1, h2, ⟨h3, h4⟩, h5⟩ := h
    exact ⟨x', h1, ⟨h2, h4⟩, h3, h5⟩
  obtain ⟨x₄, hx₄, ⟨hg₄, hc₄⟩, ho₄⟩ := h₄
  have hset : ∀ j < n, (m₄.ops j).cmd = .read → Settled cfg md x₀.log.length j x₄ m₄ :=
    fun j hj hc => ((ho₄ j hj).read hc).elim And.left fun ho => ho.slot.elim
  refine wp_seq hi₄ (publish_phase hi₄ hx₄ hg₄ hc₄ fun j hj => (ho₄ j hj).write)
    fun m₅ s₅ hi₅ h₅ => ?_
  obtain ⟨rfl, x₅, hx₅, hp₅⟩ := h₅
  have hpre : x₄.log <+: x₅.log := by
    obtain ⟨new, hl, -⟩ := hp₅.script
    rw [hl]
    exact List.prefix_append _ _
  refine wp_mono hi₅ (announce_phase (L := x₀.log.length) hi₅ hx₅ fun j hj hc => ?_)
    fun m₆ s₆ _ h₆ => ?_
  · refine (hset j hj hc).imp_right fun ⟨h1, h2, h3⟩ => ⟨h1, h2, fun hm => ?_⟩
    obtain ⟨t, h4, h5, h6, h7⟩ := h3 hm
    refine ⟨t, h4, by rwa [hp₅.priv], h6.trans hpre.length_le, ?_⟩
    rw [h7, take_of_prefix hpre h6]
  · obtain ⟨rfl, hx₆⟩ := h₆
    refine ⟨x₅, hx₆, ⟨hp₅.free.locks, hp₅.free.entry, hp₅.free.disp, hp₅.calm, fun sl => ?_,
      fun hb g hne => ?_, hp₅.free.busy, hg₄.since.trans (hg₄.log_le.trans hpre.length_le)⟩, hg₄.ops, hg₄.evolves, by rw [hp₅.priv]; exact hg₄.net,
      by rw [hp₅.priv]; exact hg₄.start, by rw [hp₅.priv]; exact hg₄.faults,
      (hg₄.sees hset).trans hp₅.script, fun j hj hc => ?_, fun j hj hc => ?_⟩
    · by_contra hne
      obtain ⟨q, hq⟩ := Option.ne_none_iff_exists'.mp hne
      obtain ⟨j, hj, hij, -⟩ := hp₅.targets sl q hq
      omega
    · refine (hp₅.resv hb g hne).resolve_right ?_
      rintro ⟨j, hj, hij, -⟩
      omega
    · rcases hset j hj hc with h | h
      · exact .inr h
      · exact .inl h.1
    · rcases (ho₄ j hj).write hc with ⟨hu, -⟩ | ⟨bs, hh, -⟩
      · exact .inr hu
      · exact .inl ⟨⟨hc, hh.err, hh.grain⟩, hh.kept⟩

end NbdVram
