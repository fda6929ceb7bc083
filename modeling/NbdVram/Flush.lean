import NbdVram.Batch

/-!
# `flush_batch`

All ops of a batch are prepared; a request one of whose slots was refused gives up
the reservations of its other ops; `do_blocks` runs once over the whole set; then
the errors of the ops are merged into their requests and the replies are sent in
order. `Ran` is what the batch has come to when the first reply is sent.
-/

namespace NbdVram

open Interleave Span MutationLog

variable {cfg : Config} {md : Mode} {s s' : State} {w n i j k : ℕ} {x x' x₀ : Local}
  {m m' m₀ : Mem} {P : Plan} {b : Batch} {r : Req} {rs : List Req}

/-! ## Preparing -/

theorem prepare_phase (hi : Inv cfg md s) (hx : Loc cfg w x s) (hg : Going cfg md w n x₀ m₀ x m)
    (ho : OpsOk cfg n m₀)
    (hP : ∀ j < n, (m₀.ops j).cmd = .write → P.page j = m₀.page (m₀.ops j).page)
    (hl : ∀ j < n, P.lost j) (hsp : ∀ j < n, ¬ P.spare j) (h : ∀ j < n, Unprepared j x m) :
    wp (contract cfg md) w (Prog.forRange n (prepareOne cfg) m) (fun m' s' => ∃ x', Loc cfg w x' s' ∧
      Going cfg md w n x₀ m₀ x' m' ∧ ∀ j < n, Ready cfg md n P x₀.log.length j x' m') s := by
  refine wp_each id (fun _ x y => Going cfg md w n x₀ m₀ x y) framed_unprepared framed_ready
    (fun _ _ _ h => h.ops) (fun i x m s hlt hi hx hg hu => ?_) hi hx hg h
  unfold prepareOne
  have hcmd := (hg.evolves.ops i).cmd
  by_cases hc : (m.ops i).cmd = .write
  · have hc₀ : (m₀.ops i).cmd = .write := hcmd.symm.trans hc
    rw [id, if_pos hc]
    exact wrPrepare_visit hlt hi hx hg hu hc
      ((hP i hlt hc₀).trans (hg.evolves.page ho hlt hc₀).symm) (hl i hlt) (hsp i hlt)
  · have hc' : (m.ops i).cmd = .read := (hg.ops.cmd i hlt).resolve_right hc
    rw [id, if_neg hc]
    refine wp_mono hi (rdPrepare_visit hlt hi hx hg hc' hu.err hu.quiet) fun m' s' _ h => ?_
    obtain ⟨x', h1, h2, ⟨h3, -⟩, h4⟩ := h
    refine ⟨x', h1, h2, ⟨fun _ => h3, fun h => ?_⟩, h4⟩
    exact absurd ((h4.alike.cmd.trans hc').symm.trans h) (by simp)

/-- Between preparing and the copies nothing is in flight. -/
theorem Going.calm_of_ready {L : ℕ} (hg : Going cfg md w n x₀ m₀ x m)
    (h : ∀ j < n, Ready cfg md n P L j x m) : x.Calm := by
  have hops : ∀ j < n, OpIs cfg md n P L isStaged isSnapped j x m := fun j hj =>
    ⟨fun hc => .inr ((h j hj).read hc), (h j hj).write⟩
  refine hg.calm (fun g bs sl h => ?_) (fun bo t sl h => ?_) hops
  · rw [isStaged] at h
    rw [h]
    trivial
  · rw [h.1]
    trivial

/-! ## Errors of ops and requests -/

/-- The error of request `i` after `markErrs`. -/
def Mem.markErr (m : Mem) (n i : ℕ) : Err :=
  (List.range n).foldl (fun e j =>
    if (m.ops j).req = i ∧ (m.ops j).err ≠ .ok then (m.ops j).err else e) (m.reqs i).error

/-- The error of request `i` after `collectErrs`. -/
def Mem.reqErr (m : Mem) (n i : ℕ) : Err :=
  (List.range n).foldl (fun e j =>
    if (m.ops j).req = i then e.merge (m.ops j).err else e) (m.reqs i).error

/-- Every request with a new error. -/
def Mem.setErrs (m : Mem) (f : ℕ → Err) : Mem :=
  { m with reqs := fun i => { m.reqs i with error := f i } }

theorem markErr_succ : m.markErr (n + 1) i =
    if (m.ops n).req = i ∧ (m.ops n).err ≠ .ok then (m.ops n).err else m.markErr n i := by
  simp only [Mem.markErr, List.range_succ, List.foldl_append, List.foldl_cons, List.foldl_nil]

theorem reqErr_succ : m.reqErr (n + 1) i =
    if (m.ops n).req = i then (m.reqErr n i).merge (m.ops n).err else m.reqErr n i := by
  simp only [Mem.reqErr, List.range_succ, List.foldl_append, List.foldl_cons, List.foldl_nil]

theorem markErrs_eq : m.markErrs n = m.setErrs (m.markErr n) := by
  induction n with
  | zero => rfl
  | succ n ih =>
      have hstep : m.markErrs (n + 1) = (fun m' : Mem =>
          if (m'.ops n).err ≠ .ok then m'.setReq (m'.ops n).req
            { m'.reqs (m'.ops n).req with error := (m'.ops n).err } else m') (m.markErrs n) := by
        simp only [Mem.markErrs, List.range_succ, List.foldl_append, List.foldl_cons, List.foldl_nil]
      rw [hstep, ih]
      by_cases he : (m.ops n).err ≠ .ok
      · refine (if_pos he).trans ?_
        simp only [Mem.setErrs, Mem.setReq]
        congr 1
        funext i
        rw [Function.update_apply, markErr_succ]
        by_cases hr : i = (m.ops n).req
        · subst hr
          simp [he]
        · rw [if_neg hr, if_neg fun h => hr h.1.symm]
      · refine (if_neg he).trans ?_
        simp only [Mem.setErrs]
        congr 1
        funext i
        rw [markErr_succ, if_neg fun h => he h.2]

theorem collectErrs_eq : m.collectErrs n = m.setErrs (m.reqErr n) := by
  induction n with
  | zero => rfl
  | succ n ih =>
      have hstep : m.collectErrs (n + 1) = (fun m' : Mem => m'.setReq (m'.ops n).req
          { m'.reqs (m'.ops n).req with
            error := (m'.reqs (m'.ops n).req).error.merge (m'.ops n).err }) (m.collectErrs n) := by
        simp only [Mem.collectErrs, List.range_succ, List.foldl_append, List.foldl_cons, List.foldl_nil]
      rw [hstep, ih]
      simp only [Mem.setErrs, Mem.setReq]
      congr 1
      funext i
      rw [Function.update_apply, reqErr_succ]
      by_cases hr : i = (m.ops n).req
      · subst hr
        simp
      · rw [if_neg hr, if_neg fun h => hr h.symm]

/-- A request is marked exactly if one of its ops has failed. -/
theorem markErr_cases : m.markErr n i = (m.reqs i).error ∧
    (∀ j < n, (m.ops j).req = i → (m.ops j).err = .ok) ∨
    ∃ j < n, (m.ops j).req = i ∧ (m.ops j).err ≠ .ok ∧ m.markErr n i = (m.ops j).err := by
  induction n with
  | zero => exact .inl ⟨rfl, by simp⟩
  | succ n ih =>
      rw [markErr_succ]
      by_cases hn : (m.ops n).req = i ∧ (m.ops n).err ≠ .ok
      · rw [if_pos hn]
        exact .inr ⟨n, by omega, hn.1, hn.2, rfl⟩
      · rw [if_neg hn]
        rcases ih with ⟨h1, h2⟩ | ⟨j, hj, h⟩
        · refine .inl ⟨h1, fun j hj hr => ?_⟩
          by_cases hjn : j = n
          · rw [hjn] at hr ⊢
            by_contra he
            exact hn ⟨hr, he⟩
          · exact h2 j (by omega) hr
        · exact .inr ⟨j, by omega, h⟩

theorem reqErr_ok : m.reqErr n i = .ok ↔
    (m.reqs i).error = .ok ∧ ∀ j < n, (m.ops j).req = i → (m.ops j).err = .ok := by
  induction n with
  | zero => simp [Mem.reqErr]
  | succ n ih =>
      rw [reqErr_succ, Nat.forall_lt_succ_right]
      by_cases hn : (m.ops n).req = i
      · rw [if_pos hn, Err.merge_ok, ih]
        simp only [hn, forall_true_left, and_assoc]
      · rw [if_neg hn, ih]
        simp only [hn, false_imp_iff, and_true]

theorem reqErr_eio : m.reqErr n i = .eio ↔
    (m.reqs i).error = .eio ∨ ∃ j < n, (m.ops j).req = i ∧ (m.ops j).err = .eio := by
  induction n with
  | zero => simp [Mem.reqErr]
  | succ n ih =>
      rw [reqErr_succ, Nat.exists_lt_succ_right]
      by_cases hn : (m.ops n).req = i
      · rw [if_pos hn, Err.merge_eio, ih]
        simp only [hn, true_and, or_assoc]
      · rw [if_neg hn, ih]
        simp only [hn, false_and, or_false]

theorem reqErr_of_no_op (h : ∀ j < n, (m.ops j).req ≠ i) : m.reqErr n i = (m.reqs i).error := by
  induction n with
  | zero => rfl
  | succ n ih =>
      rw [reqErr_succ, if_neg (h n (by omega))]
      exact ih fun j hj => h j (by omega)

theorem reqErr_ne_einval (h0 : (m.reqs i).error ≠ .einval) (h : ∀ j < n, (m.ops j).err ≠ .einval) :
    m.reqErr n i ≠ .einval := by
  induction n with
  | zero => exact h0
  | succ n ih =>
      have ih := ih fun j hj => h j (by omega)
      rw [reqErr_succ]
      split
      · rw [Err.merge]
        split
        · exact h n (by omega)
        · exact ih
      · exact ih

/-- The error of a request is the verdict on its faults, if the mark it has is the error of one
of its ops. -/
theorem Blamed.reqErr {fs : List Fault} (h : Blamed n m fs)
    (h0 : (m.reqs i).error = .ok ∨
      ∃ j < n, (m.ops j).req = i ∧ (m.ops j).err ≠ .ok ∧ (m.reqs i).error = (m.ops j).err) :
    m.reqErr n i = verdict (faultsFor i fs) := by
  -- the faults of the request are those of its ops
  have hmem : ∀ f, f ∈ faultsFor i fs ↔ ∃ j < n, (m.ops j).req = i ∧
      f ∈ fs.filter fun f => f.tag = (m.ops j).tag := by
    intro f
    rw [mem_faultsFor]
    constructor
    · rintro ⟨hf, hr⟩
      obtain ⟨j, hj, ht⟩ := h.tags f hf
      exact ⟨j, hj, by rw [← hr, ht]; rfl, List.mem_filter.mpr ⟨hf, decide_eq_true ht⟩⟩
    · rintro ⟨j, hj, hr, hf⟩
      obtain ⟨hf, ht⟩ := List.mem_filter.mp hf
      exact ⟨hf, by rw [of_decide_eq_true ht, ← hr]; rfl⟩
  have hok : (∀ j < n, (m.ops j).req = i → (m.ops j).err = .ok) ↔ faultsFor i fs = [] := by
    rw [List.eq_nil_iff_forall_not_mem]
    constructor
    · intro hall f hf
      obtain ⟨j, hj, hr, hf⟩ := (hmem f).mp hf
      have := verdict_ok.mp ((h.err j hj).symm.trans (hall j hj hr))
      rw [this] at hf
      cases hf
    · intro hnone j hj hr
      rw [h.err j hj, verdict_ok, List.eq_nil_iff_forall_not_mem]
      exact fun f hf => hnone f ((hmem f).mpr ⟨j, hj, hr, hf⟩)
  have heio : (∃ j < n, (m.ops j).req = i ∧ (m.ops j).err = .eio) ↔
      ∃ f ∈ faultsFor i fs, f.eio = true := by
    constructor
    · rintro ⟨j, hj, hr, he⟩
      obtain ⟨f, hf, hb⟩ := verdict_eio.mp ((h.err j hj).symm.trans he)
      exact ⟨f, (hmem f).mpr ⟨j, hj, hr, hf⟩, hb⟩
    · rintro ⟨f, hf, hb⟩
      obtain ⟨j, hj, hr, hf⟩ := (hmem f).mp hf
      exact ⟨j, hj, hr, (h.err j hj).trans (verdict_eio.mpr ⟨f, hf, hb⟩)⟩
  have hne : ∀ j < n, (m.ops j).err ≠ .einval := by
    intro j hj
    rw [h.err j hj]
    exact verdict_ne_einval _
  apply Err.eq_of_iff _ (verdict_ne_einval _)
  · rw [reqErr_ok, hok, verdict_ok]
    refine ⟨And.right, fun hnil => ⟨h0.resolve_right ?_, hnil⟩⟩
    rintro ⟨j, hj, hr, he, -⟩
    exact he (hok.mpr hnil j hj hr)
  · rw [reqErr_eio, heio, verdict_eio]
    refine ⟨fun h' => h'.elim (fun he => ?_) id, .inr⟩
    rcases h0 with h0 | ⟨j, hj, hr, -, h0⟩
    · rw [h0] at he
      cases he
    · exact heio.mp ⟨j, hj, hr, h0.symm.trans he⟩
  · refine reqErr_ne_einval ?_ hne
    rcases h0 with h0 | ⟨j, hj, -, -, h0⟩
    · simp [h0]
    · rw [h0]
      exact hne j hj

/-! ## Giving up -/

/-- The plan once the requests are marked: a request that has failed spares its ops. -/
def Plan.marked (P : Plan) (m : Mem) : Plan :=
  let failed := fun j => (m.reqs (m.ops j).req).error ≠ .ok
  ⟨P.page, failed, failed⟩

theorem Ready.marked {L : ℕ} (h : Ready cfg md n P L j x m) (hsp : ¬ P.spare j)
    (hm : (m.ops j).err ≠ .ok → (P.marked m₀).spare j)
    (hk : (m.ops j).cmd = .write → (m.ops j).err = .ok → ¬ (P.marked m₀).spare j) :
    Ready cfg md n (P.marked m₀) L j x m := by
  refine ⟨h.read, fun hc => ?_⟩
  rcases h.write hc with ⟨hu, hq⟩ | ⟨bs, hh, hs⟩
  · refine .inl ⟨?_, hq⟩
    cases hu with
    | refused h1 h2 _ => exact .refused h1 h2 (hm (by simp [h1]))
    | rejected h1 h2 h3 => exact .rejected h1 h2 h3
    | given _ _ _ h4 => exact absurd h4 hsp
  · exact .inr ⟨bs, ⟨hk hc hh.err, hh.err, hh.grain, hh.dma, hh.comp, hh.clen, hh.resv, hh.apart⟩, hs⟩

theorem abort_phase {L : ℕ} (hi : Inv cfg md s) (hx : Loc cfg w x s)
    (hg : Going cfg md w n x₀ m x m) (h : ∀ j < n, Ready cfg md n P L j x m)
    (hsp : ∀ j < n, ¬ P.spare j) (hm : ∀ j < n, (m.ops j).err ≠ .ok → (P.marked m).spare j) :
    wp (contract cfg md) w (Prog.forRange n abortOne m) (fun m' s' => ∃ x', Loc cfg w x' s' ∧
      Going cfg md w n x₀ m x' m' ∧ ∀ j < n, Ready cfg md n (P.marked m) L j x' m') s := by
  have hfr : Framed cfg n fun j x' m' => Ready cfg md n P L j x' m' ∧ m'.ops j = m.ops j := by
    intro i j x m₁ x' m₁' hi hj hij ho ht ha
    exact ⟨framed_ready i j x m₁ x' m₁' hi hj hij ho ht ha.1, (ht.ops j hij).trans ha.2⟩
  refine wp_mono hi (wp_each (B := Ready cfg md n (P.marked m) L) id
    (fun _ x y => Going cfg md w n x₀ m x y ∧ x.Calm) hfr framed_ready
    (fun _ _ _ h => h.1.ops) (fun i x m₁ s hlt hi hx hj ha => ?_) hi hx ⟨hg, hg.calm_of_ready h⟩
    fun j hj => ⟨h j hj, rfl⟩) fun m' s' _ h => ?_
  · obtain ⟨hg, hcalm⟩ := hj
    obtain ⟨hr, hop⟩ := ha
    rw [id] at hr hop
    have hreqs : m₁.reqs = m.reqs := hg.evolves.reqs
    have hspare : (P.marked m).spare i ↔ (m₁.reqs (m₁.ops i).req).error ≠ .ok := by
      rw [hreqs, hop]
      rfl
    unfold abortOne
    by_cases hc : (m₁.ops i).cmd = .write ∧ (m₁.ops i).err = .ok ∧
        (m₁.reqs (m₁.ops i).req).error ≠ .ok
    · rw [id, if_pos hc]
      refine wp_mono hi (wrAbort_visit (L := L) hlt hi hx hcalm hg hc.1 hc.2.1 (hr.write hc.1)
        (hspare.mpr hc.2.2)) fun m' s' _ h => ?_
      obtain ⟨x', h1, h2, ⟨h3, h4⟩, h5⟩ := h
      refine ⟨x', h1, ⟨h2, fun sl => ?_⟩, h3, h5⟩
      rw [h4]
      exact hcalm sl
    · rw [id, if_neg hc]
      have hr' : Ready cfg md n (P.marked m) L i x m₁ := by
        refine hr.marked (hsp i hlt) (fun he => hm i hlt (by rwa [← hop])) fun h1 h2 h3 => hc ?_
        exact ⟨h1, h2, hspare.mp h3⟩
      exact ⟨x, hx, ⟨hg, hcalm⟩, hr', .same (fun _ _ => rfl) (fun _ _ => rfl) rfl List.prefix_rfl⟩
  · obtain ⟨x', h1, ⟨h2, -⟩, h3⟩ := h
    exact ⟨x', h1, h2, h3⟩

/-! ## The whole batch -/

/-- What the batch has come to when the first reply is sent. A request whose plan is spared has
an op that failed, and an op that was refused a slot is such an op. -/
structure Ran (cfg : Config) (md : Mode) (w : ℕ) (b : Batch) (P : Plan) (x₀ x : Local) (m : Mem) :
    Prop where
  rest : x.Rest md
  net : x.priv.net = x₀.priv.net
  start : x.priv.start = x₀.priv.start
  ops : OpsOk cfg b.nops m
  alike : ∀ j, (b.mem.ops j).Alike (m.ops j)
  reqs : ∀ i, m.reqs i = { b.mem.reqs i with error := (m.reqs i).error }
  buf : ∀ c a, (∀ i < b.nops, (b.mem.ops i).cmd = .read → ¬ (b.mem.ops i).page.Covers c a) →
    m.buf c a = b.mem.buf c a
  faults : ∃ fs, x.priv.faults = fs ++ x₀.priv.faults ∧ Blamed b.nops m fs ∧
    ∀ i, (b.mem.reqs i).error = .ok → (m.reqs i).error = verdict (faultsFor i fs)
  error : ∀ i, (∀ j < b.nops, (b.mem.ops j).req ≠ i) → (m.reqs i).error = (b.mem.reqs i).error
  script : Script w x₀.log (.sees (seens cfg md m b.nops) :: pubs cfg md m P b.nops) x.log
  read : ∀ j < b.nops, (m.ops j).cmd = .read →
    (m.ops j).err = .ok ∨ (m.ops j).err = .eio ∧ (md.Reads cfg → md.launch = false)
  write : ∀ j < b.nops, (m.ops j).cmd = .write →
    (m.ops j).Pub ∧ ¬ P.spare j ∨ Unheld md (P.lost j) (P.spare j) (m.ops j)
  page : ∀ j < b.nops, (b.mem.ops j).cmd = .write → P.page j = b.mem.page (b.mem.ops j).page
  lost : ∀ j < b.nops, P.lost j → P.spare j
  spare : ∀ j < b.nops, (b.mem.reqs (b.mem.ops j).req).error = .ok → P.spare j →
    ∃ k < b.nops, (m.ops k).req = (m.ops j).req ∧ (m.ops k).err ≠ .ok
  spares : ∀ j < b.nops, ∀ k < b.nops, (m.ops j).req = (m.ops k).req → P.spare j → P.spare k

section SetErrs

variable {f : ℕ → Err}

theorem OpsOk.setErrs (h : OpsOk cfg n m) : OpsOk cfg n (m.setErrs f) :=
  ⟨h.max, h.cslot, h.blk, h.cmd, h.page, h.tag⟩

theorem Blamed.setErrs {fs : List Fault} (h : Blamed n m fs) : Blamed n (m.setErrs f) fs :=
  ⟨h.tags, h.err⟩

theorem Going.setErrs (h : Going cfg md w n x₀ m₀ x m) :
    Going cfg md w n x₀ (m.setErrs f) x (m.setErrs f) := by
  obtain ⟨fs, hfs, hbl⟩ := h.faults
  exact ⟨h.ops.setErrs, .refl, h.free, h.net, h.start, h.log, ⟨fs, hfs, hbl.setErrs⟩, h.slots,
    h.targets, h.held, h.resv, h.since⟩

theorem Ready.setErrs {L : ℕ} (h : Ready cfg md n P L j x m) :
    Ready cfg md n P L j x (m.setErrs f) := by
  refine ⟨fun hc => ?_, fun hc => ?_⟩
  · have ho := h.read hc
    exact ⟨ho.err, ho.dma, ⟨ho.snapped.base, ho.snapped.le, ho.snapped.entry, ho.snapped.clen,
      ho.snapped.grain⟩, ho.slot⟩
  · rcases h.write hc with hu | ⟨bs, hh, hs⟩
    · exact .inl hu
    · exact .inr ⟨bs, ⟨hh.kept, hh.err, hh.grain, hh.dma, hh.comp, hh.clen, hh.resv, hh.apart⟩, hs⟩

end SetErrs

theorem runBatch_spec (hi : Inv cfg md s) (hx : Loc cfg w x s) (hr : x.Rest md)
    (ho : OpsOk cfg b.nops b.mem) (hu : ∀ j < b.nops, Unprepared j x b.mem) :
    wp (contract cfg md) w (runBatch cfg b.nops b.mem) (fun m' s' => ∃ x' P, Loc cfg w x' s' ∧
      Ran cfg md w b P x x' m') s := by
  have hg₀ : Going cfg md w b.nops x b.mem x b.mem :=
    .init hr ho (fun j hj => (hu j hj).grain) fun j hj => (hu j hj).err
  unfold runBatch
  refine wp_seq hi (prepare_phase (P := ⟨fun j => b.mem.page (b.mem.ops j).page, fun _ => True,
    fun _ => False⟩) hi hx hg₀ ho (fun _ _ _ => rfl) (fun _ _ => trivial) (fun _ _ => id) hu)
    fun m₁ s₁ hi₁ h => ?_
  obtain ⟨x₁, hx₁, hg₁, hr₁⟩ := h
  generalize hP : (⟨fun j => b.mem.page (b.mem.ops j).page, fun _ => True, fun _ => False⟩ : Plan) = P
    at hr₁
  dsimp only
  rw [markErrs_eq]
  -- a mark is the error of an op, and a request without failed ops keeps its error
  have hmark : ∀ i, m₁.markErr b.nops i = (b.mem.reqs i).error ∧
      (∀ j < b.nops, (m₁.ops j).req = i → (m₁.ops j).err = .ok) ∨
      ∃ j < b.nops, (m₁.ops j).req = i ∧ (m₁.ops j).err ≠ .ok ∧
        m₁.markErr b.nops i = (m₁.ops j).err := by
    intro i
    rw [← hg₁.evolves.reqs]
    exact markErr_cases
  have hfail : ∀ j < b.nops, (m₁.ops j).err ≠ .ok → m₁.markErr b.nops (m₁.ops j).req ≠ .ok := by
    intro j hj he
    rcases hmark (m₁.ops j).req with ⟨-, h⟩ | ⟨k, -, -, h1, h2⟩
    · exact absurd (h j hj rfl) he
    · rwa [h2]
  refine wp_seq hi₁ (abort_phase hi₁ hx₁ hg₁.setErrs (fun j hj => (hr₁ j hj).setErrs)
    (fun j _ => by rw [← hP]; exact id) hfail) fun m₃ s₃ hi₃ h => ?_
  obtain ⟨x₃, hx₃, hg₃, hr₃⟩ := h
  refine wp_seq hi₃ (doBlocks_spec hi₃ hx₃ hg₃ hr₃) fun m₄ s₄ hi₄ h => ?_
  obtain ⟨x₄, hx₄, hd⟩ := h
  refine ⟨x₄, P.marked (m₁.setErrs (m₁.markErr b.nops)), hx₄, ?_⟩
  rw [collectErrs_eq]
  have hev := hd.evolves
  have hreq : ∀ j, (m₄.ops j).req = (m₁.ops j).req := fun j => (hev.ops j).req
  have hreqs : ∀ i, m₄.reqs i = { b.mem.reqs i with error := m₁.markErr b.nops i } := by
    intro i
    rw [hev.reqs, ← hg₁.evolves.reqs]
    rfl
  refine ⟨hd.rest, hd.net, hd.start, hd.ops.setErrs, fun j => (hg₁.evolves.ops j).trans (hev.ops j),
    fun i => ?_, fun c a hca => ?_, ?_, fun i hno => ?_, hd.script, hd.read, hd.write,
    fun j _ _ => by rw [← hP]; rfl, fun _ _ => id, fun j hj h0 hs => ?_, fun j _ k _ hjk => ?_⟩
  · simp only [Mem.setErrs, hreqs]
  · rw [← hg₁.evolves.buf c a hca]
    refine hev.buf c a fun i hi hc => ?_
    have hal := hg₁.evolves.ops i
    show ¬ (m₁.ops i).page.Covers c a
    rw [hal.page]
    exact hca i hi (hal.cmd.symm.trans hc)
  · obtain ⟨fs, hfs, hbl⟩ := hd.faults
    refine ⟨fs, hfs, hbl.setErrs, fun i h0 => hbl.reqErr ?_⟩
    rw [hreqs]
    rcases hmark i with ⟨h1, -⟩ | ⟨j, hj, h1, h2, h3⟩
    · exact .inl (h1.trans h0)
    · refine .inr ⟨j, hj, by rw [hreq, h1], ?_⟩
      rw [show (m₄.ops j).err = (m₁.ops j).err from hev.err j h2]
      exact ⟨h2, h3⟩
  · show m₄.reqErr b.nops i = _
    rw [reqErr_of_no_op fun j hj => ?_, hreqs]
    · rcases hmark i with ⟨h1, -⟩ | ⟨j, hj, h1, -⟩
      · exact h1
      · exact absurd ((hg₁.evolves.ops j).req.symm.trans h1) (hno j hj)
    · rw [hreq, (hg₁.evolves.ops j).req]
      exact hno j hj
  · rcases hmark (m₁.ops j).req with ⟨h1, -⟩ | ⟨k, hk, h1, h2, -⟩
    · rw [(hg₁.evolves.ops j).req, h0] at h1
      rw [← (hg₁.evolves.ops j).req] at h1
      exact absurd h1 hs
    · refine ⟨k, hk, ?_, ?_⟩
      · show (m₄.ops k).req = (m₄.ops j).req
        rw [hreq, hreq, h1]
      · show (m₄.ops k).err ≠ .ok
        rwa [show (m₄.ops k).err = (m₁.ops k).err from hev.err k h2]
  · have hjk' : (m₁.ops j).req = (m₁.ops k).req := by
      rw [← hreq, ← hreq]
      exact hjk
    show m₁.markErr b.nops (m₁.ops j).req ≠ .ok → m₁.markErr b.nops (m₁.ops k).req ≠ .ok
    rw [hjk']
    exact id

/-! ## What became of each request -/

/-- Request `i` with its answer, as the reply loop sends it. -/
def Mem.doneAt (m : Mem) (i : ℕ) : Done :=
  let rq := m.reqs i
  ⟨m.reqAt i, rq.error, if rq.cmd = .read ∧ rq.error = .ok then m.read rq.slot rq.len else []⟩

/-- The mutations of request `i`. -/
def effAt (cfg : Config) (md : Mode) (rs : List Req) (m : Mem) (P : Plan) (i : ℕ) :
    List (Item Disk Mut) :=
  (pubPieces m P (opStart cfg rs i) (opStart cfg rs (i + 1) - opStart cfg rs i)).map
    (Piece.wrote cfg md i)

theorem Req.nops_len (hf : r.Fits) (ho : ¬ r.Oob cfg) : r.nops cfg * 4096 = r.len := by
  have hno : ¬ oob cfg r.off r.len := fun h => ho ⟨hf.cmd.elim .inl fun h => .inr (.inl h), h⟩
  rw [Req.nops, if_neg hno]
  exact Nat.div_mul_cancel hf.len

theorem Req.nops_oob (ho : r.Oob cfg) : r.nops cfg = 0 := if_pos ho.2

namespace Ran

theorem op (hR : Ran cfg md w b P x₀ x m) (hb : Holds cfg b rs) (hr : rs[i]? = some r)
    (hj : j < r.nops cfg) : (m.ops (opStart cfg rs i + j)).cmd = r.cmd ∧
      (m.ops (opStart cfg rs i + j)).req = i ∧
      (m.ops (opStart cfg rs i + j)).blk = r.off / 4096 + j ∧
      (m.ops (opStart cfg rs i + j)).page = (slotPtr i).add (j * 4096) := by
  have ha := hR.alike (opStart cfg rs i + j)
  rw [hb.ops i r hr j hj] at ha
  exact ⟨ha.cmd, ha.req, ha.blk, ha.page⟩

theorem op_lt (hb : Holds cfg b rs) (hr : rs[i]? = some r) :
    opStart cfg rs i + r.nops cfg ≤ b.nops := by
  rw [hb.nops, ← opStart_succ hr]
  exact opStart_mono (List.getElem?_eq_some_iff.mp hr).1

/-- The ops of a request are where they should be. -/
theorem op_req (hR : Ran cfg md w b P x₀ x m) (hb : Holds cfg b rs) (hk : k < b.nops) :
    ∃ r j, rs[(m.ops k).req]? = some r ∧ j < r.nops cfg ∧ k = opStart cfg rs (m.ops k).req + j := by
  rw [hb.nops] at hk
  obtain ⟨i, r, j, -, hr, hj, rfl⟩ := exists_op le_rfl hk
  rw [(hR.op hb hr hj).2.1]
  exact ⟨r, j, hr, hj, rfl⟩

theorem op_mem (hR : Ran cfg md w b P x₀ x m) (hb : Holds cfg b rs) (hr : rs[i]? = some r)
    (hk : k < b.nops) (hi : (m.ops k).req = i) :
    opStart cfg rs i ≤ k ∧ k < opStart cfg rs i + r.nops cfg := by
  obtain ⟨r', j, hr', hj, heq⟩ := hR.op_req hb hk
  rw [hi, hr, Option.some.injEq] at hr'
  subst hr'
  rw [hi] at heq
  omega

theorem blamed (hR : Ran cfg md w b P x₀ x m) (h0 : x₀.priv.faults = []) :
    Blamed b.nops m x.priv.faults ∧ ∀ i, (b.mem.reqs i).error = .ok →
      (m.reqs i).error = verdict (x.priv.faultsOf i) := by
  obtain ⟨fs, hfs, h1, h2⟩ := hR.faults
  rw [h0, List.append_nil] at hfs
  simp only [Priv.faultsOf, hfs]
  exact ⟨h1, h2⟩

theorem reqs_eq (hR : Ran cfg md w b P x₀ x m) (hb : Holds cfg b rs) (hr : rs[i]? = some r) :
    m.reqs i = ⟨r.handle, r.off, r.len, r.cmd, (m.reqs i).error, slotPtr i, opStart cfg rs i,
      r.nops cfg⟩ := by
  rw [hR.reqs i, hb.req i r hr]

/-- **The error of a request is the verdict on its own faults.** -/
theorem verdict (hR : Ran cfg md w b P x₀ x m) (hb : Holds cfg b rs) (h0 : x₀.priv.faults = [])
    (hr : rs[i]? = some r) :
    (m.reqs i).error = if r.Oob cfg then .einval else NbdVram.verdict (x.priv.faultsOf i) := by
  have hf := hb.fits r (List.mem_of_getElem? hr)
  have hiff : r.Oob cfg ↔ oob cfg r.off r.len :=
    ⟨And.right, fun h => ⟨hf.cmd.elim .inl fun h => .inr (.inl h), h⟩⟩
  have herr : (b.mem.reqs i).error = if oob cfg r.off r.len then .einval else .ok := by
    rw [hb.req i r hr]
  by_cases ho : r.Oob cfg
  · rw [if_pos ho, hR.error i fun j hj hi => ?_, herr, if_pos (hiff.mp ho)]
    have := hR.op_mem hb hr hj ((hR.alike j).req.trans hi)
    rw [Req.nops_oob ho] at this
    omega
  · rw [if_neg ho]
    exact (hR.blamed h0).2 i (herr.trans (if_neg fun h => ho (hiff.mpr h)))

/-- Where a request has no fault, none of its ops has. -/
theorem op_ok (hR : Ran cfg md w b P x₀ x m) (hb : Holds cfg b rs) (h0 : x₀.priv.faults = [])
    (hr : rs[i]? = some r) (hj : j < r.nops cfg) (hnil : x.priv.faultsOf i = []) :
    (m.ops (opStart cfg rs i + j)).err = .ok := by
  have hlt : opStart cfg rs i + j < b.nops := by
    have := op_lt hb hr
    omega
  rw [(hR.blamed h0).1.err _ hlt, verdict_ok, List.filter_eq_nil_iff]
  intro f hf ht
  have hmem : f ∈ x.priv.faultsOf i := by
    refine List.mem_filter.mpr ⟨hf, decide_eq_true ?_⟩
    rw [of_decide_eq_true ht]
    exact (hR.op hb hr hj).2.1
  rw [hnil] at hmem
  cases hmem

/-- Every fault of a request is at one of its ops. -/
theorem fault_op (hR : Ran cfg md w b P x₀ x m) (hb : Holds cfg b rs) (h0 : x₀.priv.faults = [])
    (hr : rs[i]? = some r) {f : Fault} (hf : f ∈ x.priv.faultsOf i) : ∃ j < r.nops cfg,
      f.tag.blk = r.off / 4096 + j ∧ (m.ops (opStart cfg rs i + j)).err ≠ .ok := by
  obtain ⟨hf, hi⟩ := List.mem_filter.mp hf
  have hi := of_decide_eq_true hi
  obtain ⟨k, hk, ht⟩ := (hR.blamed h0).1.tags f hf
  have hreq : (m.ops k).req = i := by
    rw [← hi, ht]
    rfl
  obtain ⟨h1, h2⟩ := hR.op_mem hb hr hk hreq
  obtain ⟨j, rfl⟩ := Nat.exists_eq_add_of_le h1
  have hj : j < r.nops cfg := by omega
  refine ⟨j, hj, ?_, (hR.blamed h0).1.err_ne_ok hf hk ht⟩
  rw [ht, BlkOp.tag, (hR.op hb hr hj).2.2.1]

theorem fault_touches (hR : Ran cfg md w b P x₀ x m) (hb : Holds cfg b rs) (h0 : x₀.priv.faults = [])
    (hr : rs[i]? = some r) {f : Fault} (hf : f ∈ x.priv.faultsOf i) :
    ¬ r.Oob cfg ∧ r.Touches f.tag.blk := by
  obtain ⟨j, hj, hblk, -⟩ := hR.fault_op hb h0 hr hf
  have hfit := hb.fits r (List.mem_of_getElem? hr)
  have ho : ¬ r.Oob cfg := fun ho => by
    rw [Req.nops_oob ho] at hj
    omega
  have hlen := Req.nops_len hfit ho
  have hoff := Nat.div_mul_cancel hfit.off
  rw [hblk]
  exact ⟨ho, hfit.pos, by omega, by omega⟩

/-- The payload of a WRITE is still in its slot. -/
theorem read_slot (hR : Ran cfg md w b P x₀ x m) (hb : Holds cfg b rs) (hr : rs[i]? = some r)
    (hc : r.cmd = .write) : m.read (slotPtr i) r.len = r.data := by
  rw [← hb.data i r hr hc]
  refine slice_congr fun a ha => hR.buf _ _ fun k hk hrd hcov => ?_
  rw [hb.nops] at hk
  obtain ⟨i', r', j, -, hr', hj, rfl⟩ := exists_op le_rfl hk
  rw [hb.ops i' r' hr' j hj] at hrd hcov
  have h16 := (Req.nops_le (hb.fits r' (List.mem_of_getElem? hr')) hj).1
  have hle := (hb.fits r (List.mem_of_getElem? hr)).le
  have hne : i' ≠ i := by
    rintro rfl
    rw [hr, Option.some.injEq] at hr'
    rw [← hr', blkopSet, hc] at hrd
    cases hrd
  obtain ⟨-, h2, h3⟩ := hcov
  simp only [blkopSet, Ptr.add, slotPtr] at h2 h3
  omega

theorem reqAt (hR : Ran cfg md w b P x₀ x m) (hb : Holds cfg b rs) (hr : rs[i]? = some r) :
    m.reqAt i = r := by
  have hf := hb.fits r (List.mem_of_getElem? hr)
  unfold Mem.reqAt
  rw [hR.reqs_eq hb hr]
  dsimp only
  split
  · rename_i hc
    rw [hR.read_slot hb hr hc]
  · rename_i hc
    have hnil := hf.data
    rw [if_neg hc, List.length_eq_zero_iff] at hnil
    rw [← hnil]

theorem doneAt (hR : Ran cfg md w b P x₀ x m) (hb : Holds cfg b rs) (hr : rs[i]? = some r) :
    m.doneAt i = ⟨r, (m.reqs i).error,
      if r.cmd = .read ∧ (m.reqs i).error = .ok then m.read (slotPtr i) r.len else []⟩ := by
  rw [Mem.doneAt, hR.reqAt hb hr]
  rw [hR.reqs_eq hb hr]

theorem effAt_eq (hr : rs[i]? = some r) : effAt cfg md rs m P i =
    (pubPieces m P (opStart cfg rs i) (r.nops cfg)).map (Piece.wrote cfg md i) := by
  rw [effAt, opStart_succ hr, Nat.add_sub_cancel_left]

/-- The mutations of the batch are those of its requests, in order. -/
theorem pubs_eq (hR : Ran cfg md w b P x₀ x m) (hb : Holds cfg b rs) {c : ℕ} (hc : c ≤ rs.length) :
    pubs cfg md m P (opStart cfg rs c) = ((List.range c).map (effAt cfg md rs m P)).flatten := by
  induction c with
  | zero => simp [opStart, pubs]
  | succ c ih =>
      have hr : rs[c]? = some rs[c] := List.getElem?_eq_getElem (by omega)
      rw [List.range_succ, List.map_append, List.flatten_append, ← ih (by omega), List.map_singleton,
        List.flatten_singleton, effAt_eq hr, opStart_succ hr, pubs, List.range_add, List.filter_append,
        List.map_append, List.filter_map, List.map_map, pubs, pubPieces, List.map_map]
      congr 1
      refine List.map_congr_left fun j hj => ?_
      have hj := List.mem_range.mp (List.mem_of_mem_filter hj)
      simp only [Function.comp, (hR.op hb hr hj).2.1]

/-- What a WRITE of the batch has stored. -/
theorem storedAs (hR : Ran cfg md w b P x₀ x m) (hb : Holds cfg b rs) (h0 : x₀.priv.faults = [])
    (hr : rs[i]? = some r) (hc : r.cmd = .write) (ho : ¬ r.Oob cfg) :
    StoredAs cfg md i (chop r.off r.data) (pubPieces m P (opStart cfg rs i) (r.nops cfg))
      (NbdVram.verdict (x.priv.faultsOf i)) (x.priv.faultsOf i) := by
  have hf := hb.fits r (List.mem_of_getElem? hr)
  have hle := op_lt hb hr
  have hwo : WriteOps m P (opStart cfg rs i) (r.nops cfg) i (r.off / 4096) (b.mem.buf .ubuf)
      (i * 65536) := by
    refine ⟨fun j hj => (hR.op hb hr hj).1.trans hc, fun j hj => (hR.op hb hr hj).2.1,
      fun j hj => (hR.op hb hr hj).2.2.1, fun j hj => ?_⟩
    have hop := hb.ops i r hr j hj
    rw [hR.page _ (by omega) (by rw [hop]; exact hc), hop, Mem.page, Page.read_bytes]
    rfl
  have hst := @WriteOps.storedAs cfg md _ _ _ _ _ _ _ _ _ hwo _ (hR.blamed h0).1 hle
    (fun k hk hreq => hR.op_mem hb hr hk hreq)
    (fun j hj => hR.write _ (by omega) ((hR.op hb hr hj).1.trans hc)) fun hnil j hj hs => ?_
  · rw [Nat.div_mul_cancel hf.off, Req.nops_len hf ho] at hst
    have hdata : slice (b.mem.buf .ubuf) (i * 65536) r.len = r.data := hb.data i r hr hc
    rwa [hdata] at hst
  · -- a spared op has a failed sibling, which a fault blames
    have hlt : opStart cfg rs i + j < b.nops := by omega
    have h1 : (b.mem.ops (opStart cfg rs i + j)).req = i := by rw [hb.ops i r hr j hj]; rfl
    have hok : (b.mem.reqs i).error = .ok := by
      rw [hb.req i r hr]
      exact if_neg fun h => ho ⟨.inr (.inl hc), h⟩
    obtain ⟨k, hk, hk1, hk2⟩ := hR.spare _ hlt (by rw [h1]; exact hok) hs
    rw [(hR.op hb hr hj).2.1] at hk1
    obtain ⟨h2, h3⟩ := hR.op_mem hb hr hk hk1
    obtain ⟨j', rfl⟩ := Nat.exists_eq_add_of_le h2
    exact hk2 (hR.op_ok hb h0 hr (by omega) hnil)

/-- Where nothing fails a request of the batch has no fault. -/
theorem no_fault (hR : Ran cfg md w b P x₀ x m) (hb : Holds cfg b rs) (h0 : x₀.priv.faults = [])
    (hr : rs[i]? = some r) (hm : r.cmd = .read → md.Reads cfg) (ha : md.alloc = true)
    (hl : md.launch = true) : x.priv.faultsOf i = [] := by
  rw [List.eq_nil_iff_forall_not_mem]
  intro f hf
  obtain ⟨j, hj, -, hbad⟩ := hR.fault_op hb h0 hr hf
  have hlt : opStart cfg rs i + j < b.nops := by
    have := op_lt hb hr
    omega
  rcases hR.ops.cmd _ hlt with hc | hc
  · rcases hR.read _ hlt hc with h | ⟨-, h⟩
    · exact hbad h
    · rw [h (hm ((hR.op hb hr hj).1.symm.trans hc))] at hl
      cases hl
  · rcases hR.write _ hlt hc with h | h
    · exact hbad h.1.2.1
    · cases h with
      | refused _ h _ =>
          rw [h] at ha
          cases ha
      | rejected _ h _ =>
          rw [h] at hl
          cases hl
      | given h _ _ _ => exact hbad h

theorem ok (hR : Ran cfg md w b P x₀ x m) (hb : Holds cfg b rs) (h0 : x₀.priv.faults = [])
    (hr : rs[i]? = some r) : (m.doneAt i).Ok cfg md := by
  have hv := hR.verdict hb h0 hr
  rw [hR.doneAt hb hr]
  refine ⟨?_, fun ho => hv.trans (if_pos ho), fun _ h1 h2 h3 ho => ?_⟩
  · dsimp only
    split
    · exact Mem.read_length _ _ _
    · rfl
  · rw [hv, if_neg ho, verdict_ok]
    exact hR.no_fault hb h0 hr h1 h2 h3

/-- READs publish nothing. -/
theorem pubPieces_read (hR : Ran cfg md w b P x₀ x m) (hb : Holds cfg b rs) (hr : rs[i]? = some r)
    (hc : r.cmd ≠ .write) : pubPieces m P (opStart cfg rs i) (r.nops cfg) = [] := by
  have hnil : (List.range (r.nops cfg)).filter
      (fun j => decide (m.ops (opStart cfg rs i + j)).Pub) = [] := by
    rw [List.filter_eq_nil_iff]
    intro j hj
    have hop := (hR.op hb hr (List.mem_range.mp hj)).1
    simp only [BlkOp.Pub, hop, hc, false_and, decide_false, Bool.false_eq_true, not_false_eq_true]
  rw [pubPieces, hnil, List.map_nil]

theorem effect (hR : Ran cfg md w b P x₀ x m) (hb : Holds cfg b rs) (h0 : x₀.priv.faults = [])
    (hr : rs[i]? = some r) : Effect cfg md (m.doneAt i) (effAt cfg md rs m P i) := by
  rw [hR.doneAt hb hr, effAt_eq hr]
  have hf := hb.fits r (List.mem_of_getElem? hr)
  by_cases ho : r.Oob cfg
  · rw [Req.nops_oob ho]
    exact .refused ho
  rcases hf.cmd with hc | hc
  · rw [hR.pubPieces_read hb hr (by simp [hc])]
    exact .other (by simp [hc]) (by simp [hc])
  · have hst := hR.storedAs hb h0 hr hc ho
    have hv := hR.verdict hb h0 hr
    rw [if_neg ho] at hv
    rw [← hv] at hst
    exact .wrote i _ ho hc hst.sublist hst.all

/-- What the answered READs have seen. -/
theorem saw (hR : Ran cfg md w b P x₀ x m) (hb : Holds cfg b rs) (h0 : x₀.priv.faults = [])
    (hr : rs[i]? = some r) {Q : Disk → Prop} (hQ : Q ∈ (m.doneAt i).saw cfg md) :
    ∃ Q' ∈ seens cfg md m b.nops, ∀ d, Q' d → Q d := by
  have hf := hb.fits r (List.mem_of_getElem? hr)
  rw [hR.doneAt hb hr, Done.saw] at hQ
  by_cases hc : r.cmd = .read
  swap
  · simp [hc] at hQ
  by_cases he : (m.reqs i).error = .ok
  swap
  · simp [he] at hQ
  rw [if_pos hc] at hQ
  dsimp only at hQ
  rw [if_pos ⟨hc, he⟩] at hQ
  have hv := hR.verdict hb h0 hr
  have ho : ¬ r.Oob cfg := fun ho => by
    rw [if_pos ho, he] at hv
    cases hv
  rw [if_neg ho, he] at hv
  have hnil := verdict_ok.mp hv.symm
  have hoff : r.off = r.off / 4096 * 4096 := (Nat.div_mul_cancel hf.off).symm
  rw [hoff, ← Req.nops_len hf ho, Mem.read, chop_blocks, List.map_map] at hQ
  obtain ⟨j, hj, rfl⟩ := List.mem_map.mp hQ
  rw [List.mem_range] at hj
  have hlt : opStart cfg rs i + j < b.nops := by
    have := op_lt hb hr
    omega
  obtain ⟨h1, -, h3, h4⟩ := hR.op hb hr hj
  refine ⟨_, List.mem_map.mpr ⟨_, List.mem_filter.mpr ⟨List.mem_range.mpr hlt,
    decide_eq_true ⟨h1.trans hc, hR.op_ok hb h0 hr hj hnil⟩⟩, rfl⟩, fun d hd hm => ?_⟩
  have hp := hd hm
  rw [h3, h4, pageOf_saw, Mem.page, Page.read_bytes] at hp
  simp only [slice_length]
  exact hp

/-- The answered requests. -/
theorem map_req (hR : Ran cfg md w b P x₀ x m) (hb : Holds cfg b rs) :
    ((List.range b.nreq).map m.doneAt).map Done.req = rs := by
  apply List.ext_getElem?
  intro i
  rw [List.map_map, List.getElem?_map, hb.nreq]
  by_cases hi : i < rs.length
  · have hr : rs[i]? = some rs[i] := List.getElem?_eq_getElem hi
    rw [List.getElem?_range hi, hr, Option.map_some, Function.comp, hR.doneAt hb hr]
  · rw [List.getElem?_eq_none (by simpa using hi), List.getElem?_eq_none (by omega), Option.map_none]

theorem forall_done (hb : Holds cfg b rs) {p : Done → Prop}
    (h : ∀ i r, rs[i]? = some r → p (m.doneAt i)) : ∀ d ∈ (List.range b.nreq).map m.doneAt, p d := by
  intro d hd
  obtain ⟨i, hi, rfl⟩ := List.mem_map.mp hd
  rw [List.mem_range, hb.nreq] at hi
  exact h i _ (List.getElem?_eq_getElem hi)

/-- **The batch is a group.** -/
theorem group (hR : Ran cfg md w b P x₀ x m) (hb : Holds cfg b rs) (h0 : x₀.priv.faults = [])
    (hap : md.apart = true → Apart rs) :
    Group cfg md ((List.range b.nreq).map m.doneAt)
      (.sees (((List.range b.nreq).map m.doneAt).flatMap (Done.saw cfg md)) ::
        ((List.range b.nreq).map (effAt cfg md rs m P)).flatten) := by
  refine .intro (forall_done hb fun i r hr => hR.ok hb h0 hr) (by rwa [hR.map_req hb]) ?_ fun _ =>
    forall_done hb fun i r hr => by
      rw [hR.doneAt hb hr]
      exact (hb.fits r (List.mem_of_getElem? hr)).cmd
  rw [List.forall₂_map_left_iff, List.forall₂_map_right_iff, List.forall₂_same]
  intro i hi
  rw [List.mem_range, hb.nreq] at hi
  exact hR.effect hb h0 (List.getElem?_eq_getElem hi)

/-- What the group has done. -/
theorem did (hR : Ran cfg md w b P x₀ x m) (hb : Holds cfg b rs) (h0 : x₀.priv.faults = []) :
    Script w x₀.log (.sees (((List.range b.nreq).map m.doneAt).flatMap (Done.saw cfg md)) ::
        ((List.range b.nreq).map (effAt cfg md rs m P)).flatten) x.log := by
  obtain ⟨new, hlog, hlin⟩ := hR.script
  have hpubs := hR.pubs_eq hb le_rfl
  rw [← hb.nops, ← hb.nreq] at hpubs
  rw [hpubs] at hlin
  refine ⟨new, hlog, hlin.sees_mono fun Q hQ => ?_⟩
  obtain ⟨d, hd, hQ⟩ := List.mem_flatMap.mp hQ
  obtain ⟨i, hi, rfl⟩ := List.mem_map.mp hd
  rw [List.mem_range, hb.nreq] at hi
  exact hR.saw hb h0 (List.getElem?_eq_getElem hi) hQ

/-- A mutation of request `i` is at none of its faults. -/
theorem unpublished (hR : Ran cfg md w b P x₀ x m) (hb : Holds cfg b rs) (h0 : x₀.priv.faults = [])
    (hr : rs[i]? = some r) {f : Fault} (hf : f ∈ x.priv.faultsOf i) {c : Mut → Disk → Prop}
    {mu : Mut} {d : Disk} (hc : .put c ∈ ((List.range b.nreq).map (effAt cfg md rs m P)).flatten)
    (hmu : c mu d) (hreq : mu.req = i) : mu.blk ≠ f.tag.blk := by
  obtain ⟨l, hl, hc⟩ := List.mem_flatten.mp hc
  obtain ⟨i', hi', rfl⟩ := List.mem_map.mp hl
  rw [List.mem_range, hb.nreq] at hi'
  have hr' : rs[i']? = some rs[i'] := List.getElem?_eq_getElem hi'
  rw [effAt_eq hr'] at hc
  obtain ⟨p, hp, heq⟩ := List.mem_map.mp hc
  cases heq
  obtain rfl : i' = i := hmu.1.symm.trans hreq
  rw [hr, Option.some.injEq] at hr'
  rw [← hr'] at hp
  rw [hmu.2.1]
  have ho : ¬ r.Oob cfg := fun ho => by
    rw [Req.nops_oob ho] at hp
    cases hp
  rcases (hb.fits r (List.mem_of_getElem? hr)).cmd with hcmd | hcmd
  · rw [hR.pubPieces_read hb hr (by simp [hcmd])] at hp
    cases hp
  · exact (hR.storedAs hb h0 hr hcmd ho).out f hf p hp

theorem replyOk {p : Net} (hR : Ran cfg md w b P x₀ x m) (hb : Holds cfg b rs)
    (h0 : x₀.priv.faults = []) (hst : x₀.priv.start = x₀.log.length) (hr : rs[i]? = some r)
    (hx : Loc cfg w (x.online p) s) : EventOk cfg md w s (.reply i (m.reqAt i) (m.reqs i).error) := by
  have hv := hR.verdict hb h0 hr
  rw [hR.reqAt hb hr]
  have hsc : Script w x₀.log _ (x.online p).log := hR.did hb h0
  refine hsc.replyOk hx (hR.rest.online p) (hR.start.trans hst) hv
    (fun f hf => (hR.fault_touches hb h0 hr hf).2) (fun f hf c mu d hc hmu hreq => ?_) fun hc he => ?_
  · rcases List.mem_cons.mp hc with hc | hc
    · cases hc
    · exact hR.unpublished hb h0 hr hf hc hmu hreq
  · have hfit := hb.fits r (List.mem_of_getElem? hr)
    refine ⟨by rw [hfit.data, if_pos hc], fun q hq => List.mem_cons_of_mem _ ?_⟩
    have ho : ¬ r.Oob cfg := fun ho => by
      rw [if_pos ho, he] at hv
      cases hv
    have hst := hR.storedAs hb h0 hr hc ho
    rw [if_neg ho, he] at hv
    rw [← hst.all hv.symm] at hq
    refine List.mem_flatten.mpr ⟨effAt cfg md rs m P i, List.mem_map_of_mem ?_, ?_⟩
    · rw [List.mem_range, hb.nreq]
      exact (List.getElem?_eq_some_iff.mp hr).1
    · rw [effAt_eq hr]
      exact List.mem_map_of_mem hq

theorem deliverOk {p : Net} (hR : Ran cfg md w b P x₀ x m) (hb : Holds cfg b rs)
    (h0 : x₀.priv.faults = []) (hst : x₀.priv.start = x₀.log.length) (hr : rs[i]? = some r)
    (hc : r.cmd = .read) (he : (m.reqs i).error = .ok) (hx : Loc cfg w (x.online p) s) :
    EventOk cfg md w s (.deliver (m.reqAt i) 0 (m.read (slotPtr i) r.len)) := by
  rw [hR.reqAt hb hr]
  have hsc : Script w x₀.log _ (x.online p).log := hR.did hb h0
  refine hsc.deliverOk List.mem_cons_self (fun q hq => ?_) hx (hR.rest.online p) ?_
  · refine List.mem_flatMap.mpr ⟨m.doneAt i, List.mem_map_of_mem ?_, ?_⟩
    · rw [List.mem_range, hb.nreq]
      exact (List.getElem?_eq_some_iff.mp hr).1
    · rw [hR.doneAt hb hr, Done.saw, if_pos hc]
      dsimp only
      rw [if_pos ⟨hc, he⟩]
      exact List.mem_map_of_mem hq
  · show x.priv.start ≤ _
    rw [hR.start, hst]

end Ran

/-! ## Replies -/

theorem countBatch_spec (hi : Inv cfg md s) (hx : Loc cfg w x s) :
    wp (contract cfg md) w (countBatch cfg b) (fun _ s' => Loc cfg w x s') s := by
  unfold countBatch
  split
  · refine wp_seq hi (count_spec hi hx rfl) fun _ s₁ hi₁ hx₁ => ?_
    refine wp_seq hi₁ (count_spec hi₁ hx₁ rfl) fun _ s₂ hi₂ hx₂ => ?_
    refine wp_seq hi₂ (count_spec hi₂ hx₂ rfl) fun _ s₃ hi₃ hx₃ => ?_
    split
    · refine wp_seq hi₃ (count_spec hi₃ hx₃ rfl) fun _ s₄ hi₄ hx₄ => ?_
      exact count_spec hi₄ hx₄ rfl
    · exact hx₃
  · exact hx

/-- `gout` is what was sent of the answers `ds`: all of it, or, once a send has failed, less. -/
def Sent (ds : List Done) (gout : List UInt8) (alive : Bool) : Prop :=
  ∃ rest, ds.flatMap Done.reply = gout ++ rest ∧ (alive = true ↔ rest = [])

theorem replyOne_spec {ds : List Done} {gout : List UInt8} {alive : Bool} (hi : Inv cfg md s)
    (hb : Holds cfg b rs) (hR : Ran cfg md w b P x₀ x m) (h0 : x₀.priv.faults = [])
    (hst : x₀.priv.start = x₀.log.length) (hr : rs[i]? = some r) {p : Net}
    (hx : Loc cfg w (x.online p) s) (ht : Talked x.priv.net p [] gout) (hs : Sent ds gout alive)
    (hdn : alive = false → p.down = true) :
    wp (contract cfg md) w (replyOne m i alive) (fun alive' s' => ∃ p' gout',
      Loc cfg w (x.online p') s' ∧ Talked x.priv.net p' [] gout' ∧
      Sent (ds ++ [m.doneAt i]) gout' alive' ∧ (alive' = false → p'.down = true)) s := by
  have hfit := hb.fits r (List.mem_of_getElem? hr)
  have hlt : i < rs.length := (List.getElem?_eq_some_iff.mp hr).1
  have hdepth : i < cfg.batchDepth := lt_of_lt_of_le (by rw [hb.nreq]; exact hlt) hb.depth
  have hreqs := hR.reqs_eq hb hr
  obtain ⟨rest, hds, hrest⟩ := hs
  unfold replyOne
  cases alive with
  | false =>
      rw [if_pos rfl]
      have hne : rest ≠ [] := fun h => absurd (hrest.mpr h) (by simp)
      refine ⟨p, gout, hx, ht, ⟨rest ++ (m.doneAt i).reply, ?_, by simp [hne]⟩, fun _ => hdn rfl⟩
      rw [List.flatMap_append, hds, List.flatMap_singleton, List.append_assoc]
  | true =>
      rw [if_neg (by simp)]
      obtain rfl := hrest.mp rfl
      rw [List.append_nil] at hds
      -- the answer is a header, followed by the data of a READ
      have hreply : (m.doneAt i).reply = respHdr (m.reqs i).error (m.reqs i).handle ++
          if (m.reqs i).cmd = .read ∧ (m.reqs i).error = .ok then
            m.read (m.reqs i).slot (m.reqs i).len else [] := rfl
      refine wp_seq hi (access_spec hi hx hdepth) fun _ s₁ hi₁ hx₁ => ?_
      refine wp_seq hi₁ (reply_spec hi₁ hx₁ fun s' _ hx' => hR.replyOk hb h0 hst hr hx')
        fun _ s₂ hi₂ hx₂ => ?_
      refine wp_seq hi₂ (sendAll_spec hi₂ hx₂ (hR.rest.online p)) fun ok s₃ hi₃ h => ?_
      obtain ⟨p₃, g₃, rest₃, hx₃, ht₃, hh₃, hok₃, hdn₃⟩ := h
      have ht₃ : Talked x.priv.net p₃ [] (gout ++ g₃) := ht.trans ht₃
      cases ok with
      | false =>
          have hne : rest₃ ≠ [] := fun h => absurd (hok₃.mpr h) (by simp)
          refine ⟨p₃, _, hx₃, ht₃, ⟨rest₃ ++ if (m.reqs i).cmd = .read ∧ (m.reqs i).error = .ok then
            m.read (m.reqs i).slot (m.reqs i).len else [], ?_, by simp [hne]⟩, fun _ => hdn₃ rfl⟩
          rw [List.flatMap_append, hds, List.flatMap_singleton, hreply, hh₃]
          simp only [List.append_assoc]
      | true =>
          obtain rfl := hok₃.mp rfl
          rw [List.append_nil] at hh₃
          rw [if_neg (by simp)]
          by_cases hc : (m.reqs i).cmd = .read ∧ (m.reqs i).error = .ok
          · rw [if_pos hc]
            rw [if_pos hc, hh₃] at hreply
            have hslot : (m.reqs i).slot = slotPtr i := by rw [hreqs]
            have hlen : (m.reqs i).len = r.len := by rw [hreqs]
            have hcmd : r.cmd = .read := by rw [← hc.1, hreqs]
            rw [hslot, hlen] at hreply ⊢
            have hin : (slotPtr i).off + r.len ≤ cfg.bufSize (slotPtr i).buf := by
              simp only [slotPtr, Config.bufSize]
              have h1 := hfit.le
              have h2 : (i + 1) * 65536 ≤ cfg.batchDepth * 65536 := Nat.mul_le_mul_right _ hdepth
              omega
            refine wp_seq hi₃ (access_spec hi₃ hx₃ hin) fun _ s₄ hi₄ hx₄ => ?_
            refine wp_seq hi₄ (deliver_spec hi₄ hx₄ fun s' _ hx' =>
              hR.deliverOk hb h0 hst hr hcmd hc.2 hx') fun _ s₅ hi₅ hx₅ => ?_
            refine wp_mono hi₅ (sendAll_spec hi₅ hx₅ (hR.rest.online p₃)) fun ok s₆ _ h => ?_
            obtain ⟨p₆, g₆, rest₆, hx₆, ht₆, hh₆, hok₆, hdn₆⟩ := h
            refine ⟨p₆, _, hx₆, ht₃.trans ht₆, ⟨rest₆, ?_, hok₆⟩, hdn₆⟩
            rw [List.flatMap_append, hds, List.flatMap_singleton, hreply, hh₆]
            simp only [List.append_assoc]
          · rw [if_neg hc]
            rw [if_neg hc, List.append_nil, hh₃] at hreply
            refine ⟨p₃, _, hx₃, ht₃, ⟨[], ?_, by simp⟩, (by simp)⟩
            rw [List.flatMap_append, hds, List.flatMap_singleton, hreply, List.append_nil]

/-- What is known after `flush_batch` of the requests `rs`: they ran from `x₀` to `x₁`, `gout`
was sent, and the connection is kept if that was all of it and no answer is `EIO`. -/
def Flushed (cfg : Config) (md : Mode) (w : ℕ) (b : Batch) (rs : List Req) (x : Local)
    (z : Bool × Mem) (x' : Local) : Prop :=
  ∃ x₀ x₁ P gout alive, Ran cfg md w b P x₀ x₁ z.2 ∧ x₀.priv.faults = [] ∧
    (∃ new, Alien w new ∧ x₀.log = x.log ++ new) ∧ (md.apart = true → Apart rs) ∧
    x' = x₁.online x'.priv.net ∧ Talked x.priv.net x'.priv.net [] gout ∧
    Sent ((List.range b.nreq).map z.2.doneAt) gout alive ∧
    (alive = false → x'.priv.net.down = true) ∧
    z.1 = decide (alive = true ∧ ∀ i < b.nreq, (z.2.reqs i).error ≠ .eio)

/-- **`flush_batch`.** -/
theorem flushBatch_spec (hi : Inv cfg md s) (hx : Loc cfg w x s) (hr : x.Rest md)
    (hb : Holds cfg b rs) :
    wp (contract cfg md) w (flushBatch cfg b) (fun z s' => ∃ x', Loc cfg w x' s' ∧ x'.Rest md ∧
      Flushed cfg md w b rs x z x') s := by
  unfold flushBatch
  refine wp_seq hi (begin_spec hi hx hr) fun _ s₁ hi₁ h => ?_
  obtain ⟨new, hnew, hap, hx₁⟩ := h
  rw [hb.map_reqAt] at hap
  have hr₁ : Local.Rest md { x with
      log := x.log ++ new
      priv := { x.priv with
          start := (x.log ++ new).length, snap := fun _ => (x.log ++ new).length, faults := [] } } :=
    hr.after hr.locks hr.entry rfl rfl rfl hr.quiet (by simp)
  refine wp_seq hi₁ (runBatch_spec hi₁ hx₁ hr₁ hb.op_ok fun j hj => ?_) fun m s₂ hi₂ h => ?_
  · have hj' := hj
    rw [hb.nops] at hj'
    obtain ⟨i, r, k, -, hk, hkn, rfl⟩ := exists_op le_rfl hj'
    have hop := hb.ops i r hk k hkn
    exact ⟨by rw [hop]; rfl, by rw [hop]; rfl, by rw [hop]; rfl, hr₁.quiet _⟩
  obtain ⟨x₂, P, hx₂, hR⟩ := h
  refine wp_seq hi₂ (countBatch_spec hi₂ hx₂) fun _ s₃ hi₃ hx₃ => ?_
  refine wp_seq hi₃ (wp_forRange (C := contract cfg md) (fun c alive s' => ∃ p gout,
    Loc cfg w (x₂.online p) s' ∧ Talked x₂.priv.net p [] gout ∧
    Sent ((List.range c).map m.doneAt) gout alive ∧ (alive = false → p.down = true)) hi₃
    ⟨_, [], hx₃, .refl, ⟨[], by simp, by simp⟩, (by simp)⟩
    fun c alive s' hc hi' h => ?_) fun alive s₄ _ h => ?_
  · obtain ⟨p, gout, hx', ht, hs, hdn⟩ := h
    rw [List.range_succ, List.map_append, List.map_singleton]
    rw [hb.nreq] at hc
    exact replyOne_spec hi' hb hR rfl rfl (List.getElem?_eq_getElem hc) hx' ht hs hdn
  · obtain ⟨p, gout, hx', ht, hs, hdn⟩ := h
    have hnet : x₂.priv.net = x.priv.net := hR.net
    rw [hnet] at ht
    exact ⟨_, hx', hR.rest.online p, _, x₂, P, gout, alive, hR, rfl, ⟨new, hnew, rfl⟩, hap, rfl, ht,
      hs, hdn, rfl⟩

end NbdVram
