import NbdVram.DoBlocks

/-!
# Byte ranges

`load_range` and `store_range` cut a byte range at block boundaries; so does `chop`,
and their specifications say that every piece of a range is stored by one mutation
or seen at one instant.
-/

namespace NbdVram

open Interleave Span MutationLog

variable {cfg : Config} {md : Mode} {s s' : State} {w n i j : ℕ} {x x' x₀ : Local} {m m' m₀ : Mem}
  {P : Plan}

/-! ## Cutting at block boundaries -/

/-- The bytes `l` at address `off`, cut at block boundaries. -/
def chop (off : ℕ) (l : List UInt8) : List Piece :=
  if l = [] then []
  else (off, l.take (4096 - off % 4096)) ::
    chop (off + (4096 - off % 4096)) (l.drop (4096 - off % 4096))
termination_by l.length
decreasing_by
  have := List.length_pos_of_ne_nil ‹_›
  have := Nat.mod_lt off (show 4096 > 0 by decide)
  rw [List.length_drop]
  omega

variable {off : ℕ} {l l' : List UInt8}

@[simp] theorem chop_nil : chop off [] = [] := by
  rw [chop, if_pos rfl]

theorem chop_cons (h : l ≠ []) : chop off l = (off, l.take (4096 - off % 4096)) ::
    chop (off + (4096 - off % 4096)) (l.drop (4096 - off % 4096)) := by
  rw [chop, if_neg h]

/-- Induction along the pieces. -/
theorem chop_induct {motive : ℕ → List UInt8 → Prop} (h0 : ∀ off, motive off [])
    (h1 : ∀ off l, l ≠ [] →
      motive (off + (4096 - off % 4096)) (l.drop (4096 - off % 4096)) → motive off l)
    (off : ℕ) (l : List UInt8) : motive off l := by
  induction off, l using chop.induct with
  | case1 off => exact h0 off
  | case2 off l hl ih => exact h1 off l hl ih

/-- A range inside one block is one piece. -/
theorem chop_single (h : l ≠ []) (hle : off % 4096 + l.length ≤ 4096) : chop off l = [(off, l)] := by
  have := Nat.mod_lt off (show 4096 > 0 by decide)
  rw [chop_cons h, List.take_of_length_le (by omega), List.drop_eq_nil_of_le (by omega), chop_nil]

/-- Ranges that meet at a block boundary. -/
theorem chop_append (h : 4096 ∣ off + l.length) :
    chop off (l ++ l') = chop off l ++ chop (off + l.length) l' := by
  induction off, l using chop_induct with
  | h0 off => simp
  | h1 off l hl ih =>
      have hpos := List.length_pos_of_ne_nil hl
      -- the first piece ends at or before the boundary
      have hk : 4096 - off % 4096 ≤ l.length := by omega
      rw [chop_cons (by simp [hl]), chop_cons hl, List.take_append_of_le_length hk,
        List.drop_append_of_le_length hk, ih (by rw [List.length_drop]; omega), List.cons_append,
        List.length_drop, show off + (4096 - off % 4096) + (l.length - (4096 - off % 4096)) =
          off + l.length from by omega]

/-- What the pieces look like. -/
theorem mem_chop {p : Piece} (h : p ∈ chop off l) : p.2 ≠ [] ∧ p.1 % 4096 + p.2.length ≤ 4096 ∧
    off ≤ p.1 ∧ p.1 + p.2.length ≤ off + l.length ∧
    p.2 = (l.drop (p.1 - off)).take p.2.length := by
  induction off, l using chop_induct with
  | h0 off => simp at h
  | h1 off l hl ih =>
      have hpos := List.length_pos_of_ne_nil hl
      have hmod := Nat.mod_lt off (show 4096 > 0 by decide)
      rw [chop_cons hl] at h
      rcases List.mem_cons.mp h with rfl | h
      · refine ⟨?_, ?_, le_rfl, ?_, ?_⟩
        · rw [← List.length_pos_iff_ne_nil, List.length_take]
          omega
        · rw [List.length_take]
          omega
        · rw [List.length_take]
          omega
        · simp
      · obtain ⟨h1, h2, h3, h4, h5⟩ := ih h
        have hpos' := List.length_pos_of_ne_nil h1
        rw [List.length_drop] at h4
        rw [List.drop_drop, show 4096 - off % 4096 + (p.1 - (off + (4096 - off % 4096))) = p.1 - off
          from by omega] at h5
        exact ⟨h1, h2, by omega, by omega, h5⟩

/-- The blocks of the pieces lie between the ends of the range. -/
theorem blk_of_mem_chop {p : Piece} (h : p ∈ chop off l) :
    0 < l.length ∧ off / 4096 ≤ Piece.blk p ∧ Piece.blk p * 4096 < off + l.length := by
  obtain ⟨h1, -, h3, h4, -⟩ := mem_chop h
  have := List.length_pos_of_ne_nil h1
  simp only [Piece.blk]
  omega

/-- Whole blocks. -/
theorem chop_blocks {f : ℕ → UInt8} {a b : ℕ} (n : ℕ) : chop (b * 4096) (slice f a (n * 4096)) =
    (List.range n).map fun j => ((b + j) * 4096, slice f (a + j * 4096) 4096) := by
  induction n with
  | zero => simp
  | succ n ih =>
      rw [Nat.succ_mul, slice_add, chop_append (by rw [slice_length]; omega), ih, List.range_succ,
        List.map_append, slice_length, ← Nat.add_mul, chop_single]
      · simp
      · rw [← List.length_pos_iff_ne_nil, slice_length]
        decide
      · rw [slice_length]
        omega

/-- Every byte is in a piece. -/
theorem exists_mem_chop {k : ℕ} (hk : k < l.length) :
    ∃ p ∈ chop off l, p.1 ≤ off + k ∧ off + k < p.1 + p.2.length := by
  induction off, l using chop_induct generalizing k with
  | h0 off => simp at hk
  | h1 off l hl ih =>
      have hmod := Nat.mod_lt off (show 4096 > 0 by decide)
      rw [chop_cons hl]
      by_cases hlt : k < 4096 - off % 4096
      · refine ⟨_, List.mem_cons_self, by simp, ?_⟩
        simp only [List.length_take]
        omega
      · have hk' : k - (4096 - off % 4096) < (l.drop (4096 - off % 4096)).length := by
          rw [List.length_drop]
          omega
        obtain ⟨p, hp, h1, h2⟩ := ih hk'
        exact ⟨p, List.mem_cons_of_mem _ hp, by omega, by omega⟩

/-! ## Windows of whole blocks -/

/-- A fresh op set. -/
theorem Going.init (hr : x.Rest md) (ho : OpsOk cfg n m)
    (hgr : ∀ j < n, (m.ops j).grain = slotNone) (he : ∀ j < n, (m.ops j).err = .ok) :
    Going cfg md w n x m x m := by
  refine ⟨ho, .refl, hr.free, rfl, rfl, ⟨[], Foreign.nil, by simp⟩,
    ⟨[], rfl, by simp, fun j hj => (he j hj).trans (verdict_ok.mpr rfl).symm⟩, fun sl _ => hr.calm sl, fun sl q hq => ?_, fun j hj _ => .inl (hgr j hj), fun hb g hg => ?_,
    hr.since⟩
  · rw [hr.target sl] at hq
    cases hq
  · exact .inl (hr.resv hb g hg)

section SetOps

variable {blk req : ℕ} {cmd : Cmd} {page : Ptr}

theorem setOps_ops (hi : i < n) : (m.setOps 0 n blk cmd page req).ops i =
    blkopSet i (blk + i) cmd (page.add (i * 4096)) req := by
  simp [Mem.setOps, hi]

theorem setOps_opsOk (hc : cmd = .read ∨ cmd = .write) (hb : blk + n ≤ cfg.nblocks)
    (hn : n ≤ cfg.maxops) : OpsOk cfg n (m.setOps 0 n blk cmd page req) := by
  refine ⟨hn, fun i hi => ?_, fun i hi => ?_, fun i hi => ?_, fun i hi j hj hij => ?_,
    fun i hi j hj hij _ => ?_⟩
  · rw [setOps_ops hi]
    rfl
  · rw [setOps_ops hi]
    simp only [blkopSet]
    omega
  · rw [setOps_ops hi]
    exact hc
  · rw [setOps_ops hi, setOps_ops hj]
    simp only [blkopSet, Ptr.Apart, Ptr.add]
    omega
  · rw [setOps_ops hi, setOps_ops hj]
    simp only [blkopSet]
    omega

theorem setOps_unprepared (hr : x.Rest md) (hi : i < n) :
    Unprepared i x (m.setOps 0 n blk cmd page req) := by
  refine ⟨?_, ?_, ?_, hr.quiet _⟩
  all_goals
    rw [setOps_ops hi]
    rfl

theorem setOps_going (hr : x.Rest md) (hc : cmd = .read ∨ cmd = .write) (hb : blk + n ≤ cfg.nblocks)
    (hn : n ≤ cfg.maxops) : Going cfg md w n x (m.setOps 0 n blk cmd page req) x
      (m.setOps 0 n blk cmd page req) :=
  Going.init hr (setOps_opsOk hc hb hn) (fun _ hj => (setOps_unprepared hr hj).grain)
    fun _ hj => (setOps_unprepared hr hj).err

theorem blkopSets_spec {i₀ : ℕ} (hi : Inv cfg md s) (hx : Loc cfg w x s) (hn : i₀ + n ≤ cfg.maxops)
    (hp : page.off + n * 4096 ≤ cfg.bufSize page.buf) :
    wp (contract cfg md) w (blkopSets m i₀ n blk cmd page req)
      (fun m' s' => m' = m.setOps i₀ n blk cmd page req ∧ Loc cfg w x s') s :=
  wp_seq hi (access_spec hi hx hn) fun _ _ hi₁ hx₁ =>
    wp_seq hi₁ (access_spec hi₁ hx₁ hp) fun _ _ _ hx₂ => ⟨rfl, hx₂⟩

end SetOps

/-- A piece that a READ has seen. -/
def Piece.saw (cfg : Config) (md : Mode) (p : Piece) (d : Disk) : Prop :=
  md.Reads cfg → slice d p.1 p.2.length = p.2

/-- The `n` blocks at `p`. -/
def Ptr.Reach (p : Ptr) (n : ℕ) (b : Buf) (a : ℕ) : Prop := p.buf = b ∧ p.off ≤ a ∧ a < p.off + n

/-- Only the `n` bytes at `p` and the op set differ. -/
structure Mem.Filled (p : Ptr) (n : ℕ) (m m' : Mem) : Prop where
  reqs : m'.reqs = m.reqs
  buf : ∀ b a, ¬ p.Reach n b a → m'.buf b a = m.buf b a

/-- How loading ends: the pieces of what was loaded were seen, or a copy has failed. -/
structure Loaded (cfg : Config) (md : Mode) (w : ℕ) (x : Local) (ps : List Piece) (err : Err)
    (x' : Local) (fs : List Fault) (l : List (Disk → Prop)) : Prop where
  did : Did w x [.sees l] fs x'
  clean : err = .ok ↔ fs = []
  ok : err = .ok → l = ps.map (Piece.saw cfg md)
  eio : err ≠ .ok → err = .eio ∧ (md.Reads cfg → md.launch = false)

theorem Script.merge {log log' log'' : List Mut} {l l' : List (Disk → Prop)}
    (h : Script w log [.sees l] log') (h' : Script w log' [.sees l'] log'') :
    Script w log [.sees (l ++ l')] log'' := by
  obtain ⟨new, rfl, hl⟩ := h.trans h'
  exact ⟨new, rfl, hl.sees_merge⟩

theorem Loaded.append {ps ps' : List Piece} {err : Err} {x'' : Local} {fs fs' : List Fault}
    {l l' : List (Disk → Prop)} (h : Loaded cfg md w x ps .ok x' fs l)
    (h' : Loaded cfg md w x' ps' err x'' fs' l') :
    Loaded cfg md w x (ps ++ ps') err x'' (fs' ++ fs) (l ++ l') := by
  have hd := h.did.trans h'.did
  refine ⟨⟨h.did.script.merge h'.did.script, hd.net, hd.start, hd.faults⟩, ?_, fun he => ?_, h'.eio⟩
  · rw [h.clean.mp rfl, List.append_nil]
    exact h'.clean
  · rw [h.ok rfl, h'.ok he, List.map_append]

/-- A load that has failed says nothing about the bytes. -/
theorem Loaded.failed {ps ps' : List Piece} {err : Err} {fs : List Fault} {l : List (Disk → Prop)}
    (h : Loaded cfg md w x ps err x' fs l) (he : err ≠ .ok) :
    Loaded cfg md w x ps' .eio x' fs l := by
  obtain ⟨h1, h2⟩ := h.eio he
  subst h1
  exact ⟨h.did, h.clean, (by simp), fun _ => ⟨rfl, h2⟩⟩

theorem pageOf_saw {d : Disk} {b : ℕ} {p : Page} :
    pageOf d b = p ↔ slice d (b * 4096) 4096 = p.bytes := by
  rw [Page.ext_iff, pageOf, Page.read_bytes]

theorem rdPrepare_phase (hi : Inv cfg md s) (hx : Loc cfg w x s) (hg : Going cfg md w n x₀ m₀ x m)
    (hc : ∀ j < n, (m₀.ops j).cmd = .read) (h : ∀ j < n, Unprepared j x m) :
    wp (contract cfg md) w (Prog.forRange n rdPrepare m) (fun m' s' => ∃ x', Loc cfg w x' s' ∧
      Going cfg md w n x₀ m₀ x' m' ∧ ∀ j < n, Ready cfg md n P x₀.log.length j x' m') s := by
  refine wp_each id (fun _ x y => Going cfg md w n x₀ m₀ x y) framed_unprepared framed_ready
    (fun _ _ _ h => h.ops) (fun i x m s hlt hi hx hg hu => ?_) hi hx hg h
  have hci : (m.ops i).cmd = .read := (hg.evolves.ops i).cmd.trans (hc i hlt)
  refine wp_mono hi (rdPrepare_visit hlt hi hx hg hci hu.err hu.quiet) fun m' s' _ h => ?_
  obtain ⟨x', h1, h2, ⟨h3, -⟩, h4⟩ := h
  refine ⟨x', h1, h2, ⟨fun _ => h3, fun h => ?_⟩, h4⟩
  exact absurd ((h4.alike.cmd.trans hci).symm.trans h) (by simp)

theorem pubs_eq_nil (h : ∀ j < n, (m.ops j).cmd = .read) : pubs cfg md m P n = [] := by
  have : (List.range n).filter (fun j => decide (m.ops j).Pub) = [] := by
    rw [List.filter_eq_nil_iff]
    intro j hj
    simp [BlkOp.Pub, h j (List.mem_range.mp hj)]
  rw [pubs, this, List.map_nil]

/-- A window of READs of consecutive blocks. -/
theorem BlocksDone.loaded {blk : ℕ} {dst : Ptr}
    (h : BlocksDone cfg md w n P x (m.setOps 0 n blk .read dst 0) x' m') :
    m.Filled dst (n * 4096) m' ∧ ∃ fs l, Loaded cfg md w x
      (chop (blk * 4096) (m'.read dst (n * 4096)))
      (if ∃ i < n, (m'.ops i).err ≠ .ok then .eio else .ok) x' fs l := by
  have hops : ∀ j < n, (m'.ops j).cmd = .read ∧ (m'.ops j).blk = blk + j ∧
      (m'.ops j).page = dst.add (j * 4096) := by
    intro j hj
    have ha := h.evolves.ops j
    rw [setOps_ops hj] at ha
    exact ⟨ha.cmd, ha.blk, ha.page⟩
  refine ⟨⟨h.evolves.reqs, fun b a hba => h.evolves.buf b a fun i hi _ hcov => hba ?_⟩, ?_⟩
  · rw [setOps_ops hi] at hcov
    obtain ⟨h1, h2, h3⟩ := hcov
    simp only [blkopSet, Ptr.add] at h1 h2 h3
    exact ⟨h1, by omega, by omega⟩
  obtain ⟨fs, hfs, hbl⟩ := h.faults
  obtain ⟨new, hlog, hlin⟩ := h.script
  rw [pubs_eq_nil fun j hj => (hops j hj).1] at hlin
  by_cases hbad : ∃ i < n, (m'.ops i).err ≠ .ok
  · refine ⟨fs, seens cfg md m' n, ⟨⟨new, hlog, hlin⟩, h.net, h.start, hfs⟩, ?_, fun he => ?_,
      fun _ => ⟨if_pos hbad, fun hm => ?_⟩⟩
    · rw [if_pos hbad]
      refine ⟨(by simp), fun hnil => ?_⟩
      obtain ⟨i, hi, he⟩ := hbad
      rw [hnil] at hbl
      exact absurd ((hbl.err i hi).trans (verdict_ok.mpr rfl)) he
    · rw [if_pos hbad] at he
      cases he
    · obtain ⟨i, hi, he⟩ := hbad
      exact (((h.read i hi (hops i hi).1).resolve_left he).2 hm)
  · have hok : ∀ j < n, (m'.ops j).err = .ok := fun j hj => by
      by_contra he
      exact hbad ⟨j, hj, he⟩
    refine ⟨[], _, ⟨⟨new, hlog, hlin.sees_mono ?_⟩, h.net, h.start, ?_⟩, by simp [if_neg hbad],
      fun _ => rfl, fun he => absurd (if_neg hbad) he⟩
    · intro Q hQ
      rw [Mem.read, chop_blocks, List.map_map] at hQ
      obtain ⟨j, hj, rfl⟩ := List.mem_map.mp hQ
      rw [List.mem_range] at hj
      refine ⟨_, List.mem_map.mpr ⟨j, List.mem_filter.mpr ⟨List.mem_range.mpr hj,
        decide_eq_true ⟨(hops j hj).1, hok j hj⟩⟩, rfl⟩, fun d hd hm => ?_⟩
      have hp := hd hm
      rw [(hops j hj).2.1, (hops j hj).2.2, pageOf_saw, Mem.page, Page.read_bytes] at hp
      simp only [slice_length]
      exact hp
    · cases fs with
      | nil => exact hfs
      | cons f fs =>
          obtain ⟨j, hj, hf⟩ := hbl.tags f List.mem_cons_self
          have hnil := verdict_ok.mp ((hbl.err j hj).symm.trans (hok j hj))
          rw [List.filter_eq_nil_iff] at hnil
          exact absurd (decide_eq_true hf) (hnil f List.mem_cons_self)

namespace Mem.Filled

variable {p : Ptr} {k k' : ℕ}

theorem refl : m.Filled p k m := ⟨rfl, fun _ _ _ => rfl⟩

theorem mono (h : m.Filled p k m') (hk : k ≤ k') : m.Filled p k' m' := by
  refine ⟨h.reqs, fun b a hn => h.buf b a fun ⟨h1, h2, h3⟩ => hn ⟨h1, h2, ?_⟩⟩
  omega

theorem append {m'' : Mem} (h : m.Filled p k m') (h' : m'.Filled (p.add k) k' m'') :
    m.Filled p (k + k') m'' := by
  refine ⟨h'.reqs.trans h.reqs, fun b a hn => ?_⟩
  rw [h'.buf b a fun hr => hn ?_, h.buf b a fun hr => hn ?_]
  · exact ⟨hr.1, hr.2.1, by have := hr.2.2; omega⟩
  · obtain ⟨h1, h2, h3⟩ := hr
    simp only [Ptr.add] at h1 h2 h3
    exact ⟨h1, by omega, by omega⟩

/-- What was filled first stays. -/
theorem read_append {m'' : Mem} (h' : m'.Filled (p.add k) k' m'') :
    m''.read p (k + k') = m'.read p k ++ m''.read (p.add k) k' := by
  rw [Mem.read, Mem.read, Mem.read, slice_add]
  congr 1
  refine slice_congr fun _ _ => h'.buf _ _ fun hr => ?_
  have := hr.2.1
  simp only [Ptr.add] at this
  omega

end Mem.Filled

theorem le_maxops (cfg : Config) : 64 ≤ cfg.maxops := by
  unfold Config.maxops
  split <;> omega

theorem window_spec (h : n ≠ 0) :
    0 < cfg.window n ∧ cfg.window n ≤ n ∧ cfg.window n ≤ cfg.maxops := by
  have h1 := le_maxops cfg
  unfold Config.window
  split <;> omega

theorem Loaded.nil (x : Local) : Loaded cfg md w x [] .ok x [] [] :=
  ⟨⟨⟨[], by simp, Lin.sees Foreign.nil (by simp)⟩, rfl, rfl, rfl⟩, by simp, fun _ => rfl,
    fun h => absurd rfl h⟩

theorem loadLoop_spec {fuel blk nb : ℕ} {dst : Ptr} (hi : Inv cfg md s) (hx : Loc cfg w x s)
    (hr : x.Rest md) (hb : blk + nb ≤ cfg.nblocks) (hin : dst.off + nb * 4096 ≤ cfg.bufSize dst.buf)
    (hf : nb ≤ fuel) :
    wp (contract cfg md) w (loadLoop cfg fuel blk dst nb m) (fun r s' => ∃ x' fs l,
      Loc cfg w x' s' ∧ x'.Rest md ∧ m.Filled dst (nb * 4096) r.2 ∧
      Loaded cfg md w x (chop (blk * 4096) (r.2.read dst (nb * 4096))) r.1 x' fs l) s := by
  induction fuel generalizing x m s blk nb dst with
  | zero =>
      have hz : nb = 0 := by omega
      subst hz
      refine ⟨x, [], [], hx, hr, .refl, ?_⟩
      simpa [Mem.read] using Loaded.nil x
  | succ fuel ih =>
      unfold loadLoop
      by_cases hz : nb = 0
      · subst hz
        rw [if_pos rfl]
        refine ⟨x, [], [], hx, hr, .refl, ?_⟩
        simpa [Mem.read] using Loaded.nil x
      rw [if_neg hz]
      have hwin : 0 < cfg.window nb ∧ cfg.window nb ≤ nb ∧ cfg.window nb ≤ cfg.maxops := window_spec hz
      obtain ⟨hpos, hle, hmax⟩ := hwin
      obtain ⟨rest, hrest⟩ := Nat.exists_eq_add_of_le hle
      dsimp only
      generalize cfg.window nb = k at hpos hle hmax hrest ⊢
      subst hrest
      have hk : dst.off + k * 4096 ≤ cfg.bufSize dst.buf :=
        (Nat.add_le_add_left (Nat.mul_le_mul_right _ hle) _).trans hin
      refine wp_seq hi (blkopSets_spec hi hx (by rwa [Nat.zero_add]) hk) fun _ s hi h => ?_
      obtain ⟨rfl, hx⟩ := h
      have hg : Going cfg md w k x (m.setOps 0 k blk .read dst 0) x (m.setOps 0 k blk .read dst 0) :=
        setOps_going hr (.inl rfl) (by omega) hmax
      refine wp_seq hi (rdPrepare_phase (P := ⟨fun _ => Page.zero, fun _ => True, fun _ => False⟩) hi hx hg
        (fun j hj => by rw [setOps_ops hj]; rfl) fun j hj => setOps_unprepared hr hj)
        fun m₁ s₁ hi₁ h₁ => ?_
      obtain ⟨x₁, hx₁, hg₁, ho₁⟩ := h₁
      refine wp_seq hi₁ (doBlocks_spec hi₁ hx₁ hg₁ ho₁) fun m₂ s₂ hi₂ h₂ => ?_
      obtain ⟨x₂, hx₂, hd₂⟩ := h₂
      obtain ⟨hfill, fs, l, hl⟩ := hd₂.loaded
      by_cases hbad : ∃ i < k, (m₂.ops i).err ≠ .ok
      · rw [if_pos hbad] at hl ⊢
        exact ⟨x₂, fs, l, hx₂, hd₂.rest, hfill.mono (Nat.mul_le_mul_right _ (by omega)), hl.did,
          hl.clean, (by simp), hl.eio⟩
      · rw [if_neg hbad] at hl ⊢
        rw [Nat.add_sub_cancel_left]
        refine wp_mono hi₂ (ih hi₂ hx₂ hd₂.rest (by omega) (by simp only [Ptr.add]; omega) (by omega))
          fun r s₃ _ h₃ => ?_
        obtain ⟨x₃, fs', l', hx₃, hr₃, hfill', hl'⟩ := h₃
        refine ⟨x₃, fs' ++ fs, l ++ l', hx₃, hr₃, ?_, ?_⟩
        · rw [Nat.add_mul]
          exact hfill.append hfill'
        · rw [Nat.add_mul, hfill'.read_append, chop_append, Mem.read, slice_length, ← Nat.add_mul]
          · exact hl.append hl'
          · rw [Mem.read, slice_length]
            omega

theorem loadBlocks_spec {blk nb : ℕ} {dst : Ptr} (hi : Inv cfg md s) (hx : Loc cfg w x s)
    (hr : x.Rest md) (hb : blk + nb ≤ cfg.nblocks)
    (hin : dst.off + nb * 4096 ≤ cfg.bufSize dst.buf) :
    wp (contract cfg md) w (loadBlocks cfg blk dst nb m) (fun r s' => ∃ x' fs l,
      Loc cfg w x' s' ∧ x'.Rest md ∧ m.Filled dst (nb * 4096) r.2 ∧
      Loaded cfg md w x (chop (blk * 4096) (r.2.read dst (nb * 4096))) r.1 x' fs l) s := by
  unfold loadBlocks
  exact loadLoop_spec hi hx hr hb hin le_rfl

/-! ## `load_range` -/

@[simp] theorem Mem.read_length (m : Mem) (p : Ptr) (n : ℕ) : (m.read p n).length = n :=
  slice_length

theorem Mem.read_write_append {p : Ptr} {k : ℕ} {bs : List UInt8} :
    (m.write (p.add k) bs).read p (k + bs.length) = m.read p k ++ bs := by
  simp only [Mem.read, Mem.write, Ptr.add, Function.update_self]
  rw [slice_add, slice_splice_self rfl, slice_splice_out (.inl le_rfl)]

theorem Mem.read_write_self {p : Ptr} {k : ℕ} {bs : List UInt8} (h : bs.length = k) :
    (m.write p bs).read p k = bs := by
  simp only [Mem.read, Mem.write, Function.update_self]
  exact slice_splice_self h

theorem Mem.Filled.read_scratch {p : Ptr} {k k' : ℕ} (h : m.Filled ⟨.scratch, 0⟩ k m')
    (hp : p.buf ≠ .scratch) : m'.read p k' = m.read p k' :=
  slice_congr fun i _ => h.buf _ _ fun hr => hp hr.1.symm

/-- A part of a block that was loaded to `scratch`. -/
theorem Loaded.part {b boff cnt : ℕ} {fs : List Fault} {l : List (Disk → Prop)}
    (h : Loaded cfg md w x (chop (b * 4096) (m.read ⟨.scratch, 0⟩ (1 * 4096))) .ok x' fs l)
    (hpos : 0 < cnt) (hle : boff + cnt ≤ 4096) :
    ∃ l', Loaded cfg md w x (chop (b * 4096 + boff) (m.read ⟨.scratch, boff⟩ cnt)) .ok x' fs l' := by
  have hf := h.clean.mp rfl
  have hl := h.ok rfl
  have hne : m.read ⟨.scratch, boff⟩ cnt ≠ [] := by
    rw [← List.length_pos_iff_ne_nil, Mem.read, slice_length]
    exact hpos
  refine ⟨_, ?_, by simp [hf], fun _ => rfl, fun h => absurd rfl h⟩
  obtain ⟨new, hlog, hlin⟩ := h.did.script
  refine ⟨⟨new, hlog, hlin.sees_mono fun Q hQ => ?_⟩, h.did.net, h.did.start, h.did.faults⟩
  rw [chop_single hne (by rw [Mem.read, slice_length]; omega)] at hQ
  rw [List.map_singleton, List.mem_singleton] at hQ
  subst hQ
  rw [Mem.read, chop_blocks] at hl
  refine ⟨_, by rw [hl]; simp only [List.range_one, List.map_singleton, List.mem_singleton]; rfl,
    fun d hd hm => ?_⟩
  have hp := hd hm
  simp only [slice_length, Nat.zero_mul, Nat.add_zero] at hp
  simp only [Mem.read, slice_length]
  -- the part is cut out of both sides
  have hcut := congrArg (fun q => (q.drop boff).take cnt) hp
  rw [drop_slice (by omega), drop_slice (by omega), take_slice (by omega), take_slice (by omega),
    Nat.zero_add] at hcut
  exact hcut

theorem headLen_of_ne {off n : ℕ} (h : off % 4096 ≠ 0) :
    headLen off n = min (4096 - off % 4096) n := if_neg h

theorem headLen_spec (off n : ℕ) :
    headLen off n ≤ n ∧ (headLen off n = n ∨ 4096 ∣ off + headLen off n) := by
  unfold headLen
  split <;> omega

/-- A part of one block, through `scratch`. -/
theorem loadPart_spec {blk boff cnt : ℕ} {dst : Ptr} (hi : Inv cfg md s) (hx : Loc cfg w x s)
    (hr : x.Rest md) (hb : blk < cfg.nblocks) (hpos : 0 < cnt) (hle : boff + cnt ≤ 4096)
    (hin : dst.off + cnt ≤ cfg.bufSize dst.buf) :
    wp (contract cfg md) w (loadPart cfg blk boff dst cnt m) (fun r s' => ∃ x' fs l m₁,
      Loc cfg w x' s' ∧ x'.Rest md ∧ m.Filled ⟨.scratch, 0⟩ (1 * 4096) m₁ ∧
      (r.1 = .ok → r.2 = m₁.write dst (m₁.read ⟨.scratch, boff⟩ cnt)) ∧
      Loaded cfg md w x (chop (blk * 4096 + boff) (r.2.read dst cnt)) r.1 x' fs l) s := by
  unfold loadPart
  refine wp_seq hi (loadBlocks_spec hi hx hr hb (by simp [Config.bufSize])) fun r s₁ hi₁ h => ?_
  obtain ⟨x₁, fs, l, hx₁, hr₁, hfill, hl⟩ := h
  obtain ⟨e, m₁⟩ := r
  by_cases he : e ≠ .ok
  · rw [if_pos he]
    have heio := hl.eio he
    refine ⟨x₁, fs, l, m₁, hx₁, hr₁, hfill, (by simp), hl.did, ?_, (by simp),
      fun _ => ⟨rfl, heio.2⟩⟩
    rw [← hl.clean, heio.1]
  · rw [if_neg he]
    rw [not_not] at he
    subst he
    obtain ⟨l', hl'⟩ := hl.part hpos hle
    refine wp_seq hi₁ (access_spec hi₁ hx₁ hle) fun _ s₂ hi₂ hx₂ => ?_
    refine wp_seq hi₂ (access_spec hi₂ hx₂ hin) fun _ s₃ _ hx₃ =>
      ⟨x₁, fs, l', m₁, hx₃, hr₁, hfill, fun _ => rfl, ?_⟩
    rw [Mem.read_write_self (Mem.read_length _ _ _)]
    exact hl'

/-- The head of a range that does not start on a block boundary. -/
theorem loadHead_spec {off n : ℕ} {dst : Ptr} (hi : Inv cfg md s) (hx : Loc cfg w x s)
    (hr : x.Rest md) (hb : off + n ≤ cfg.diskSize) (hn : 0 < n)
    (hin : dst.off + n ≤ cfg.bufSize dst.buf) :
    wp (contract cfg md) w (loadHead cfg off dst n m) (fun r s' => ∃ x' fs l, Loc cfg w x' s' ∧
      x'.Rest md ∧ Loaded cfg md w x (chop off (r.2.read dst (headLen off n))) r.1 x' fs l) s := by
  have hnb := Nat.div_mul_cancel cfg.disk_blocks
  unfold loadHead
  by_cases hz : off % 4096 = 0
  · rw [if_pos hz]
    refine ⟨x, [], [], hx, hr, ?_⟩
    rw [headLen, if_pos hz]
    simpa [Mem.read] using Loaded.nil x
  · rw [if_neg hz]
    have hblk : off / 4096 < cfg.nblocks := by
      unfold Config.nblocks
      omega
    have hcnt : 0 < headLen off n ∧ off % 4096 + headLen off n ≤ 4096 ∧ headLen off n ≤ n := by
      rw [headLen_of_ne hz]
      omega
    refine wp_mono hi (loadPart_spec hi hx hr hblk hcnt.1 hcnt.2.1 (by omega)) fun r s₁ _ h => ?_
    obtain ⟨x₁, fs, l, m₁, hx₁, hr₁, -, -, hl⟩ := h
    rw [Nat.div_add_mod'] at hl
    exact ⟨x₁, fs, l, hx₁, hr₁, hl⟩

/-- The whole blocks of a range that starts on a block boundary. -/
theorem loadBody_spec {off n : ℕ} {dst : Ptr} (hi : Inv cfg md s) (hx : Loc cfg w x s)
    (hr : x.Rest md) (hb : off + n ≤ cfg.diskSize) (hoff : n = 0 ∨ 4096 ∣ off)
    (hin : dst.off + n ≤ cfg.bufSize dst.buf) :
    wp (contract cfg md) w (loadBody cfg off dst n m) (fun r s' => ∃ x' fs l, Loc cfg w x' s' ∧
      x'.Rest md ∧ m.Filled dst (n / 4096 * 4096) r.2 ∧
      Loaded cfg md w x (chop off (r.2.read dst (n / 4096 * 4096))) r.1 x' fs l) s := by
  have hnb := Nat.div_mul_cancel cfg.disk_blocks
  unfold loadBody
  by_cases hle : 4096 ≤ n
  · rw [if_pos hle]
    have hblk : off / 4096 + n / 4096 ≤ cfg.nblocks := by
      unfold Config.nblocks
      omega
    refine wp_seq hi (access_spec hi hx (Nat.div_mul_le_self n 4096)) fun _ s hi hx => ?_
    refine wp_mono hi (loadBlocks_spec hi hx hr hblk (by omega)) fun r s₁ _ h => ?_
    rw [Nat.div_mul_cancel (show 4096 ∣ off by omega)] at h
    exact h
  · rw [if_neg hle, show n / 4096 = 0 from by omega]
    refine ⟨x, [], [], hx, hr, .refl, ?_⟩
    simpa [Mem.read] using Loaded.nil x

/-- **`load_range`.** -/
theorem loadRange_spec {off n : ℕ} {dst : Ptr} (hi : Inv cfg md s) (hx : Loc cfg w x s)
    (hr : x.Rest md) (hb : off + n ≤ cfg.diskSize) (hn : 0 < n) (hdst : dst.buf ≠ .scratch)
    (hin : dst.off + n ≤ cfg.bufSize dst.buf) :
    wp (contract cfg md) w (loadRange cfg off dst n m) (fun r s' => ∃ x' fs l,
      Loc cfg w x' s' ∧ x'.Rest md ∧
      Loaded cfg md w x (chop off (r.2.read dst n)) r.1 x' fs l) s := by
  have hnb := Nat.div_mul_cancel cfg.disk_blocks
  unfold loadRange
  refine wp_seq hi (loadHead_spec hi hx hr hb hn hin) fun r s₁ hi₁ h => ?_
  obtain ⟨x₁, fs₁, l₁, hx₁, hr₁, hl₁⟩ := h
  obtain ⟨e₁, m₁⟩ := r
  by_cases he₁ : e₁ ≠ .ok
  · rw [if_pos he₁]
    exact ⟨x₁, fs₁, l₁, hx₁, hr₁, hl₁.failed he₁⟩
  rw [if_neg he₁]
  rw [not_not.mp he₁] at hl₁
  obtain ⟨hle, hal⟩ := headLen_spec off n
  refine wp_seq hi₁ (access_spec hi₁ hx₁ hle) fun _ s₁ hi₁ hx₁ => ?_
  dsimp only at hl₁ ⊢
  generalize headLen off n = cnt at hle hal hl₁ ⊢
  obtain ⟨k, rfl⟩ := Nat.exists_eq_add_of_le hle
  rw [Nat.add_sub_cancel_left]
  refine wp_seq hi₁ (loadBody_spec hi₁ hx₁ hr₁ (by omega) (by omega) (by simp only [Ptr.add]; omega))
    fun r s₂ hi₂ h => ?_
  obtain ⟨x₂, fs₂, l₂, hx₂, hr₂, hfill, hl₂⟩ := h
  obtain ⟨e₂, m₂⟩ := r
  by_cases he₂ : e₂ ≠ .ok
  · rw [if_pos he₂]
    exact ⟨x₂, _, _, hx₂, hr₂, (hl₁.append hl₂).failed he₂⟩
  rw [if_neg he₂]
  rw [not_not.mp he₂] at hl₂
  -- head and whole blocks together
  have hl : Loaded cfg md w x (chop off (m₂.read dst (cnt + k / 4096 * 4096))) .ok x₂ (fs₂ ++ fs₁)
      (l₁ ++ l₂) := by
    rw [hfill.read_append]
    rcases hal with hal | hal
    · rw [show k = 0 from by omega] at hl₂ ⊢
      simpa [Mem.read] using hl₁.append hl₂
    · rw [chop_append (by rwa [Mem.read, slice_length]), Mem.read, slice_length]
      exact hl₁.append hl₂
  dsimp only
  by_cases hz : k % 4096 = 0
  · rw [if_pos hz]
    rw [show cnt + k / 4096 * 4096 = cnt + k from by omega] at hl
    exact ⟨x₂, _, _, hx₂, hr₂, hl⟩
  rw [if_neg hz]
  have hoff : 4096 ∣ off + cnt := hal.resolve_left (by omega)
  have hblk : (off + cnt + k / 4096 * 4096) / 4096 < cfg.nblocks := by
    unfold Config.nblocks
    omega
  refine wp_mono hi₂ (loadPart_spec hi₂ hx₂ hr₂ hblk (by omega) (by omega)
    (by simp only [Ptr.add]; omega)) fun r s₃ _ h => ?_
  obtain ⟨x₃, fs₃, l₃, m₃, hx₃, hr₃, hfill₃, hw₃, hl₃⟩ := h
  obtain ⟨e₃, m₄⟩ := r
  by_cases he₃ : e₃ ≠ .ok
  · have heio := (hl₃.eio he₃).1
    dsimp only at heio
    subst heio
    exact ⟨x₃, _, _, hx₃, hr₃, (hl.append hl₃).failed he₃⟩
  obtain rfl := not_not.mp he₃
  obtain rfl := hw₃ rfl
  rw [Nat.add_zero, Nat.div_mul_cancel (by omega), Nat.add_assoc,
    Mem.read_write_self (Mem.read_length _ _ _)] at hl₃
  have hread : (m₃.write ((dst.add cnt).add (k / 4096 * 4096)) (m₃.read ⟨.scratch, 0⟩ (k % 4096))).read
      dst (cnt + k) = m₂.read dst (cnt + k / 4096 * 4096) ++ m₃.read ⟨.scratch, 0⟩ (k % 4096) := by
    rw [← hfill₃.read_scratch hdst, ← Mem.read_write_append, Mem.read_length,
      show cnt + k / 4096 * 4096 + k % 4096 = cnt + k from by omega]
    simp only [Ptr.add, Nat.add_assoc]
  refine ⟨x₃, fs₃ ++ (fs₂ ++ fs₁), l₁ ++ l₂ ++ l₃, hx₃, hr₃, ?_⟩
  dsimp only
  rw [hread, chop_append (by rw [Mem.read_length]; omega), Mem.read_length]
  exact hl.append hl₃

/-! ## Storing whole blocks -/

theorem wrPrepare_phase (hi : Inv cfg md s) (hx : Loc cfg w x s) (hg : Going cfg md w n x₀ m₀ x m)
    (ho : OpsOk cfg n m₀) (hc : ∀ j < n, (m₀.ops j).cmd = .write)
    (hP : ∀ j < n, P.page j = m₀.page (m₀.ops j).page) (hl : ∀ j < n, P.lost j)
    (hsp : ∀ j < n, ¬ P.spare j) (h : ∀ j < n, Unprepared j x m) :
    wp (contract cfg md) w (Prog.forRange n (wrPrepare cfg) m) (fun m' s' => ∃ x', Loc cfg w x' s' ∧
      Going cfg md w n x₀ m₀ x' m' ∧ ∀ j < n, Ready cfg md n P x₀.log.length j x' m') s := by
  refine wp_each id (fun _ x y => Going cfg md w n x₀ m₀ x y) framed_unprepared framed_ready
    (fun _ _ _ h => h.ops) (fun i x m s hlt hi hx hg hu => ?_) hi hx hg h
  exact wrPrepare_visit hlt hi hx hg hu ((hg.evolves.ops i).cmd.trans (hc i hlt))
    ((hP i hlt).trans (hg.evolves.page ho hlt (hc i hlt)).symm) (hl i hlt) (hsp i hlt)

/-- Ops `a` to `a + k` are the WRITEs of request `r` to the blocks from `b` on, with the bytes
at `addr` of `f`. -/
structure WriteOps (m : Mem) (P : Plan) (a k r b : ℕ) (f : ℕ → UInt8) (addr : ℕ) : Prop where
  cmd : ∀ j < k, (m.ops (a + j)).cmd = .write
  req : ∀ j < k, (m.ops (a + j)).req = r
  blk : ∀ j < k, (m.ops (a + j)).blk = b + j
  page : ∀ j < k, (P.page (a + j)).bytes = slice f (addr + j * 4096) 4096

/-- The pieces that were published for ops `a` to `a + k`. -/
def pubPieces (m : Mem) (P : Plan) (a k : ℕ) : List Piece :=
  ((List.range k).filter fun j => (m.ops (a + j)).Pub).map fun j => m.piece P (a + j)

/-- The faults of request `r`. -/
def faultsFor (r : ℕ) (fs : List Fault) : List Fault := fs.filter fun f => f.tag.req = r

theorem mem_faultsFor {r : ℕ} {fs : List Fault} {f : Fault} :
    f ∈ faultsFor r fs ↔ f ∈ fs ∧ f.tag.req = r := by
  rw [faultsFor, List.mem_filter, decide_eq_true_eq]

/-- An op that a fault blames has failed. -/
theorem Blamed.err_ne_ok {fs : List Fault} {f : Fault} (h : Blamed n m fs) (hf : f ∈ fs) (hj : j < n)
    (ht : f.tag = (m.ops j).tag) : (m.ops j).err ≠ .ok := by
  rw [h.err j hj, ne_eq, verdict_ok]
  exact List.ne_nil_of_mem (List.mem_filter.mpr ⟨hf, decide_eq_true ht⟩)

/-- What the ops `a` to `a + k` of request `r` have stored, when they are all its ops. -/
theorem WriteOps.storedAs {a k r b addr : ℕ} {f : ℕ → UInt8} (h : WriteOps m P a k r b f addr)
    {fs : List Fault} (hbl : Blamed n m fs) (hk : a + k ≤ n)
    (hreq : ∀ j < n, (m.ops j).req = r → a ≤ j ∧ j < a + k)
    (hw : ∀ j < k, (m.ops (a + j)).Pub ∧ ¬ P.spare (a + j) ∨
      Unheld md (P.lost (a + j)) (P.spare (a + j)) (m.ops (a + j)))
    (hsp : faultsFor r fs = [] → ∀ j < k, ¬ P.spare (a + j)) :
    StoredAs cfg md r (chop (b * 4096) (slice f addr (k * 4096))) (pubPieces m P a k)
      (verdict (faultsFor r fs)) (faultsFor r fs) := by
  have hpiece : chop (b * 4096) (slice f addr (k * 4096)) =
      (List.range k).map fun j => m.piece P (a + j) := by
    rw [chop_blocks]
    refine List.map_congr_left fun j hj => ?_
    rw [List.mem_range] at hj
    rw [Mem.piece, h.blk j hj, h.page j hj]
  -- every fault of the request blames one of these ops
  have hop : ∀ g ∈ faultsFor r fs, ∃ j < k, g.tag = (m.ops (a + j)).tag ∧
      (m.ops (a + j)).err ≠ .ok := by
    intro g hg
    obtain ⟨hg, hr⟩ := mem_faultsFor.mp hg
    obtain ⟨j, hj, htag⟩ := hbl.tags g hg
    obtain ⟨h1, h2⟩ := hreq j hj (by rw [← hr, htag]; rfl)
    obtain ⟨j, rfl⟩ := Nat.exists_eq_add_of_le h1
    exact ⟨j, by omega, htag, hbl.err_ne_ok hg hj htag⟩
  have herr : faultsFor r fs = [] → ∀ j < k, (m.ops (a + j)).err = .ok := by
    intro hnil j hj
    rw [hbl.err (a + j) (by omega), verdict_ok, List.filter_eq_nil_iff]
    intro g hg ht
    have ht := of_decide_eq_true ht
    have : g ∈ faultsFor r fs := mem_faultsFor.mpr ⟨hg, by rw [ht, ← h.req j hj]; rfl⟩
    rw [hnil] at this
    cases this
  rw [hpiece, pubPieces]
  refine ⟨List.filter_sublist.map _, fun he => ?_, fun g hg => ?_, fun g hg p hp => ?_, rfl,
    fun _ h2 h3 => ?_⟩
  · rw [verdict_ok] at he
    rw [List.filter_eq_self.mpr]
    intro j hj
    rw [List.mem_range] at hj
    refine decide_eq_true ((hw j hj).resolve_right fun hu => ?_).1
    have h1 := herr he j hj
    cases hu with
    | refused h' _ _ | rejected h' _ _ =>
        rw [h1] at h'
        cases h'
    | given _ _ _ h' => exact hsp he j hj h'
  · obtain ⟨j, hj, htag, -⟩ := hop g hg
    rw [htag]
    exact ⟨h.req j hj, _, List.mem_map.mpr ⟨j, List.mem_range.mpr hj, rfl⟩, by simp [BlkOp.tag]⟩
  · obtain ⟨j, hj, htag, hbad⟩ := hop g hg
    obtain ⟨i, hi, rfl⟩ := List.mem_map.mp hp
    rw [List.mem_filter, List.mem_range, decide_eq_true_eq] at hi
    rw [htag, Mem.piece_blk, h.blk i hi.1, BlkOp.tag, h.blk j hj]
    intro hij
    rw [Nat.add_left_cancel hij] at hi
    exact hbad hi.2.2.1
  · rw [verdict_ok, List.eq_nil_iff_forall_not_mem]
    intro g hg
    obtain ⟨j, hj, -, hbad⟩ := hop g hg
    rcases hw j hj with hp | hu
    · exact hbad hp.1.2.1
    · cases hu with
      | refused _ h' _ =>
          rw [h2] at h'
          cases h'
      | rejected _ h' _ =>
          rw [h3] at h'
          cases h'
      | given h' _ _ _ => exact hbad h'

theorem Err.merge_assoc (a b c : Err) : (a.merge b).merge c = a.merge (b.merge c) := by
  cases a <;> cases b <;> cases c <;> decide

theorem mergeErr_succ (err : Err) : m.mergeErr (n + 1) err =
    (m.mergeErr n err).merge (m.ops n).err := by
  simp [Mem.mergeErr, List.range_succ]

theorem mergeErr_eq (err : Err) : m.mergeErr n err = err.merge (m.mergeErr n .ok) := by
  induction n with
  | zero => simp [Mem.mergeErr]
  | succ n ih => rw [mergeErr_succ, mergeErr_succ, ih, Err.merge_assoc]

theorem mergeErr_ok : m.mergeErr n .ok = .ok ↔ ∀ j < n, (m.ops j).err = .ok := by
  induction n with
  | zero => simp [Mem.mergeErr]
  | succ n ih =>
      rw [mergeErr_succ, Err.merge_ok, ih]
      exact Nat.forall_lt_succ_right.symm

theorem mergeErr_eio : m.mergeErr n .ok = .eio ↔ ∃ j < n, (m.ops j).err = .eio := by
  induction n with
  | zero => simp [Mem.mergeErr]
  | succ n ih =>
      rw [mergeErr_succ, Err.merge_eio, ih]
      simp only [Nat.lt_succ_iff_lt_or_eq, or_and_right, exists_or, exists_eq_left]

theorem mergeErr_ne_einval (h : ∀ j < n, (m.ops j).err ≠ .einval) : m.mergeErr n .ok ≠ .einval := by
  induction n with
  | zero => simp [Mem.mergeErr]
  | succ n ih =>
      rw [mergeErr_succ, Err.merge]
      split
      · exact h n (by omega)
      · exact ih fun j hj => h j (by omega)

/-- The merged error of a set of ops is the verdict on its faults. -/
theorem Blamed.mergeErr {fs : List Fault} (h : Blamed n m fs) : m.mergeErr n .ok = verdict fs := by
  have hmem : ∀ f ∈ fs, ∃ j < n, f ∈ fs.filter fun f => f.tag = (m.ops j).tag := by
    intro f hf
    obtain ⟨j, hj, ht⟩ := h.tags f hf
    exact ⟨j, hj, List.mem_filter.mpr ⟨hf, decide_eq_true ht⟩⟩
  apply Err.eq_of_iff _ (verdict_ne_einval fs)
  · rw [mergeErr_ok, verdict_ok]
    refine ⟨fun hok => ?_, fun hnil j hj => ?_⟩
    · rw [List.eq_nil_iff_forall_not_mem]
      intro f hf
      obtain ⟨j, hj, hin⟩ := hmem f hf
      have := verdict_ok.mp ((h.err j hj).symm.trans (hok j hj))
      rw [this] at hin
      cases hin
    · rw [h.err j hj, hnil]
      rfl
  · rw [mergeErr_eio, verdict_eio]
    constructor
    · rintro ⟨j, hj, he⟩
      obtain ⟨f, hf, heio⟩ := verdict_eio.mp ((h.err j hj).symm.trans he)
      exact ⟨f, List.mem_of_mem_filter hf, heio⟩
    · rintro ⟨f, hf, heio⟩
      obtain ⟨j, hj, hin⟩ := hmem f hf
      exact ⟨j, hj, (h.err j hj).trans (verdict_eio.mpr ⟨f, hin, heio⟩)⟩
  · exact mergeErr_ne_einval fun j hj => by rw [h.err j hj]; exact verdict_ne_einval _

theorem seens_eq_nil (h : ∀ j < n, (m.ops j).cmd = .write) : seens cfg md m n = [] := by
  have : (List.range n).filter (fun j => decide (m.ops j).Got) = [] := by
    rw [List.filter_eq_nil_iff]
    intro j hj
    simp [BlkOp.Got, h j (List.mem_range.mp hj)]
  rw [seens, this, List.map_nil]

/-- How storing ends. -/
structure Put (cfg : Config) (md : Mode) (w : ℕ) (x : Local) (req : ℕ) (ps : List Piece) (err : Err)
    (x' : Local) (fs : List Fault) (sub : List Piece) : Prop where
  did : Did w x (sub.map (Piece.wrote cfg md req)) fs x'
  stored : StoredAs cfg md req ps sub err fs

theorem Put.nil (x : Local) (req : ℕ) : Put cfg md w x req [] .ok x [] [] := ⟨.refl, .nil⟩

theorem Put.append {req : ℕ} {ps ps' sub sub' : List Piece} {err err' : Err} {x'' : Local}
    {fs fs' : List Fault} (h : Put cfg md w x req ps err x' fs sub)
    (h' : Put cfg md w x' req ps' err' x'' fs' sub')
    (hd : ∀ p ∈ ps, ∀ q ∈ ps', Piece.blk p ≠ Piece.blk q) :
    Put cfg md w x req (ps ++ ps') (err.merge err') x'' (fs' ++ fs) (sub ++ sub') := by
  refine ⟨?_, h.stored.append h'.stored hd⟩
  rw [List.map_append]
  exact h.did.trans h'.did

/-- A window of WRITEs of consecutive blocks. -/
theorem BlocksDone.stored {blk : ℕ} {src : Ptr}
    (hP : P = ⟨fun j => (m.setOps 0 n blk .write src 0).page
      ((m.setOps 0 n blk .write src 0).ops j).page, fun _ => True, fun _ => False⟩)
    (h : BlocksDone cfg md w n P x (m.setOps 0 n blk .write src 0) x' m') :
    m'.buf = m.buf ∧ m'.reqs = m.reqs ∧ ∃ fs sub, Put cfg md w x 0
      (chop (blk * 4096) (m.read src (n * 4096))) (m'.mergeErr n .ok) x' fs sub := by
  have hops : ∀ j < n, (m'.ops j).cmd = .write ∧ (m'.ops j).blk = blk + j ∧
      (m'.ops j).req = 0 := by
    intro j hj
    have ha := h.evolves.ops j
    rw [setOps_ops hj] at ha
    exact ⟨ha.cmd, ha.blk, ha.req⟩
  have hwo : WriteOps m' P 0 n 0 blk (m.buf src.buf) src.off := by
    refine ⟨fun j hj => ?_, fun j hj => ?_, fun j hj => ?_, fun j hj => ?_⟩
    · rw [Nat.zero_add]
      exact (hops j hj).1
    · rw [Nat.zero_add]
      exact (hops j hj).2.2
    · rw [Nat.zero_add]
      exact (hops j hj).2.1
    · rw [hP]
      simp only [Nat.zero_add]
      rw [setOps_ops hj, Mem.page, Page.read_bytes]
      rfl
  obtain ⟨fs, hfs, hbl⟩ := h.faults
  refine ⟨?_, h.evolves.reqs, fs, pubPieces m' P 0 n, ⟨?_, h.net, h.start, hfs⟩, ?_⟩
  · funext b a
    refine h.evolves.buf b a fun i hi hc => ?_
    rw [setOps_ops hi] at hc
    cases hc
  · obtain ⟨new, hlog, hlin⟩ := h.script
    rw [seens_eq_nil fun j hj => (hops j hj).1] at hlin
    refine ⟨new, hlog, ?_⟩
    have heq : pubs cfg md m' P n = (pubPieces m' P 0 n).map (Piece.wrote cfg md 0) := by
      simp only [pubs, pubPieces, List.map_map, Nat.zero_add]
      refine List.map_congr_left fun j hj => ?_
      rw [(hops j (List.mem_range.mp (List.mem_of_mem_filter hj))).2.2]
      rfl
    rw [← heq]
    exact hlin.sees_nil
  · have hf0 : faultsFor 0 fs = fs := by
      rw [faultsFor, List.filter_eq_self]
      intro g hg
      obtain ⟨j, hj, ht⟩ := hbl.tags g hg
      rw [ht, BlkOp.tag, (hops j hj).2.2]
      rfl
    have hst := @WriteOps.storedAs cfg md _ _ _ _ _ _ _ _ _ hwo _ hbl (by omega) (fun j hj _ => by omega)
      (fun j hj => ?_) fun _ j hj => ?_
    · rwa [hf0, ← hbl.mergeErr] at hst
    · rw [Nat.zero_add]
      exact h.write j hj (hops j hj).1
    · rw [hP]
      exact id

/-- Pieces on different sides of a block boundary are in different blocks. -/
theorem chop_apart {off' : ℕ} (h : off + l.length ≤ off') (hd : 4096 ∣ off') :
    ∀ p ∈ chop off l, ∀ q ∈ chop off' l', Piece.blk p ≠ Piece.blk q := by
  intro p hp q hq
  have h1 := (blk_of_mem_chop hp).2.2
  have h2 := (blk_of_mem_chop hq).2.1
  omega

theorem storeLoop_spec {fuel blk nb : ℕ} {src : Ptr} {err : Err} {ps sub : List Piece}
    {fs : List Fault} (hi : Inv cfg md s) (hx : Loc cfg w x s) (hr : x.Rest md)
    (hb : blk + nb ≤ cfg.nblocks) (hin : src.off + nb * 4096 ≤ cfg.bufSize src.buf)
    (hf : nb ≤ fuel) (hp : Put cfg md w x₀ 0 ps err x fs sub)
    (hps : ∀ p ∈ ps, Piece.blk p < blk) :
    wp (contract cfg md) w (storeLoop cfg fuel blk src nb err m) (fun r s' => ∃ x' fs' sub',
      Loc cfg w x' s' ∧ x'.Rest md ∧ r.2.buf = m.buf ∧ r.2.reqs = m.reqs ∧
      Put cfg md w x₀ 0 (ps ++ chop (blk * 4096) (m.read src (nb * 4096))) r.1 x' fs' sub') s := by
  induction fuel generalizing x m s blk nb src err ps fs sub with
  | zero =>
      have hz : nb = 0 := by omega
      subst hz
      refine ⟨x, fs, sub, hx, hr, rfl, rfl, ?_⟩
      simpa [Mem.read] using hp
  | succ fuel ih =>
      unfold storeLoop
      by_cases hz : nb = 0
      · subst hz
        rw [if_pos rfl]
        refine ⟨x, fs, sub, hx, hr, rfl, rfl, ?_⟩
        simpa [Mem.read] using hp
      rw [if_neg hz]
      have hwin : 0 < cfg.window nb ∧ cfg.window nb ≤ nb ∧ cfg.window nb ≤ cfg.maxops := window_spec hz
      obtain ⟨hpos, hle, hmax⟩ := hwin
      obtain ⟨rest, hrest⟩ := Nat.exists_eq_add_of_le hle
      dsimp only
      generalize cfg.window nb = k at hpos hle hmax hrest ⊢
      subst hrest
      have hk : src.off + k * 4096 ≤ cfg.bufSize src.buf :=
        (Nat.add_le_add_left (Nat.mul_le_mul_right _ hle) _).trans hin
      refine wp_seq hi (blkopSets_spec hi hx (by rwa [Nat.zero_add]) hk) fun _ s hi h => ?_
      obtain ⟨rfl, hx⟩ := h
      have hg : Going cfg md w k x (m.setOps 0 k blk .write src 0) x (m.setOps 0 k blk .write src 0) :=
        setOps_going hr (.inr rfl) (by omega) hmax
      refine wp_seq hi (wrPrepare_phase (P := ⟨fun j => (m.setOps 0 k blk .write src 0).page
        ((m.setOps 0 k blk .write src 0).ops j).page, fun _ => True, fun _ => False⟩) hi hx hg hg.ops
        (fun j hj => by rw [setOps_ops hj]; rfl) (fun _ _ => rfl) (fun _ _ => trivial) (fun _ _ => id)
        fun j hj => setOps_unprepared hr hj) fun m₁ s₁ hi₁ h₁ => ?_
      obtain ⟨x₁, hx₁, hg₁, ho₁⟩ := h₁
      refine wp_seq hi₁ (doBlocks_spec hi₁ hx₁ hg₁ ho₁) fun m₂ s₂ hi₂ h₂ => ?_
      obtain ⟨x₂, hx₂, hd₂⟩ := h₂
      obtain ⟨hbuf, hreqs, fs₂, sub₂, hput⟩ := hd₂.stored rfl
      rw [Nat.add_sub_cancel_left, mergeErr_eq]
      have hread : m₂.read = m.read := by
        funext p n
        rw [Mem.read, Mem.read, hbuf]
      have happ := hp.append hput fun p hmem q hq => by
        have h1 := hps p hmem
        have h2 := (blk_of_mem_chop hq).2.1
        omega
      refine wp_mono hi₂ (ih hi₂ hx₂ hd₂.rest (by omega) (by simp only [Ptr.add]; omega) (by omega)
        happ fun p hmem => ?_)
        fun r s₃ _ h₃ => ?_
      · rcases List.mem_append.mp hmem with hmem | hmem
        · have := hps p hmem
          omega
        · have := (blk_of_mem_chop hmem).2.2
          rw [Mem.read_length] at this
          omega
      · obtain ⟨x₃, fs₃, sub₃, hx₃, hr₃, hb₃, hq₃, hput₃⟩ := h₃
        refine ⟨x₃, fs₃, sub₃, hx₃, hr₃, hb₃.trans hbuf, hq₃.trans hreqs, ?_⟩
        rw [hread, List.append_assoc] at hput₃
        have hsplit : chop (blk * 4096) (m.read src ((k + rest) * 4096)) =
            chop (blk * 4096) (m.read src (k * 4096)) ++
              chop ((blk + k) * 4096) (m.read (src.add (k * 4096)) (rest * 4096)) := by
          rw [Nat.add_mul k, Mem.read, slice_add, chop_append (by rw [slice_length]; omega),
            slice_length, ← Nat.add_mul]
          rfl
        rwa [hsplit]

theorem storeBlocks_spec {blk nb : ℕ} {src : Ptr} (hi : Inv cfg md s) (hx : Loc cfg w x s)
    (hr : x.Rest md) (hb : blk + nb ≤ cfg.nblocks)
    (hin : src.off + nb * 4096 ≤ cfg.bufSize src.buf) :
    wp (contract cfg md) w (storeBlocks cfg blk src nb m) (fun r s' => ∃ x' fs sub,
      Loc cfg w x' s' ∧ x'.Rest md ∧ r.2.buf = m.buf ∧ r.2.reqs = m.reqs ∧
      Put cfg md w x 0 (chop (blk * 4096) (m.read src (nb * 4096))) r.1 x' fs sub) s := by
  unfold storeBlocks
  exact storeLoop_spec hi hx hr hb hin le_rfl (Put.nil x 0) (by simp)

/-! ## `store_range` -/

/-- Every buffer but `scratch` is as it was. -/
structure Mem.Spared (m m' : Mem) : Prop where
  reqs : m'.reqs = m.reqs
  buf : ∀ b, b ≠ Buf.scratch → m'.buf b = m.buf b

namespace Mem.Spared

theorem refl : m.Spared m := ⟨rfl, fun _ _ => rfl⟩

theorem trans {m'' : Mem} (h : m.Spared m') (h' : m'.Spared m'') : m.Spared m'' :=
  ⟨h'.reqs.trans h.reqs, fun b hb => (h'.buf b hb).trans (h.buf b hb)⟩

theorem read (h : m.Spared m') {p : Ptr} (hp : p.buf ≠ .scratch) : m'.read p n = m.read p n := by
  rw [Mem.read, Mem.read, h.buf _ hp]

end Mem.Spared

/-- A part of one block. -/
theorem rmwPart_spec {b boff cnt : ℕ} {src : Ptr} (hi : Inv cfg md s) (hx : Loc cfg w x s)
    (hr : x.Rest md) (hb : b < cfg.nblocks) (hpos : 0 < cnt) (hcnt : boff + cnt ≤ 4096)
    (hsrc : src.buf ≠ .scratch) (hin : src.off + cnt ≤ cfg.bufSize src.buf) :
    wp (contract cfg md) w (rmwBlock cfg b boff src cnt m) (fun r s' => ∃ x' fs sub,
      Loc cfg w x' s' ∧ x'.Rest md ∧ m.Spared r.2 ∧
      Put cfg md w x 0 (chop (b * 4096 + boff) (m.read src cnt)) r.1 x' fs sub) s := by
  refine wp_mono hi (rmwBlock_spec hi hx hr hb (by omega) hcnt hsrc hin) fun r s' _ h => ?_
  obtain ⟨x', sub, fs, h1, h2, h3, h4, h5⟩ := h
  refine ⟨x', fs, sub, h1, h2, ⟨h3.reqs, h3.buf⟩, h4, ?_⟩
  rw [chop_single]
  · exact h5
  · rw [← List.length_pos_iff_ne_nil, Mem.read_length]
    exact hpos
  · rw [Mem.read_length]
    omega

theorem storeHead_spec {off n : ℕ} {src : Ptr} (hi : Inv cfg md s) (hx : Loc cfg w x s)
    (hr : x.Rest md) (hb : off + n ≤ cfg.diskSize) (hn : 0 < n) (hsrc : src.buf ≠ .scratch)
    (hin : src.off + n ≤ cfg.bufSize src.buf) :
    wp (contract cfg md) w (storeHead cfg off src n m) (fun r s' => ∃ x' fs sub, Loc cfg w x' s' ∧
      x'.Rest md ∧ m.Spared r.2 ∧
      Put cfg md w x 0 (chop off (m.read src (headLen off n))) r.1 x' fs sub) s := by
  have hnb := Nat.div_mul_cancel cfg.disk_blocks
  unfold storeHead
  by_cases hz : off % 4096 = 0
  · rw [if_pos hz, headLen, if_pos hz]
    refine ⟨x, [], [], hx, hr, .refl, ?_⟩
    simpa [Mem.read] using Put.nil x 0
  · rw [if_neg hz]
    have hblk : off / 4096 < cfg.nblocks := by
      unfold Config.nblocks
      omega
    have hcnt : 0 < headLen off n ∧ off % 4096 + headLen off n ≤ 4096 ∧ headLen off n ≤ n := by
      rw [headLen_of_ne hz]
      omega
    refine wp_mono hi (rmwPart_spec hi hx hr hblk hcnt.1 hcnt.2.1 hsrc (by omega)) fun r s' _ h => ?_
    rwa [Nat.div_add_mod'] at h

theorem storeBody_spec {off n : ℕ} {src : Ptr} (hi : Inv cfg md s) (hx : Loc cfg w x s)
    (hr : x.Rest md) (hb : off + n ≤ cfg.diskSize) (hoff : n = 0 ∨ 4096 ∣ off)
    (hin : src.off + n ≤ cfg.bufSize src.buf) :
    wp (contract cfg md) w (storeBody cfg off src n m) (fun r s' => ∃ x' fs sub, Loc cfg w x' s' ∧
      x'.Rest md ∧ m.Spared r.2 ∧
      Put cfg md w x 0 (chop off (m.read src (n / 4096 * 4096))) r.1 x' fs sub) s := by
  have hnb := Nat.div_mul_cancel cfg.disk_blocks
  unfold storeBody
  by_cases hle : 4096 ≤ n
  · rw [if_pos hle]
    have hblk : off / 4096 + n / 4096 ≤ cfg.nblocks := by
      unfold Config.nblocks
      omega
    refine wp_seq hi (access_spec hi hx (Nat.div_mul_le_self n 4096)) fun _ s hi hx => ?_
    refine wp_mono hi (storeBlocks_spec hi hx hr hblk (by omega)) fun r s₁ _ h => ?_
    rw [Nat.div_mul_cancel (show 4096 ∣ off by omega)] at h
    obtain ⟨x', fs, sub, h1, h2, h3, h4, h5⟩ := h
    exact ⟨x', fs, sub, h1, h2, ⟨h4, fun b _ => by rw [h3]⟩, h5⟩
  · rw [if_neg hle, show n / 4096 = 0 from by omega]
    refine ⟨x, [], [], hx, hr, .refl, ?_⟩
    simpa [Mem.read] using Put.nil x 0

/-- **`store_range`.** -/
theorem storeRange_spec {off n : ℕ} {src : Ptr} (hi : Inv cfg md s) (hx : Loc cfg w x s)
    (hr : x.Rest md) (hb : off + n ≤ cfg.diskSize) (hn : 0 < n) (hsrc : src.buf ≠ .scratch)
    (hin : src.off + n ≤ cfg.bufSize src.buf) :
    wp (contract cfg md) w (storeRange cfg off src n m) (fun r s' => ∃ x' fs sub,
      Loc cfg w x' s' ∧ x'.Rest md ∧ m.Spared r.2 ∧
      Put cfg md w x 0 (chop off (m.read src n)) r.1 x' fs sub) s := by
  have hnb := Nat.div_mul_cancel cfg.disk_blocks
  unfold storeRange
  refine wp_seq hi (storeHead_spec hi hx hr hb hn hsrc hin) fun r s₁ hi₁ h => ?_
  obtain ⟨x₁, fs₁, sub₁, hx₁, hr₁, hm₁, hp₁⟩ := h
  obtain ⟨hle, hal⟩ := headLen_spec off n
  refine wp_seq hi₁ (access_spec hi₁ hx₁ hle) fun _ s₁ hi₁ hx₁ => ?_
  dsimp only
  generalize headLen off n = cnt at hle hal hp₁ ⊢
  obtain ⟨k, rfl⟩ := Nat.exists_eq_add_of_le hle
  rw [Nat.add_sub_cancel_left]
  refine wp_seq hi₁ (storeBody_spec hi₁ hx₁ hr₁ (by omega) (by omega)
    (by simp only [Ptr.add]; omega)) fun r₂ s₂ hi₂ h => ?_
  obtain ⟨x₂, fs₂, sub₂, hx₂, hr₂, hm₂, hp₂⟩ := h
  rw [hm₁.read (p := src.add cnt) hsrc] at hp₂
  -- head and whole blocks together
  have hp : Put cfg md w x 0 (chop off (m.read src (cnt + k / 4096 * 4096))) (r.1.merge r₂.1) x₂
      (fs₂ ++ fs₁) (sub₁ ++ sub₂) := by
    have happ : m.read src (cnt + k / 4096 * 4096) =
        m.read src cnt ++ m.read (src.add cnt) (k / 4096 * 4096) := slice_add
    rw [happ]
    rcases hal with hal | hal
    · rw [show k = 0 from by omega] at hp₂ ⊢
      simpa [Mem.read] using hp₁.append hp₂ (by simp [Mem.read])
    · rw [chop_append (by rwa [Mem.read_length]), Mem.read_length]
      exact hp₁.append hp₂ (chop_apart (by rw [Mem.read_length]) hal)
  by_cases hz : k % 4096 = 0
  · rw [if_pos hz]
    rw [show cnt + k / 4096 * 4096 = cnt + k from by omega] at hp
    exact ⟨x₂, _, _, hx₂, hr₂, hm₁.trans hm₂, hp⟩
  rw [if_neg hz]
  have hoff : 4096 ∣ off + cnt := hal.resolve_left (by omega)
  have hblk : (off + cnt + k / 4096 * 4096) / 4096 < cfg.nblocks := by
    unfold Config.nblocks
    omega
  refine wp_seq hi₂ (rmwPart_spec hi₂ hx₂ hr₂ hblk (by omega) (by omega) hsrc
    (by simp only [Ptr.add]; omega)) fun r₃ s₃ _ h => ?_
  obtain ⟨x₃, fs₃, sub₃, hx₃, hr₃, hm₃, hp₃⟩ := h
  rw [Nat.add_zero, Nat.div_mul_cancel (by omega), (hm₁.trans hm₂).read (p := (src.add cnt).add _) hsrc]
    at hp₃
  have hsplit : chop off (m.read src (cnt + k)) = chop off (m.read src (cnt + k / 4096 * 4096)) ++
      chop (off + cnt + k / 4096 * 4096) (m.read ((src.add cnt).add (k / 4096 * 4096)) (k % 4096)) := by
    have happ : m.read src (cnt + k) = m.read src (cnt + k / 4096 * 4096) ++
        m.read (src.add (cnt + k / 4096 * 4096)) (k % 4096) := by
      rw [show cnt + k = cnt + k / 4096 * 4096 + k % 4096 from by omega]
      exact slice_add
    rw [happ, chop_append (by rw [Mem.read_length]; omega), Mem.read_length, Nat.add_assoc]
    simp only [Ptr.add, Nat.add_assoc]
  have hfinal := hp.append hp₃ (chop_apart (by rw [Mem.read_length]; omega) (by omega))
  rw [← hsplit] at hfinal
  exact ⟨x₃, _, _, hx₃, hr₃, (hm₁.trans hm₂).trans hm₃, hfinal⟩

end NbdVram
