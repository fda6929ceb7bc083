import NbdVram.BlockSpec

/-!
# Sets of block ops

`do_blocks` and the loops around it treat a set of block ops in phases, each of
which visits every op once. What is known of an op is a predicate of that op, its
staging slot and its reservation; `Touch` says what visiting one op leaves alone,
and `wp_each` turns the specification of one visit into that of a whole phase.
-/

namespace NbdVram

open Interleave Span MutationLog

variable {cfg : Config} {md : Mode} {s s' : State} {w n i j : ℕ} {x x' x₀ : Local} {m m' m₀ : Mem}

/-! ## The static part of an op set -/

/-- Address `a` of buffer `b` belongs to the page at `p`. -/
def Ptr.Covers (p : Ptr) (b : Buf) (a : ℕ) : Prop := p.buf = b ∧ p.off ≤ a ∧ a < p.off + 4096

/-- Two pages that share no byte. -/
def Ptr.Apart (p q : Ptr) : Prop := p.buf ≠ q.buf ∨ p.off + 4096 ≤ q.off ∨ q.off + 4096 ≤ p.off

/-- The fields that stay as `blkop_set` has made them. -/
structure BlkOp.Alike (bo bo' : BlkOp) : Prop where
  blk : bo'.blk = bo.blk
  cmd : bo'.cmd = bo.cmd
  req : bo'.req = bo.req
  page : bo'.page = bo.page
  cslot : bo'.cslot = bo.cslot

theorem BlkOp.Alike.refl (bo : BlkOp) : bo.Alike bo := ⟨rfl, rfl, rfl, rfl, rfl⟩

theorem BlkOp.Alike.trans {bo bo' bo'' : BlkOp} (h : bo.Alike bo') (h' : bo'.Alike bo'') :
    bo.Alike bo'' :=
  ⟨h'.blk.trans h.blk, h'.cmd.trans h.cmd, h'.req.trans h.req, h'.page.trans h.page,
    h'.cslot.trans h.cslot⟩

/-- A well-formed set of `n` ops: op `i` uses slot `i`, pages do not overlap, and no request
has two ops for one block. -/
structure OpsOk (cfg : Config) (n : ℕ) (m : Mem) : Prop where
  max : n ≤ cfg.maxops
  cslot : ∀ i < n, (m.ops i).cslot = i
  blk : ∀ i < n, (m.ops i).blk < cfg.nblocks
  cmd : ∀ i < n, (m.ops i).cmd = .read ∨ (m.ops i).cmd = .write
  page : ∀ i < n, ∀ j < n, i ≠ j → (m.ops i).page.Apart (m.ops j).page
  tag : ∀ i < n, ∀ j < n, i ≠ j → (m.ops i).req = (m.ops j).req → (m.ops i).blk ≠ (m.ops j).blk

/-- What may have become of the memory while the first `n` ops were worked on: errors stay, and
only the pages of READs are written. -/
structure Evolves (n : ℕ) (m m' : Mem) : Prop where
  ops : ∀ i, (m.ops i).Alike (m'.ops i)
  reqs : m'.reqs = m.reqs
  err : ∀ i, (m.ops i).err ≠ .ok → (m'.ops i).err = (m.ops i).err
  buf : ∀ b a, (∀ i < n, (m.ops i).cmd = .read → ¬ (m.ops i).page.Covers b a) →
    m'.buf b a = m.buf b a

theorem Evolves.refl : Evolves n m m :=
  ⟨fun _ => .refl _, rfl, fun _ _ => rfl, fun _ _ _ => rfl⟩

theorem Evolves.trans {m'' : Mem} (h : Evolves n m m') (h' : Evolves n m' m'') :
    Evolves n m m'' := by
  refine ⟨fun i => (h.ops i).trans (h'.ops i), h'.reqs.trans h.reqs, fun i he => ?_,
    fun b a hb => ?_⟩
  · have h1 := h.err i he
    rw [h'.err i (by rwa [h1]), h1]
  · rw [h'.buf b a fun i hi hc => ?_, h.buf b a hb]
    rw [(h.ops i).page]
    exact hb i hi (by rwa [← (h.ops i).cmd])

theorem OpsOk.evolves (h : OpsOk cfg n m) (he : Evolves n m m') : OpsOk cfg n m' := by
  refine ⟨h.max, fun i hi => ?_, fun i hi => ?_, fun i hi => ?_, fun i hi j hj hij => ?_,
    fun i hi j hj hij hr => ?_⟩
  · rw [(he.ops i).cslot, h.cslot i hi]
  · rw [(he.ops i).blk]
    exact h.blk i hi
  · rw [(he.ops i).cmd]
    exact h.cmd i hi
  · rw [(he.ops i).page, (he.ops j).page]
    exact h.page i hi j hj hij
  · rw [(he.ops i).blk, (he.ops j).blk]
    rw [(he.ops i).req, (he.ops j).req] at hr
    exact h.tag i hi j hj hij hr

/-- The pages of WRITEs stay. -/
theorem Evolves.page (h : Evolves n m m') (ho : OpsOk cfg n m) (hj : j < n)
    (hc : (m.ops j).cmd = .write) : m'.page (m'.ops j).page = m.page (m.ops j).page := by
  rw [(h.ops j).page]
  simp only [Mem.page]
  refine Page.read_congr fun k hk => h.buf _ _ fun i hi hci hcov => ?_
  have hij : i ≠ j := by
    rintro rfl
    rw [hc] at hci
    cases hci
  obtain ⟨h1, h2, h3⟩ := hcov
  rcases ho.page i hi j hj hij with hb | hb
  · exact hb h1
  · omega

/-! ## Visiting one op -/

/-- Visiting op `i` leaves alone what is known of the others. -/
structure Touch (i : ℕ) (x : Local) (m : Mem) (x' : Local) (m' : Mem) : Prop where
  ops : ∀ j, j ≠ i → m'.ops j = m.ops j
  alike : (m.ops i).Alike (m'.ops i)
  err : (m.ops i).err ≠ .ok → (m'.ops i).err = (m.ops i).err
  reqs : m'.reqs = m.reqs
  slot : ∀ j, j ≠ i → x'.slot (.cslot j) = x.slot (.cslot j) ∨
    (m.ops i).cmd = .write ∧ (x.slot (.cslot j)).target.map Prod.fst = some (m.ops i).grain
  snap : ∀ j, j ≠ i → x'.priv.snap j = x.priv.snap j
  resv : ∀ g, x.resv g ≠ none → ((m.ops i).cmd = .write → g ≠ (m.ops i).grain) →
    x'.resv g = x.resv g
  grain : (m.ops i).cmd = .write → (m'.ops i).grain = (m.ops i).grain ∨
    (m'.ops i).grain = slotNone ∨ x.resv (m'.ops i).grain = none
  log : x.log <+: x'.log
  buf : ∀ b a, ¬ ((m.ops i).cmd = .read ∧ (m.ops i).page.Covers b a) → m'.buf b a = m.buf b a

namespace Mem

variable {bo : BlkOp}

@[simp] theorem setOp_self (m : Mem) (i : ℕ) (bo : BlkOp) : (m.setOp i bo).ops i = bo :=
  Function.update_self ..

theorem setOp_of_ne (m : Mem) (bo : BlkOp) (h : j ≠ i) : (m.setOp i bo).ops j = m.ops j :=
  Function.update_of_ne h _ _

@[simp] theorem setOp_buf (m : Mem) (i : ℕ) (bo : BlkOp) : (m.setOp i bo).buf = m.buf := rfl

@[simp] theorem setOp_reqs (m : Mem) (i : ℕ) (bo : BlkOp) : (m.setOp i bo).reqs = m.reqs := rfl

@[simp] theorem setOp_page (m : Mem) (i : ℕ) (bo : BlkOp) (p : Ptr) :
    (m.setOp i bo).page p = m.page p := rfl

end Mem

/-- A visit that leaves the slots, snapshots and reservations of the other ops alone. -/
theorem Touch.setOp {bo : BlkOp} (ha : (m.ops i).Alike bo)
    (he : (m.ops i).err ≠ .ok → bo.err = (m.ops i).err)
    (hslot : ∀ j, j ≠ i → x'.slot (.cslot j) = x.slot (.cslot j))
    (hsnap : ∀ j, j ≠ i → x'.priv.snap j = x.priv.snap j)
    (hresv : ∀ g, x.resv g ≠ none → ((m.ops i).cmd = .write → g ≠ (m.ops i).grain) →
      x'.resv g = x.resv g)
    (hgrain : (m.ops i).cmd = .write →
      bo.grain = (m.ops i).grain ∨ bo.grain = slotNone ∨ x.resv bo.grain = none)
    (hlog : x.log <+: x'.log) : Touch i x m x' (m.setOp i bo) where
  ops j hj := Mem.setOp_of_ne m bo hj
  alike := by rw [Mem.setOp_self]; exact ha
  err h := by rw [Mem.setOp_self]; exact he h
  reqs := rfl
  slot j hj := .inl (hslot j hj)
  snap := hsnap
  resv := hresv
  grain hc := by rw [Mem.setOp_self]; exact hgrain hc
  log := hlog
  buf _ _ _ := rfl

/-- Leaving the op and all of the memory as they are. -/
theorem Touch.same (hslot : ∀ j, j ≠ i → x'.slot (.cslot j) = x.slot (.cslot j))
    (hsnap : ∀ j, j ≠ i → x'.priv.snap j = x.priv.snap j) (hresv : x'.resv = x.resv)
    (hlog : x.log <+: x'.log) : Touch i x m x' m :=
  ⟨fun _ _ => rfl, .refl _, fun _ => rfl, rfl, fun j hj => .inl (hslot j hj), hsnap,
    fun _ _ _ => by rw [hresv], fun _ => .inl rfl, hlog, fun _ _ _ => rfl⟩

theorem Touch.evolves (h : Touch i x m x' m') (hi : i < n) : Evolves n m m' := by
  refine ⟨fun j => ?_, h.reqs, fun j hj => ?_, fun b a hb => h.buf b a fun hc => hb i hi hc.1 hc.2⟩
  · by_cases hij : j = i
    · rw [hij]
      exact h.alike
    · rw [h.ops j hij]
      exact .refl _
  · by_cases hij : j = i
    · rw [hij] at hj ⊢
      exact h.err hj
    · rw [h.ops j hij]

/-- The page of another op stays. -/
theorem Touch.page (h : Touch i x m x' m') (ho : OpsOk cfg n m) (hi : i < n) (hj : j < n)
    (hij : j ≠ i) : m'.page (m.ops j).page = m.page (m.ops j).page := by
  simp only [Mem.page]
  refine Page.read_congr fun k hk => h.buf _ _ fun hc => ?_
  have hap := ho.page j hj i hi hij
  unfold Ptr.Apart at hap
  obtain ⟨-, h1, h2, h3⟩ := hc
  rcases hap with hb | hb
  · exact hb h1.symm
  · omega

/-- A predicate of op `j` that visits to other ops keep. -/
def Framed (cfg : Config) (n : ℕ) (A : ℕ → Local → Mem → Prop) : Prop :=
  ∀ i j x m x' m', i < n → j < n → j ≠ i → OpsOk cfg n m → Touch i x m x' m' → A j x m → A j x' m'

/-- **One phase over an op set.** Each visit takes its op from `A` to `B`; `J` is what holds
between visits. -/
theorem wp_each {β : Type} {body : ℕ → β → Prog sig β} (mem : β → Mem)
    (J : ℕ → Local → β → Prop) {A B : ℕ → Local → Mem → Prop} (hA : Framed cfg n A)
    (hB : Framed cfg n B) (hJ : ∀ k x y, J k x y → OpsOk cfg n (mem y))
    (hb : ∀ i x y s, i < n → Inv cfg md s → Loc cfg w x s → J i x y → A i x (mem y) →
      wp (contract cfg md) w (body i y) (fun y' s' => ∃ x', Loc cfg w x' s' ∧ J (i + 1) x' y' ∧
        B i x' (mem y') ∧ Touch i x (mem y) x' (mem y')) s)
    {y : β} (hi : Inv cfg md s) (hx : Loc cfg w x s) (h0 : J 0 x y) (hA0 : ∀ i < n, A i x (mem y)) :
    wp (contract cfg md) w (Prog.forRange n body y) (fun y' s' => ∃ x', Loc cfg w x' s' ∧
      J n x' y' ∧ ∀ i < n, B i x' (mem y')) s := by
  refine wp_mono hi (wp_forRange (C := contract cfg md) (fun i y s => ∃ x, Loc cfg w x s ∧ J i x y ∧
    (∀ j < i, B j x (mem y)) ∧ ∀ j, i ≤ j → j < n → A j x (mem y)) hi
    ⟨x, hx, h0, by simp, fun j _ hj => hA0 j hj⟩ fun i y s hlt hi h => ?_) ?_
  · obtain ⟨x, hx, hj, hB', hA'⟩ := h
    refine wp_mono hi (hb i x y s hlt hi hx hj (hA' i le_rfl hlt)) fun y' s' _ h => ?_
    obtain ⟨x', hx', hj', hBi, ht⟩ := h
    refine ⟨x', hx', hj', fun k hk => ?_, fun k hk hkn => ?_⟩
    · by_cases hki : k = i
      · rw [hki]
        exact hBi
      · exact hB i k x (mem y) x' (mem y') hlt (by omega) hki (hJ i x y hj) ht (hB' k (by omega))
    · exact hA i k x (mem y) x' (mem y') hlt hkn (by omega) (hJ i x y hj) ht
        (hA' k (by omega) hkn)
  · rintro y' s' - ⟨x', hx', hj, hB', -⟩
    exact ⟨x', hx', hj, hB'⟩

/-! ## What is known of an op

A WRITE holds its reservation, with its bytes somewhere between staging and device, or will
not be published. A READ is settled, or has a snapshot and a copy under way. -/

/-- What is to become of the WRITEs of a set: the page of op `j`, whether a slot may have been
refused to it, and whether its request has failed elsewhere, so that the op may be given up. -/
structure Plan where
  page : ℕ → Page
  lost : ℕ → Prop
  spare : ℕ → Prop

/-- A WRITE op that will not be published. -/
inductive Unheld (md : Mode) (lost spare : Prop) (bo : BlkOp) : Prop
  | refused : bo.err = .enospc → md.alloc = false → lost → Unheld md lost spare bo
  | rejected : bo.err = .eio → md.launch = false → md.batch = false → Unheld md lost spare bo
  | given : bo.err = .ok → bo.grain = slotNone → bo.dma = .none → spare → Unheld md lost spare bo

/-- WRITE op `j` holds a reservation for the stored form `bs` of its page. -/
structure Held (cfg : Config) (n : ℕ) (P : Plan) (j : ℕ) (x : Local) (m : Mem) (bs : List UInt8) :
    Prop where
  kept : ¬ P.spare j
  err : (m.ops j).err = .ok
  grain : (m.ops j).grain ≠ slotNone
  dma : (m.ops j).dma = .queued
  comp : bs = cfg.codec.compBlock (P.page j)
  clen : (m.ops j).clen = bs.length
  resv : ∃ sz, x.resv (m.ops j).grain = some sz ∧ bs.length ≤ sz
  apart : ∀ k < n, k ≠ j → (m.ops k).cmd = .write → (m.ops k).grain ≠ (m.ops j).grain

/-- `st` tells the state of the staging slot from the grain and the bytes. -/
def WrIs (cfg : Config) (md : Mode) (n : ℕ) (P : Plan) (st : ℕ → List UInt8 → SlotSt → Prop)
    (j : ℕ) (x : Local) (m : Mem) : Prop :=
  Unheld md (P.lost j) (P.spare j) (m.ops j) ∧ (x.slot (.cslot j)).Quiet ∨
  ∃ bs, Held cfg n P j x m bs ∧ st (m.ops j).grain bs (x.slot (.cslot j))

/-- The snapshot of READ op `j`, taken when the log had at least length `L`. -/
structure Snapped (cfg : Config) (L j : ℕ) (x : Local) (m : Mem) : Prop where
  base : L ≤ x.priv.snap j
  le : x.priv.snap j ≤ x.log.length
  entry : Entry cfg (x.log.take (x.priv.snap j)) (m.ops j).blk (m.ops j).ent
  clen : (m.ops j).clen = entClen (m.ops j).ent
  grain : (m.ops j).grain = entGrain (m.ops j).ent

/-- The page of op `j` is what its block held at some instant since its snapshot. -/
def Seen (L j : ℕ) (x : Local) (m : Mem) : Prop :=
  ∃ t, L ≤ t ∧ x.priv.snap j ≤ t ∧ t ≤ x.log.length ∧
    m.page (m.ops j).page = pageOf (disk (x.log.take t)) (m.ops j).blk

/-- A READ op that has failed or is done. -/
def Settled (cfg : Config) (md : Mode) (L j : ℕ) (x : Local) (m : Mem) : Prop :=
  (m.ops j).err = .eio ∧ (md.Reads cfg → md.launch = false) ∨
  (m.ops j).err = .ok ∧ (m.ops j).dma = .done ∧ (md.Reads cfg → Seen L j x m)

/-- A READ op that is not settled: `R` tells its state from the op, the time of its snapshot
and its staging slot. -/
structure RdOpen (cfg : Config) (L : ℕ) (R : BlkOp → ℕ → SlotSt → Prop) (j : ℕ) (x : Local)
    (m : Mem) : Prop where
  err : (m.ops j).err = .ok
  dma : (m.ops j).dma ≠ .done
  snapped : Snapped cfg L j x m
  slot : R (m.ops j) (x.priv.snap j) (x.slot (.cslot j))

def RdIs (cfg : Config) (md : Mode) (L : ℕ) (R : BlkOp → ℕ → SlotSt → Prop) (j : ℕ) (x : Local)
    (m : Mem) : Prop :=
  Settled cfg md L j x m ∧ (x.slot (.cslot j)).Quiet ∨ RdOpen cfg L R j x m

/-- An op of either kind. -/
structure OpIs (cfg : Config) (md : Mode) (n : ℕ) (P : Plan) (L : ℕ)
    (st : ℕ → List UInt8 → SlotSt → Prop) (R : BlkOp → ℕ → SlotSt → Prop) (j : ℕ) (x : Local)
    (m : Mem) : Prop where
  read : (m.ops j).cmd = .read → RdIs cfg md L R j x m
  write : (m.ops j).cmd = .write → WrIs cfg md n P st j x m

variable {P : Plan} {L : ℕ} {st : ℕ → List UInt8 → SlotSt → Prop}
  {R : BlkOp → ℕ → SlotSt → Prop}

theorem Held.touch {bs : List UInt8} (h : Held cfg n P j x m bs)
    (ht : Touch i x m x' m') (hi : i < n) (hij : j ≠ i) : Held cfg n P j x' m' bs := by
  have hne : (m.ops i).cmd = .write → (m.ops j).grain ≠ (m.ops i).grain :=
    fun hc => (h.apart i hi hij.symm hc).symm
  obtain ⟨sz, hsz, hle⟩ := h.resv
  refine ⟨h.kept, ?_, ?_, ?_, h.comp, ?_, ⟨sz, ?_, hle⟩, fun k hk hkj hc => ?_⟩
  · rw [ht.ops j hij, h.err]
  · rw [ht.ops j hij]
    exact h.grain
  · rw [ht.ops j hij, h.dma]
  · rw [ht.ops j hij, h.clen]
  · rw [ht.ops j hij, ht.resv _ (by simp [hsz]) hne, hsz]
  · rw [ht.ops j hij]
    by_cases hki : k = i
    · subst hki
      rw [ht.alike.cmd] at hc
      rcases ht.grain hc with hg | hg | hg
      · rw [hg]
        exact h.apart k hk hkj hc
      · rw [hg]
        exact h.grain.symm
      · intro heq
        rw [heq, hsz] at hg
        cases hg
    · rw [ht.ops k hki] at hc ⊢
      exact h.apart k hk hkj hc

/-- A slot that is not a copy to the grain of the visited op stays. -/
theorem Touch.slot_eq (ht : Touch i x m x' m') (hij : j ≠ i)
    (h : (m.ops i).cmd = .write → ∀ q, (x.slot (.cslot j)).target = some q →
      q.1 ≠ (m.ops i).grain) : x'.slot (.cslot j) = x.slot (.cslot j) := by
  rcases ht.slot j hij with h' | ⟨hc, h'⟩
  · exact h'
  · obtain ⟨q, hq, hg⟩ := Option.map_eq_some_iff.mp h'
    exact absurd hg (h hc q hq)

theorem framed_write (hst : ∀ g bs sl q, st g bs sl → sl.target = some q → q.1 = g) :
    Framed cfg n fun j x m => (m.ops j).cmd = .write → WrIs cfg md n P st j x m := by
  intro i j x m x' m' hi hj hij ho ht h hc
  rw [ht.ops j hij] at hc
  rcases h hc with ⟨hu, hq⟩ | ⟨bs, hh, hs⟩
  · left
    rw [ht.ops j hij, ht.slot_eq hij fun _ q hq' => by rw [hq.2] at hq'; cases hq']
    exact ⟨hu, hq⟩
  · right
    refine ⟨bs, hh.touch ht hi hij, ?_⟩
    rw [ht.ops j hij, ht.slot_eq hij fun hci q hq' => ?_]
    · exact hs
    · rw [hst _ _ _ q hs hq']
      exact (hh.apart i hi hij.symm hci).symm

theorem take_of_prefix {l l' : List Mut} {t : ℕ} (h : l <+: l') (ht : t ≤ l.length) :
    l'.take t = l.take t := by
  obtain ⟨r, rfl⟩ := h
  exact List.take_append_of_le_length ht

theorem Snapped.touch (h : Snapped cfg L j x m) (ht : Touch i x m x' m') (hij : j ≠ i) :
    Snapped cfg L j x' m' := by
  have hlen := ht.log.length_le
  refine ⟨?_, ?_, ?_, ?_, ?_⟩
  · rw [ht.snap j hij]
    exact h.base
  · rw [ht.snap j hij]
    exact h.le.trans hlen
  · rw [ht.snap j hij, ht.ops j hij, take_of_prefix ht.log h.le]
    exact h.entry
  · rw [ht.ops j hij, h.clen]
  · rw [ht.ops j hij, h.grain]

theorem Seen.touch (h : Seen L j x m) (ht : Touch i x m x' m') (ho : OpsOk cfg n m) (hi : i < n)
    (hj : j < n) (hij : j ≠ i) : Seen L j x' m' := by
  obtain ⟨t, h1, h2, h3, h4⟩ := h
  refine ⟨t, h1, by rwa [ht.snap j hij], h3.trans ht.log.length_le, ?_⟩
  rw [ht.ops j hij, ht.page ho hi hj hij, h4, take_of_prefix ht.log h3]

theorem framed_open (hR : ∀ bo t sl, R bo t sl → sl.target = none) :
    Framed cfg n (RdOpen cfg L R) := by
  intro i j x m x' m' hi hj hij ho ht h
  have hslot : x'.slot (.cslot j) = x.slot (.cslot j) :=
    ht.slot_eq hij fun _ q hq => by rw [hR _ _ _ h.slot] at hq; cases hq
  refine ⟨?_, ?_, h.snapped.touch ht hij, ?_⟩
  · rw [ht.ops j hij, h.err]
  · rw [ht.ops j hij]
    exact h.dma
  · rw [ht.ops j hij, ht.snap j hij, hslot]
    exact h.slot

theorem framed_read (hR : ∀ bo t sl, R bo t sl → sl.target = none) :
    Framed cfg n fun j x m => (m.ops j).cmd = .read → RdIs cfg md L R j x m := by
  intro i j x m x' m' hi hj hij ho ht h hc
  rw [ht.ops j hij] at hc
  rcases h hc with ⟨hs, hq⟩ | hop
  · have hslot : x'.slot (.cslot j) = x.slot (.cslot j) :=
      ht.slot_eq hij fun _ q hq' => by rw [hq.2] at hq'; cases hq'
    refine .inl ⟨?_, by rw [hslot]; exact hq⟩
    rcases hs with h1 | ⟨h1, h2, h3⟩
    · rw [← ht.ops j hij] at h1
      exact .inl h1
    · refine .inr ⟨by rw [ht.ops j hij, h1], by rw [ht.ops j hij, h2], fun hm => ?_⟩
      exact (h3 hm).touch ht ho hi hj hij
  · exact .inr (framed_open hR i j x m x' m' hi hj hij ho ht hop)

/-- **What is known of one op survives visits to the others.** -/
theorem framed_op (hst : ∀ g bs sl q, st g bs sl → sl.target = some q → q.1 = g)
    (hR : ∀ bo t sl, R bo t sl → sl.target = none) :
    Framed cfg n (OpIs cfg md n P L st R) := by
  intro i j x m x' m' hi hj hij ho ht h
  exact ⟨framed_read hR i j x m x' m' hi hj hij ho ht h.read,
    framed_write hst i j x m x' m' hi hj hij ho ht h.write⟩

/-! ## What holds between visits -/

/-- The request and the block of an op. -/
def BlkOp.tag (bo : BlkOp) : Tag := ⟨bo.req, bo.blk⟩

/-- Every fault belongs to an op, and the error of an op is the verdict on its faults. -/
structure Blamed (n : ℕ) (m : Mem) (fs : List Fault) : Prop where
  tags : ∀ f ∈ fs, ∃ j < n, f.tag = (m.ops j).tag
  err : ∀ j < n, (m.ops j).err = verdict (fs.filter fun f => f.tag = (m.ops j).tag)

/-- The faults of one visit: it fails its op for at most one reason. -/
inductive Blames (bo bo' : BlkOp) : List Fault → Prop
  | none : bo'.err = bo.err → Blames bo bo' []
  | one (eio : Bool) : bo.err = .ok → bo'.err = (if eio = true then .eio else .enospc) →
      Blames bo bo' [⟨bo.tag, eio⟩]

theorem Blamed.visit {fs fs' : List Fault} (h : Blamed n m fs) (ho : OpsOk cfg n m) (hi : i < n)
    (ht : Touch i x m x' m') (hb : Blames (m.ops i) (m'.ops i) fs') : Blamed n m' (fs' ++ fs) := by
  have htag : ∀ j, (m'.ops j).tag = (m.ops j).tag := by
    intro j
    by_cases hij : j = i
    · rw [hij, BlkOp.tag, BlkOp.tag, ht.alike.req, ht.alike.blk]
    · rw [ht.ops j hij]
  have hne : ∀ j < n, j ≠ i → (m.ops j).tag ≠ (m.ops i).tag := by
    intro j hj hij heq
    rw [BlkOp.tag, BlkOp.tag, Tag.mk.injEq] at heq
    exact ho.tag j hj i hi hij heq.1 heq.2
  refine ⟨fun f hf => ?_, fun j hj => ?_⟩
  · rcases List.mem_append.mp hf with hf | hf
    · cases hb with
      | none _ => cases hf
      | one eio _ _ => exact ⟨i, hi, by rw [List.mem_singleton.mp hf, htag]⟩
    · obtain ⟨j, hj, hfj⟩ := h.tags f hf
      exact ⟨j, hj, by rw [htag, hfj]⟩
  · rw [htag, List.filter_append]
    by_cases hij : j = i
    · subst hij
      cases hb with
      | none he => rw [he, List.filter_nil, List.nil_append, ← h.err j hj]
      | one eio hok he =>
          have hnil : fs.filter (fun f => f.tag = (m.ops j).tag) = [] := by
            rw [← verdict_ok, ← h.err j hj, hok]
          rw [he, hnil]
          cases eio <;> simp [verdict]
    · have hnil : fs'.filter (fun f => f.tag = (m.ops j).tag) = [] := by
        cases hb with
        | none _ => rfl
        | one eio _ _ => simp [(hne j hj hij).symm]
      rw [hnil, List.nil_append, ht.ops j hij, ← h.err j hj]

/-- Between two visits: nothing is locked, every fault has failed an op, and, unless rejected
copies to the device leak them, all reservations belong to WRITEs. -/
structure Going (cfg : Config) (md : Mode) (w n : ℕ) (x₀ : Local) (m₀ : Mem) (x : Local) (m : Mem) :
    Prop where
  ops : OpsOk cfg n m
  evolves : Evolves n m₀ m
  free : x.Free
  net : x.priv.net = x₀.priv.net
  start : x.priv.start = x₀.priv.start
  log : ∃ new, Alien w new ∧ x.log = x₀.log ++ new
  faults : ∃ fs, x.priv.faults = fs ++ x₀.priv.faults ∧ Blamed n m fs
  slots : ∀ sl, (∀ j < n, sl ≠ .cslot j) → (x.slot sl).Calm
  targets : ∀ sl q, (x.slot sl).target = some q →
    ∃ j < n, sl = .cslot j ∧ (m.ops j).cmd = .write ∧ (m.ops j).grain = q.1
  held : ∀ j < n, (m.ops j).cmd = .write →
    (m.ops j).grain = slotNone ∨ x.resv (m.ops j).grain ≠ none
  resv : md.batch = true → ∀ g, x.resv g ≠ none → g ∈ md.left ∨
    ∃ j < n, (m.ops j).cmd = .write ∧ (m.ops j).err = .ok ∧ (m.ops j).grain = g
  since : md.since ≤ x₀.log.length

theorem Going.log_le (h : Going cfg md w n x₀ m₀ x m) : x₀.log.length ≤ x.log.length := by
  obtain ⟨new, -, hl⟩ := h.log
  rw [hl, List.length_append]
  exact Nat.le_add_right _ _

/-- What one visit has to show beside `Touch`. -/
theorem Going.visit (h : Going cfg md w n x₀ m₀ x m) (ht : Touch i x m x' m') (hi : i < n)
    (hfree : x'.locks = x.locks ∧ x'.entry = x.entry ∧ x'.disp = x.disp ∧
      x'.priv.busy = x.priv.busy)
    (hnet : x'.priv.net = x.priv.net) (hstart : x'.priv.start = x.priv.start)
    (hlog : ∃ new, Alien w new ∧ x'.log = x.log ++ new)
    (hfaults : ∃ fs, x'.priv.faults = fs ++ x.priv.faults ∧ Blames (m.ops i) (m'.ops i) fs)
    (hslots : ∀ sl, (∀ j < n, sl ≠ .cslot j) → (x.slot sl).Calm → (x'.slot sl).Calm)
    (htargets : ∀ sl q, (x'.slot sl).target = some q →
      sl ≠ .cslot i ∧ (x.slot sl).target = some q ∨
      sl = .cslot i ∧ (m'.ops i).cmd = .write ∧ (m'.ops i).grain = q.1)
    (hgrain : (m.ops i).cmd = .write →
      (m'.ops i).grain = slotNone ∨ x'.resv (m'.ops i).grain ≠ none)
    (hkeep : ∀ g, x.resv g ≠ none → x'.resv g ≠ none ∨
      ∀ k < n, k ≠ i → (m.ops k).cmd = .write → (m.ops k).grain ≠ g)
    (hresv : md.batch = true → ∀ g, x'.resv g ≠ none →
      x.resv g ≠ none ∧ ((m.ops i).cmd = .write → (m.ops i).err = .ok → (m.ops i).grain = g →
        (m'.ops i).err = .ok ∧ (m'.ops i).grain = g) ∨
      (m'.ops i).cmd = .write ∧ (m'.ops i).err = .ok ∧ (m'.ops i).grain = g) :
    Going cfg md w n x₀ m₀ x' m' := by
  have hev := ht.evolves hi
  refine ⟨h.ops.evolves hev, h.evolves.trans hev,
    ⟨hfree.1.trans h.free.locks, hfree.2.1.trans h.free.entry, hfree.2.2.1.trans h.free.disp,
      hfree.2.2.2.trans h.free.busy⟩,
    hnet.trans h.net, hstart.trans h.start,
    ?_, ?_, fun sl hsl => hslots sl hsl (h.slots sl hsl), fun sl q hq => ?_, fun j hj hc => ?_,
    fun hb g hg => ?_, h.since⟩
  · obtain ⟨new, hn, hl⟩ := h.log
    obtain ⟨new', hn', hl'⟩ := hlog
    exact ⟨new ++ new', hn.append hn', by rw [hl', hl, List.append_assoc]⟩
  · obtain ⟨fs, hf, hbl⟩ := h.faults
    obtain ⟨fs', hf', hbl'⟩ := hfaults
    exact ⟨fs' ++ fs, by rw [hf', hf, List.append_assoc], hbl.visit h.ops hi ht hbl'⟩
  · rcases htargets sl q hq with ⟨hsl, hq'⟩ | ⟨hsl, hc, hg⟩
    · obtain ⟨j, hj, rfl, hc, hg⟩ := h.targets sl q hq'
      have hij : j ≠ i := fun h => hsl (by rw [h])
      exact ⟨j, hj, rfl, by rwa [ht.ops j hij], by rwa [ht.ops j hij]⟩
    · exact ⟨i, hi, hsl, hc, hg⟩
  · by_cases hij : j = i
    · subst hij
      exact hgrain (ht.alike.cmd ▸ hc)
    · rw [ht.ops j hij] at hc ⊢
      refine (h.held j hj hc).imp_right fun hr => ?_
      exact (hkeep _ hr).resolve_right fun hk => hk j hj hij hc rfl
  · rcases hresv hb g hg with ⟨hg', hk⟩ | hk
    · refine (h.resv hb g hg').imp_right ?_
      rintro ⟨j, hj, hc, he, hgr⟩
      by_cases hij : j = i
      · subst hij
        exact ⟨j, hj, ht.alike.cmd.trans hc, hk hc he hgr⟩
      · refine ⟨j, hj, ?_⟩
        rw [ht.ops j hij]
        exact ⟨hc, he, hgr⟩
    · exact .inr ⟨i, hi, hk⟩

/-- A visit that neither takes nor gives back a reservation. -/
theorem Going.visit_same (h : Going cfg md w n x₀ m₀ x m) (ht : Touch i x m x' m') (hi : i < n)
    (hfree : x'.locks = x.locks ∧ x'.entry = x.entry ∧ x'.disp = x.disp ∧
      x'.priv.busy = x.priv.busy)
    (hnet : x'.priv.net = x.priv.net) (hstart : x'.priv.start = x.priv.start)
    (hlog : ∃ new, Alien w new ∧ x'.log = x.log ++ new)
    (hfaults : ∃ fs, x'.priv.faults = fs ++ x.priv.faults ∧ Blames (m.ops i) (m'.ops i) fs)
    (hslots : ∀ sl, (∀ j < n, sl ≠ .cslot j) → (x.slot sl).Calm → (x'.slot sl).Calm)
    (htargets : ∀ sl q, (x'.slot sl).target = some q →
      sl ≠ .cslot i ∧ (x.slot sl).target = some q ∨
      sl = .cslot i ∧ (m'.ops i).cmd = .write ∧ (m'.ops i).grain = q.1)
    (hresv : x'.resv = x.resv)
    (hop : (m.ops i).cmd = .write → (m'.ops i).grain = (m.ops i).grain ∧
      (md.batch = true → (m.ops i).err = .ok → (m'.ops i).err = .ok)) :
    Going cfg md w n x₀ m₀ x' m' := by
  refine h.visit ht hi hfree hnet hstart hlog hfaults hslots htargets (fun hc => ?_)
    (fun g hg => .inl (by rwa [hresv])) fun hb g hg => .inl ⟨by rwa [hresv] at hg, fun hc he hg' => ?_⟩
  · rw [(hop hc).1, hresv]
    exact h.held i hi hc
  · exact ⟨(hop hc).2 hb he, (hop hc).1.trans hg'⟩

end NbdVram
