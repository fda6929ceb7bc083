import NbdVram.Steps

/-!
# The single-block paths

Specifications of the block primitives: what preparing, publishing and aborting a
write, taking and validating a snapshot, and the paths under a stripe lock do to a
worker's knowledge. The mutations of the worker itself are described by scripts
over the log (`Script`).
-/

namespace NbdVram

open Interleave Span MutationLog

variable {cfg : Config} {md : Mode} {s s' : State} {w b g n : ℕ} {x : Local}

/-! ## Scripts -/

/-- The flat array that the index and the heap stand for. -/
abbrev Disk : Type := ℕ → UInt8

/-- What worker `w` has done to the device while the log grew from `log` to `log'`. -/
def Script (w : ℕ) (log : List Mut) (is : List (Item Disk Mut)) (log' : List Mut) : Prop :=
  ∃ new, log' = log ++ new ∧ Lin Mut.who Mut.app w (disk log) is new

namespace Script

variable {log log' log'' new : List Mut} {is is' : List (Item Disk Mut)}

theorem alien (h : Alien w new) : Script w log [] (log ++ new) := ⟨new, rfl, h⟩

theorem refl : Script w log [] log := ⟨[], by simp, Foreign.nil⟩

theorem trans (h : Script w log is log') (h' : Script w log' is' log'') :
    Script w log (is ++ is') log'' := by
  obtain ⟨new, rfl, hl⟩ := h
  obtain ⟨new', rfl, hl'⟩ := h'
  rw [disk_append] at hl'
  exact ⟨new ++ new', by simp, hl.append hl'⟩

theorem grow (h : Script w log is log') (hf : Alien w new) : Script w log is (log' ++ new) := by
  have := h.trans (alien hf)
  rwa [List.append_nil] at this

theorem length_le (h : Script w log is log') : log.length ≤ log'.length := by
  obtain ⟨new, rfl, -⟩ := h
  simp

end Script

/-- One mutation for request `req` that writes `bs` at address `off`. -/
def wrote (cfg : Config) (md : Mode) (req off : ℕ) (bs : List UInt8) : Item Disk Mut :=
  .put fun m d => m.req = req ∧ m.blk = off / 4096 ∧ (md.Stores cfg → m.app d = splice d off bs)

theorem Script.wrote {log new : List Mut} {req off : ℕ} {bs : List UInt8} {page : Page}
    (hf : Alien w new) (hb : b = off / 4096)
    (hp : md.Stores cfg → splice (disk (log ++ new)) (b * 4096) page.bytes =
      splice (disk (log ++ new)) off bs) :
    Script w log [NbdVram.wrote cfg md req off bs] (log ++ new ++ [⟨w, req, b, page⟩]) := by
  refine ⟨new ++ [⟨w, req, b, page⟩], by simp, Lin.foreign_left hf (Lin.put rfl ⟨rfl, hb, fun hm => ?_⟩)⟩
  rw [← disk_append]
  exact hp hm

/-! ## Small facts about what is known -/

/-- Nothing is held: no mutex, no known entry, nothing to free, no operation under way. -/
structure Local.Free (x : Local) : Prop where
  locks : x.locks = []
  entry : x.entry = none
  disp : x.disp = []
  busy : x.priv.busy = false

theorem Local.Rest.free (h : x.Rest md) : x.Free := ⟨h.locks, h.entry, h.disp, h.busy⟩

theorem Local.Free.alloc (h : x.Free) : Mutex.alloc ∉ x.locks := by simp [h.locks]

theorem SlotSt.synced_of_calm {st : SlotSt} (h : st.Calm) (ok : Bool) : st.synced ok = st := by
  cases st with
  | up g bs | down b t e => exact h.elim
  | idle | staged bs | sent g bs | snapped b t e | loaded b t e => cases ok <;> rfl

/-- What a worker has to free is not one of its reservations. -/
theorem Loc.resv_of_disp (hi : Inv cfg md s) (hx : Loc cfg w x s) (hg : g ∈ x.disp) :
    x.resv g = none := by
  by_contra hne
  obtain ⟨sz, hsz⟩ := Option.ne_none_iff_exists'.mp hne
  obtain ⟨own, ho⟩ := hi.owned
  have h1 := (ho.resv w g).mpr (hx.mem_resv hsz)
  rw [(ho.disp w g).mpr (by rw [hx.disp]; exact hg)] at h1
  cases h1

theorem Loc.target_resv (hx : Loc cfg w x s) (hg : x.resv g = none) (sl : Stage)
    (bs : List UInt8) : (x.slot sl).target ≠ some (g, bs) := by
  intro ht
  obtain ⟨sz, hsz, -⟩ := hx.room sl g bs ht
  rw [hg] at hsz
  cases hsz

/-- A worker outside an operation owes nothing. -/
theorem Loc.settled (hi : Inv cfg md s) (hx : Loc cfg w x s) (hb : x.priv.busy = false) :
    x.priv.Settled := by
  have := hi.books.idle w (by rw [hx.priv, hb])
  rwa [hx.priv] at this

/-- A load that is no snapshot tells nothing that lasts. -/
theorem idxLoad_inert_spec {why : LoadFor} (hi : Inv cfg md s) (hx : Loc cfg w x s)
    (hb : b < cfg.nblocks) (hw : ∀ i, why ≠ .snapshot i) :
    wp (contract cfg md) w (idxLoad why b) (fun _ s' => Loc cfg w x s') s := by
  refine inert_spec hi hx (fun _ _ _ => hb) fun _ _ _ _ h => ?_
  cases why with
  | snapshot i => exact absurd rfl (hw i)
  | plain | recheck i =>
      cases h
      rfl

theorem stageRead_inert_spec {sl : Stage} (hi : Inv cfg md s) (hx : Loc cfg w x s)
    (hsl : sl.Ok cfg) :
    wp (contract cfg md) w (stageRead sl n) (fun _ s' => Loc cfg w x s') s :=
  inert_spec hi hx (fun _ _ _ => hsl) fun _ _ _ _ h => by cases h; rfl

/-! ## Releasing a displaced slot -/

/-- What the worker displaced, if it displaced anything. -/
def displaced (old : ℕ) : List ℕ := if entClen old = 0 then [] else [entGrain old]

theorem freeDisplaced_spec {old : ℕ} (hi : Inv cfg md s) (hx : Loc cfg w x s)
    (hl : .alloc ∉ x.locks) (hc : x.Calm) (hd : x.disp = displaced old) (ho : entClen old ≠ 0) :
    wp (contract cfg md) w (slotFree (entGrain old))
      (fun _ s' => Loc cfg w { x with disp := [] } s') s := by
  rw [displaced, if_neg ho] at hd
  have hg : entGrain old ∈ x.disp := by simp [hd]
  have hr := hx.resv_of_disp hi hg
  refine wp_mono hi (slotFree_spec hi hx hl hc (.inr hg) (hx.target_resv hr)) fun _ s₁ _ hx₁ => ?_
  rwa [← hr, Function.update_eq_self, hd, List.erase_cons_head] at hx₁

theorem Priv.pay_zero (p : Priv) (c : Counter) : p.pay c 0 = p := by
  rw [Priv.pay]
  split
  · rw [sub_zero, min_self, add_zero, Function.update_eq_self, Function.update_eq_self]
  · rfl

@[simp] theorem Priv.pay_busy (p : Priv) (c : Counter) (k : ℤ) : (p.pay c k).busy = p.busy := by
  rw [Priv.pay]
  split <;> rfl

/-- What is left to pay into a counter, and what of it is to be subtracted. -/
structure Priv.Left (p : Priv) (c : Counter) (o u : ℤ) : Prop where
  owed : p.owed c = o
  subs : p.subs c = u

theorem Priv.Settled.left {p : Priv} (hp : p.Settled) (old e : ℕ) (c : Counter) :
    (p.owe old e).Left c (c.due old e) (c.cost old e) := by
  refine ⟨?_, ?_⟩
  · show p.owed c + _ = _
    rw [(hp c).1, zero_add]
  · show p.subs c + _ = _
    rw [(hp c).2, zero_add]

theorem Priv.Left.pay {p : Priv} {c : Counter} {o u k : ℤ} (h : p.Left c o u)
    (hc : c.kept = true) : (p.pay c k).Left c (o - k) (u + min k 0) := by
  rw [Priv.pay, if_pos hc]
  refine ⟨?_, ?_⟩
  · show Function.update p.owed c (p.owed c - k) c = _
    rw [Function.update_self, h.owed]
  · show Function.update p.subs c (p.subs c + min k 0) c = _
    rw [Function.update_self, h.subs]

theorem Priv.Left.pay_of_ne {p : Priv} {c d : Counter} {o u k : ℤ} (h : p.Left c o u)
    (hc : c ≠ d) : (p.pay d k).Left c o u := by
  rw [Priv.pay]
  split
  · refine ⟨?_, ?_⟩
    · exact (Function.update_of_ne hc _ _).trans h.owed
    · exact (Function.update_of_ne hc _ _).trans h.subs
  · exact h

theorem ctrAddIf_spec {c : Counter} {C : Prop} [Decidable C] (hi : Inv cfg md s)
    (hx : Loc cfg w x s) (hb : x.priv.busy = true) (hn : C → x.priv.Left c n 0) :
    wp (contract cfg md) w (if C then ctrAdd c n else pure ())
      (fun _ s' => Loc cfg w { x with priv := x.priv.pay c (if C then n else 0) } s') s := by
  split
  · rename_i hC
    exact ctrAdd_spec hi hx fun _ => ⟨hb, (hn hC).subs, (hn hC).owed⟩
  · rw [Priv.pay_zero]
    exact hx

/-- What is counted for a published entry. -/
def Priv.payNew (p : Priv) (clen : ℕ) : Priv :=
  (p.pay .codecBytes clen).pay .rawBlocks (if clen = 4096 then 1 else 0)

/-- What is counted for a released one. -/
def Priv.payOld (p : Priv) (clen : ℕ) : Priv :=
  (p.pay .codecBytes (-clen)).pay .rawBlocks (if clen = 4096 then -1 else 0)

/-- Replacing a written entry is paid for. -/
theorem Priv.paid_written {p : Priv} {old e clen : ℕ} (ho : entClen old ≠ 0) (he : entClen e = clen)
    (hz : clen ≠ 0) : ((p.owe old e).payOld (entClen old)).payNew clen = p := by
  simp only [Priv.payNew, Priv.payOld, Priv.owe, Priv.pay, Counter.kept, if_true]
  congr 1
  all_goals
    funext c
    cases c
    all_goals simp [Counter.due, Counter.share, Counter.cost, ho, he, hz]
  · ring
  · split <;> split <;> ring
  · split <;> split <;> simp

/-- Writing an unwritten block is paid for. -/
theorem Priv.paid_fresh {p : Priv} {old e clen : ℕ} (ho : entClen old = 0) (he : entClen e = clen)
    (hz : clen ≠ 0) : ((p.owe old e).pay .blocksLive 1).payNew clen = p := by
  simp only [Priv.payNew, Priv.owe, Priv.pay, Counter.kept, if_true]
  congr 1
  all_goals
    funext c
    cases c
    all_goals simp [Counter.due, Counter.share, Counter.cost, ho, he, hz]
  split <;> simp

/-- Trimming a written block is paid for. -/
theorem Priv.paid_trim {p : Priv} {old e : ℕ} (ho : entClen old ≠ 0) (he : entClen e = 0) :
    (((p.owe old e).payOld (entClen old)).pay .blocksLive (-1)).pay .trimBlocks 1 = p := by
  simp only [Priv.payOld, Priv.owe, Priv.pay, Counter.kept, if_true]
  congr 1
  all_goals
    funext c
    cases c
    all_goals simp [Counter.due, Counter.share, Counter.cost, ho, he]
  · split <;> ring
  · split <;> simp

/-- What the released entry leaves to be paid for the new one. -/
theorem Priv.Settled.left_new {p : Priv} (hp : p.Settled) (old e : ℕ) :
    ((p.owe old e).payOld (entClen old)).Left .codecBytes (entClen e) 0 ∧
      ((p.owe old e).payOld (entClen old)).Left .rawBlocks (if entClen e = 4096 then 1 else 0) 0 := by
  have h1 := ((hp.left old e .codecBytes).pay (k := -(entClen old : ℤ)) rfl).pay_of_ne
    (d := .rawBlocks) (k := if entClen old = 4096 then -1 else 0) (by decide)
  have h2 := ((hp.left old e .rawBlocks).pay_of_ne (d := .codecBytes) (k := -(entClen old : ℤ))
    (by decide)).pay (k := if entClen old = 4096 then -1 else 0) rfl
  refine ⟨⟨h1.owed.trans ?_, h1.subs.trans ?_⟩, h2.owed.trans ?_, h2.subs.trans ?_⟩
  · show ((entClen e : ℤ) - entClen old) - -(entClen old : ℤ) = entClen e
    ring
  · show (entClen old : ℤ) + min (-(entClen old : ℤ)) 0 = 0
    omega
  · simp only [Counter.due, Counter.share]
    split <;> split <;> ring
  · simp only [Counter.cost]
    split <;> rfl

/-- What a trimmed entry leaves to be paid. -/
theorem Priv.Settled.left_trim {p : Priv} {old e : ℕ} (hp : p.Settled) (ho : entClen old ≠ 0)
    (he : entClen e = 0) :
    ((p.owe old e).payOld (entClen old)).Left .blocksLive (-1) 1 ∧
      (((p.owe old e).payOld (entClen old)).pay .blocksLive (-1)).Left .trimBlocks 1 0 := by
  have h1 := ((hp.left old e .blocksLive).pay_of_ne (d := .codecBytes) (k := -(entClen old : ℤ))
    (by decide)).pay_of_ne (d := .rawBlocks) (k := if entClen old = 4096 then -1 else 0) (by decide)
  have h2 := (((hp.left old e .trimBlocks).pay_of_ne (d := .codecBytes) (k := -(entClen old : ℤ))
    (by decide)).pay_of_ne (d := .rawBlocks) (k := if entClen old = 4096 then -1 else 0)
    (by decide)).pay_of_ne (d := .blocksLive) (k := -1) (by decide)
  have e1 : Counter.blocksLive.due old e = -1 := by simp [Counter.due, Counter.share, ho, he]
  have e2 : Counter.blocksLive.cost old e = 1 := by simp [Counter.cost, ho, he]
  have e3 : Counter.trimBlocks.due old e = 1 := by simp [Counter.due, ho, he]
  rw [e1, e2] at h1
  rw [e3] at h2
  exact ⟨h1, h2⟩

theorem payNew_spec {clen : ℕ} (hi : Inv cfg md s) (hx : Loc cfg w x s) (hb : x.priv.busy = true)
    (h1 : x.priv.Left .codecBytes clen 0)
    (h2 : x.priv.Left .rawBlocks (if clen = 4096 then 1 else 0) 0) :
    wp (contract cfg md) w (do
      ctrAdd .codecBytes clen
      if clen = 4096 then ctrAdd .rawBlocks 1 else pure ())
      (fun _ s' => Loc cfg w { x with priv := x.priv.payNew clen } s') s := by
  have h2' := h2.pay_of_ne (d := .codecBytes) (k := clen) (by decide)
  refine wp_seq hi (ctrAdd_spec hi hx fun _ => ⟨hb, h1.subs, h1.owed⟩) fun _ s₁ hi₁ hx₁ => ?_
  refine wp_mono hi₁ (ctrAddIf_spec (n := 1) hi₁ hx₁ (by simpa using hb) fun hC => ?_)
    fun _ s₂ _ hx₂ => ?_
  · rw [if_pos hC] at h2'
    exact h2'
  · simpa only [Nat.cast_one, Priv.payNew] using hx₂

theorem payOld_spec {old : ℕ} {o o' : ℤ} {p : Prog sig Unit} {Q : Unit → State → Prop}
    (hi : Inv cfg md s) (hx : Loc cfg w x s) (hb : x.priv.busy = true)
    (h1 : x.priv.Left .codecBytes o (entClen old))
    (h2 : x.priv.Left .rawBlocks o' (if entClen old = 4096 then 1 else 0))
    (h : ∀ s', Inv cfg md s' → Loc cfg w { x with priv := x.priv.payOld (entClen old) } s' →
      wp (contract cfg md) w p Q s') :
    wp (contract cfg md) w (do
      ctrSub .codecBytes (entClen old)
      if entClen old = 4096 then do ctrSub .rawBlocks 1; p else p) Q s := by
  have h2' := h2.pay_of_ne (d := .codecBytes) (k := -(entClen old : ℤ)) (by decide)
  refine wp_seq hi (ctrSub_spec hi hx fun _ => ⟨hb, h1.subs⟩) fun _ s₁ hi₁ hx₁ => ?_
  by_cases ho : entClen old = 4096
  · rw [if_pos ho]
    refine wp_seq hi₁ (ctrSub_spec hi₁ hx₁ fun _ => ⟨by simpa using hb, ?_⟩)
      fun _ s₂ hi₂ hx₂ => h s₂ hi₂ ?_
    · rw [h2'.subs, if_pos ho]
      rfl
    · simpa [Priv.payOld, ho] using hx₂
  · rw [if_neg ho]
    refine h s₁ hi₁ ?_
    simpa [Priv.payOld, ho, Priv.pay_zero] using hx₁

/-- The account for the store of `e` is settled. -/
theorem retire_spec {old e clen : ℕ} {p : Priv} (hi : Inv cfg md s) (hx : Loc cfg w x s)
    (hl : .alloc ∉ x.locks) (hc : x.Calm) (hd : x.disp = displaced old) (hp : x.priv = p.owe old e)
    (he : entClen e = clen) (hz : clen ≠ 0) (hb : p.busy = true) (hset : p.Settled) :
    wp (contract cfg md) w (retire old clen)
      (fun _ s' => Loc cfg w { x with disp := [], priv := p } s') s := by
  have hbx : x.priv.busy = true := by
    rw [hp]
    exact hb
  unfold retire
  by_cases ho : entClen old ≠ 0
  · simp only [if_pos ho]
    obtain ⟨hn1, hn2⟩ := hset.left_new old e
    rw [he] at hn1 hn2
    refine wp_seq hi (freeDisplaced_spec hi hx hl hc hd ho) fun _ s₁ hi₁ hx₁ => ?_
    refine payOld_spec hi₁ hx₁ hbx (by rw [hp]; exact hset.left old e _)
      (by rw [hp]; exact hset.left old e _) fun s₂ hi₂ hx₂ => ?_
    refine wp_mono hi₂ (payNew_spec hi₂ hx₂ (by simpa [Priv.payOld] using hbx)
      (by rw [← hp] at hn1; exact hn1) (by rw [← hp] at hn2; exact hn2)) fun _ s₃ _ hx₃ => ?_
    simp only [hp, Priv.paid_written ho he hz] at hx₃
    exact hx₃
  · simp only [if_neg ho]
    have ho' := not_not.mp ho
    have hx' : Loc cfg w { x with disp := [] } s := by
      rw [displaced, if_pos ho'] at hd
      rw [← hd]
      exact hx
    have hlive := hset.left old e .blocksLive
    have hn1 := (hset.left old e .codecBytes).pay_of_ne (d := .blocksLive) (k := 1) (by decide)
    have hn2 := (hset.left old e .rawBlocks).pay_of_ne (d := .blocksLive) (k := 1) (by decide)
    simp only [Counter.due, Counter.share, Counter.cost, ho', he, hz] at hlive hn1 hn2
    simp only [← hp] at hlive hn1 hn2
    refine wp_seq hi (ctrAdd_spec hi hx' fun _ => ⟨hbx, ?_, ?_⟩) fun _ s₁ hi₁ hx₁ => ?_
    · simpa using hlive.subs
    · simpa using hlive.owed
    refine wp_mono hi₁ (payNew_spec hi₁ hx₁ (by simpa using hbx) ?_ ?_) fun _ s₂ _ hx₂ => ?_
    · simpa using hn1
    · simpa using hn2
    have hpd := Priv.paid_fresh (p := p) ho' he hz
    simp only [hp, Nat.cast_one, hpd] at hx₂
    exact hx₂

/-! ## Writes of whole blocks -/

/-- What `wr_prepare` leaves in the op: a refused allocation, or the grain it got. -/
def BlkOp.refused (bo : BlkOp) (clen : ℕ) : BlkOp :=
  { bo with clen := clen, grain := slotNone, err := .enospc, dma := .none }

def BlkOp.holding (bo : BlkOp) (clen grain : ℕ) : BlkOp :=
  { bo with clen := clen, grain := grain, dma := .queued }

theorem wrPrepare_spec {i : ℕ} {m : Mem} {bs : List UInt8} (hi : Inv cfg md s)
    (hx : Loc cfg w x s) (hl : .alloc ∉ x.locks) (hsl : (m.ops i).cslot < cfg.maxops)
    (hc : (x.slot (.cslot (m.ops i).cslot)).Calm)
    (hbs : bs = cfg.codec.compBlock (m.page (m.ops i).page)) :
    wp (contract cfg md) w (wrPrepare cfg i m) (fun m' s' =>
      (m' = m.setOp i ((m.ops i).refused bs.length) ∧ md.alloc = false ∧ Loc cfg w { x with
        slot := Function.update x.slot (.cslot (m.ops i).cslot) (.staged bs)
        priv := x.priv.addFault ⟨(m.ops i).req, (m.ops i).blk⟩ false } s') ∨
      ∃ g sz, g ≠ slotNone ∧ x.resv g = none ∧ bs.length ≤ sz ∧
        m' = m.setOp i ((m.ops i).holding bs.length g) ∧ Loc cfg w { x with
          slot := Function.update x.slot (.cslot (m.ops i).cslot) (.staged bs)
          resv := Function.update x.resv g (some sz) } s') s := by
  subst hbs
  have hlen := cfg.codec.compBlock_length (m.page (m.ops i).page)
  unfold wrPrepare
  refine wp_seq hi (stageWrite_spec hi hx hsl hc) fun _ s₁ hi₁ hx₁ => ?_
  refine wp_seq hi₁ (slotAlloc_spec hi₁ hx₁ hl hlen.1 hlen.2) fun g s₂ hi₂ h => ?_
  rcases h with ⟨rfl, hal, hx₂⟩ | ⟨hne, hr, sz, hsz, hx₂⟩
  · rw [if_pos rfl]
    exact wp_seq hi₂ (count_spec hi₂ hx₂ rfl) fun _ s₃ _ hx₃ => .inl ⟨rfl, hal, hx₃⟩
  · rw [if_neg hne]
    exact .inr ⟨g, sz, hne, hr, hsz, rfl, hx₂⟩

/-- `wr_publish` of a completely copied page `p`. -/
theorem wrPublish_spec {bo : BlkOp} {sz : ℕ} {p : Page} (hi : Inv cfg md s) (hx : Loc cfg w x s)
    (hf : x.Free) (hc : x.Calm) (hb : bo.blk < cfg.nblocks) (hg : x.resv bo.grain = some sz)
    (hn : bo.clen = (cfg.codec.compBlock p).length) (hsz : bo.clen ≤ sz)
    (hp : md.Stores cfg → ∃ sl, x.slot sl = .sent bo.grain (cfg.codec.compBlock p)) :
    wp (contract cfg md) w (wrPublish bo) (fun _ s' => ∃ new page, Alien w new ∧
      (md.Stores cfg → page = p) ∧ Loc cfg w { x with
        resv := Function.update x.resv bo.grain none
        slot := x.forget bo.grain
        log := x.log ++ new ++ [⟨w, bo.req, bo.blk, page⟩] } s') s := by
  have hset : x.priv.Settled := hx.settled hi hf.busy
  have hlen := cfg.codec.compBlock_length p
  unfold wrPublish
  refine wp_seq hi (enter_spec hi hx) fun _ s₀ hi₀ hx₀ => ?_
  refine wp_seq hi₀ (lock_spec hi₀ hx₀ hf.locks) fun _ s₁ hi₁ hx₁ => ?_
  refine wp_seq hi₁ (idxLoad_locked_spec hi₁ hx₁ hb (by simp)) fun old s₂ hi₂ h => ?_
  obtain ⟨new, hnew, hx₂, -⟩ := h
  refine wp_seq hi₂ (publish_spec hi₂ hx₂ hb rfl hc rfl hset hg hn hsz hp) fun _ s₃ hi₃ h => ?_
  obtain ⟨e, new', page, he, hnew', -, hpage, hx₃⟩ := h
  refine wp_seq hi₃ (unlock_spec hi₃ hx₃ rfl) fun _ s₄ hi₄ hx₄ => ?_
  refine wp_seq hi₄ (retire_spec hi₄ hx₄ (by simp) (fun sl => forget_calm hc sl) ?_ rfl he
    (by omega) rfl hset) fun _ s₅ hi₅ hx₅ => ?_
  · simp only [Local.stored, displaced, hf.disp]
  refine wp_mono hi₅ (leave_spec hi₅ hx₅ hset) fun _ s₆ _ hx₆ => ?_
  refine ⟨new ++ new', page, hnew.append hnew', hpage, ?_⟩
  simp only [Local.stored, List.append_assoc, ← hf.locks, ← hf.entry, ← hf.disp, ← hf.busy] at hx₆ ⊢
  exact hx₆

/-- `wr_abort` gives the reservation back. -/
theorem wrAbort_spec {i sz : ℕ} {m : Mem} (hi : Inv cfg md s) (hx : Loc cfg w x s) (hf : x.Free)
    (hc : x.Calm) (hg : x.resv (m.ops i).grain = some sz) (hne : (m.ops i).grain ≠ slotNone)
    (ht : ∀ sl bs, (x.slot sl).target ≠ some ((m.ops i).grain, bs)) :
    wp (contract cfg md) w (wrAbort i m) (fun m' s' =>
      m' = m.setOp i { m.ops i with grain := slotNone, dma := .none } ∧ Loc cfg w { x with
        resv := Function.update x.resv (m.ops i).grain none } s') s := by
  unfold wrAbort
  simp only [if_pos hne]
  refine wp_seq hi (slotFree_spec hi hx hf.alloc hc (.inl (by rw [hg]; simp)) ht)
    fun _ s₁ _ hx₁ => ⟨rfl, ?_⟩
  rwa [hf.disp, List.erase_nil, ← hf.disp] at hx₁

/-! ## Reads -/

/-- The op after `rd_prepare` has read the entry `e`. -/
def BlkOp.snapped (bo : BlkOp) (e : ℕ) : BlkOp :=
  { bo with
    ent := e
    clen := entClen e
    grain := entGrain e
    dma := if entClen e ≠ 0 then .queued else .none }

theorem rdPrepare_spec {i : ℕ} {m : Mem} (hi : Inv cfg md s) (hx : Loc cfg w x s)
    (hb : (m.ops i).blk < cfg.nblocks) (hc : (x.slot (.cslot i)).Calm) :
    wp (contract cfg md) w (rdPrepare i m) (fun m' s' => ∃ e new, Alien w new ∧
      m' = m.setOp i ((m.ops i).snapped e) ∧ Entry cfg (x.log ++ new) (m.ops i).blk e ∧
      Loc cfg w { x with
        log := x.log ++ new
        priv := { x.priv with snap := Function.update x.priv.snap i (x.log ++ new).length }
        slot := Function.update x.slot (.cslot i)
          (.snapped (m.ops i).blk (x.log ++ new).length e) } s') s := by
  unfold rdPrepare
  refine wp_seq hi (snapshot_spec hi hx hb hc) fun e s₁ _ h => ?_
  obtain ⟨new, hnew, hx₁, he⟩ := h
  exact ⟨e, new, hnew, rfl, he, hx₁⟩

/-- A read that may be validated: the copy named by the snapshot of block `b` is complete. -/
structure Fetched (cfg : Config) (w : ℕ) (x : Local) (i b e : ℕ) : Prop where
  le : x.priv.snap i ≤ x.log.length
  own : Alien w (x.log.drop (x.priv.snap i))
  entry : Entry cfg (x.log.take (x.priv.snap i)) b e

/-- The page is what the block held at some instant since the snapshot of op `i`. -/
def Fresh (x : Local) (i b : ℕ) (p : Page) : Prop :=
  ∃ t, x.priv.snap i ≤ t ∧ t ≤ x.log.length ∧ p = pageOf (disk (x.log.take t)) b

/-- The history with more faults. -/
def Local.fault (x : Local) (fs : List Fault) : Local :=
  { x with priv := { x.priv with faults := fs ++ x.priv.faults } }

/-- `rd_finish`: a page that is accepted is one the block held; only where reads are not sound
can the stored bytes be corrupt. -/
theorem rdFinish_spec {i : ℕ} {m : Mem} (hi : Inv cfg md s) (hx : Loc cfg w x s)
    (hb : (m.ops i).blk < cfg.nblocks) (hsl : (m.ops i).cslot = i) (hmax : i < cfg.maxops)
    (hc : (x.slot (.cslot i)).Calm) (hlen : (m.ops i).clen = entClen (m.ops i).ent)
    (hfe : Fetched cfg w x i (m.ops i).blk (m.ops i).ent) (hsn : md.since ≤ x.priv.snap i)
    (hld : md.Reads cfg → (m.ops i).clen ≠ 0 →
      x.slot (.cslot i) = .loaded (m.ops i).blk (x.priv.snap i) (m.ops i).ent)
    (ht : (x.slot (.cslot i)).target = none) :
    wp (contract cfg md) w (rdFinish cfg i m) (fun r s' => ∃ new st fs x', Alien w new ∧
      st.Calm ∧ st.target = none ∧
      x' = Local.fault { x with
        log := x.log ++ new, slot := Function.update x.slot (.cslot i) st } fs ∧
      Loc cfg w x' s' ∧
      match r.1 with
      | .done => fs = [] ∧ ∃ p, r.2 = m.write (m.ops i).page p.bytes ∧
          (md.Reads cfg → Fresh x' i (m.ops i).blk p)
      | .again => fs = [] ∧ r.2 = m
      | .corrupt => fs = [⟨⟨(m.ops i).req, (m.ops i).blk⟩, true⟩] ∧ r.2 = m ∧
          ¬ md.Reads cfg) s := by
  unfold rdFinish
  -- nothing but the log may change where nothing more is known
  have hsame : ∀ s₁, Loc cfg w x s₁ → Loc cfg w { x with
      log := x.log ++ [], slot := Function.update x.slot (.cslot i) (x.slot (.cslot i)) } s₁ := by
    intro s₁ h
    rwa [List.append_nil, Function.update_eq_self]
  by_cases hz : (m.ops i).clen = 0
  · simp only [if_pos hz]
    refine ⟨[], _, [], _, Foreign.nil, hc, ht, rfl, hsame s hx, rfl, Page.zero, rfl, fun _ =>
      ⟨x.priv.snap i, le_rfl, by simpa [Local.fault] using hfe.le, ?_⟩⟩
    simp only [Local.fault, List.append_nil]
    exact (hfe.entry.zero (by omega)).symm
  · simp only [if_neg hz]
    by_cases hm : md.Reads cfg
    · refine wp_seq hi (recheck_spec hi hx hb (hld hm hz) hfe.le hsn rfl hfe.own hfe.entry.gen
        (by omega)) fun cur s₁ hi₁ h => ?_
      obtain ⟨new, hnew, hlost, hsame⟩ := h
      by_cases hcur : cur = (m.ops i).ent
      · obtain ⟨bs, hbs, hx₁, hdec⟩ := hsame hcur
        simp only [hcur, ne_eq, not_true_eq_false, if_false]
        rw [hsl]
        refine wp_seq hi₁ (stageRead_spec hi₁ hx₁ hmax (Function.update_self ..) (by omega))
          fun r s₂ _ h => ?_
        obtain ⟨rfl, hx₂⟩ := h
        rw [hdec hm]
        refine ⟨new, .staged r, [], _, hnew, trivial, rfl, rfl, hx₂, rfl, _, rfl, fun _ =>
          ⟨(x.log ++ new).length, ?_, le_rfl, by simp only [Local.fault, List.take_length]⟩⟩
        simp only [Local.fault, List.length_append]
        have := hfe.le
        omega
      · simp only [ne_eq, hcur, not_false_eq_true, if_true]
        refine ⟨new, _, [], _, hnew, hc, ht, rfl, ?_, rfl, rfl⟩
        rw [Function.update_eq_self]
        exact hlost hcur
    · refine wp_seq hi (idxLoad_inert_spec hi hx hb (by simp)) fun cur s₁ hi₁ hx₁ => ?_
      by_cases hcur : cur = (m.ops i).ent
      · simp only [hcur, ne_eq, not_true_eq_false, if_false]
        refine wp_seq hi₁ (stageRead_inert_spec hi₁ hx₁ (by rw [hsl]; exact hmax)) fun bs s₂ hi₂ hx₂ => ?_
        cases cfg.codec.decompBlock bs with
        | none =>
            exact wp_seq hi₂ (corrupt_spec hi₂ (hsame s₂ hx₂)) fun _ s₃ _ hx₃ =>
              ⟨[], _, [_], _, Foreign.nil, hc, ht, rfl, hx₃, rfl, rfl, hm⟩
        | some p =>
            exact ⟨[], _, [], _, Foreign.nil, hc, ht, rfl, hsame s₂ hx₂, rfl, p, rfl,
              fun h => absurd h hm⟩
      · simp only [ne_eq, hcur, not_false_eq_true, if_true]
        exact ⟨[], _, [], _, Foreign.nil, hc, ht, rfl, hsame s₁ hx₁, rfl, rfl⟩

/-! ## Paths under a stripe lock -/

/-- With the block locked, its copy in a staging slot is what the block shows. -/
theorem Loc.loaded_locked {e : ℕ} (sl : Stage) (hi : Inv cfg md s) (hx : Loc cfg w x s)
    (hent : x.entry = some (b, e, x.log.length)) (hs : x.slot sl = .loaded b x.log.length e)
    (hz : entClen e ≠ 0) :
    ∃ bs, bs.length = entClen e ∧
      Loc cfg w { x with slot := Function.update x.slot sl (.staged bs) } s ∧
      (md.Stores cfg → cfg.codec.decompBlock bs = some (pageOf (disk x.log) b)) := by
  have hslot := hx.slot sl
  rw [hs] at hslot
  obtain ⟨-, hidx, -, hmut⟩ := hx.entry b e _ hent
  obtain ⟨new, hlog, -⟩ := hx.log
  refine ⟨slice (s.stage w sl) 0 (entClen e), slice_length,
    hx.setSlot rfl ⟨hslot.1, fun i hlt => ?_⟩, fun hm => ?_⟩
  · rw [slice_length] at hlt
    rw [slice_getD hlt, Nat.zero_add]
  · rw [hi.decode_loaded hm hidx hz (hslot.2.2 hmut).2, hlog, disk_append]
    rw [hlog, List.drop_left] at hmut
    rw [pageOf_applyAll hmut]

/-- How bringing a locked block to `dst` ends. -/
inductive Brought (cfg : Config) (md : Mode) (tag : Tag) (dst : Ptr) (m : Mem) (q : Page) :
    List Fault → Bool × Mem → Prop
  | got {p : Page} : (md.Stores cfg → p = q) → Brought cfg md tag dst m q [] (true, m.write dst p.bytes)
  | rejected : md.launch = false → Brought cfg md tag dst m q [⟨tag, true⟩] (false, m)
  | corrupt : ¬ md.Stores cfg → Brought cfg md tag dst m q [⟨tag, true⟩] (false, m)

theorem fetchLocked_spec {tag : Tag} {e : ℕ} {dst : Ptr} {m : Mem} (hi : Inv cfg md s)
    (hx : Loc cfg w x s) (hent : x.entry = some (b, e, x.log.length)) (he : Entry cfg x.log b e)
    (hc : x.Calm) :
    wp (contract cfg md) w (fetchLocked cfg tag e dst m) (fun r s' => ∃ st fs, st.Calm ∧
      st.target = none ∧ Brought cfg md tag dst m (pageOf (disk x.log) b) fs r ∧
      Loc cfg w (Local.fault { x with slot := Function.update x.slot .cscratch st } fs) s') s := by
  unfold fetchLocked
  have hsnap : Loc cfg w { x with
      slot := Function.update x.slot .cscratch (.snapped b x.log.length e) } s := by
    obtain ⟨-, hidx, hle, -⟩ := hx.entry b e _ hent
    exact hx.setSlot rfl ⟨(hx.slot _).noMove (hc _), hle, fun _ => ⟨hidx, trivial⟩⟩
  by_cases hz : entClen e = 0
  · simp only [if_pos hz]
    exact ⟨.snapped b x.log.length e, [], trivial, rfl, .got fun _ => (he.zero hz).symm, hsnap⟩
  · simp only [if_neg hz]
    refine wp_seq hi (dtoh_spec (b := b) (t := x.log.length) hi hsnap trivial (by simp) (he.heap hz))
      fun ok s₁ hi₁ h => ?_
    rcases h with ⟨rfl, hx₁⟩ | ⟨rfl, hla, hx₁⟩
    · simp only [Bool.true_eq_false, if_false]
      refine wp_seq hi₁ (sync_spec hi₁ hx₁) fun ok s₂ hi₂ h => ?_
      obtain ⟨hok, hx₂⟩ := h
      -- only the slot of the copy changes
      have hslots : (fun sl => (Function.update (Function.update x.slot .cscratch
          (.snapped b x.log.length e)) .cscratch (.down b x.log.length e) sl).synced ok) =
          Function.update x.slot .cscratch ((SlotSt.down b x.log.length e).synced ok) := by
        funext sl
        rw [Function.update_idem, Function.update_apply, Function.update_apply]
        split
        · rfl
        · exact SlotSt.synced_of_calm (hc sl) ok
      simp only [hslots] at hx₂
      by_cases hm : md.Stores cfg
      · rw [hok hm.1] at hx₂
        obtain ⟨bs, hlen, hx₃, hdec⟩ := hx₂.loaded_locked .cscratch hi₂ hent
          (by simp [SlotSt.synced]) hz
        refine wp_seq hi₂ (stageRead_spec hi₂ hx₃ trivial (by simp) hlen)
          fun r s₃ _ h => ?_
        obtain ⟨rfl, hx₄⟩ := h
        rw [hdec hm]
        refine ⟨.staged r, [], trivial, rfl, .got fun _ => rfl, ?_⟩
        rwa [Function.update_idem] at hx₄
      · refine wp_seq hi₂ (stageRead_inert_spec hi₂ hx₂ trivial) fun bs s₃ hi₃ hx₃ => ?_
        have hst : ((SlotSt.down b x.log.length e).synced ok).target = none := by
          cases ok <;> rfl
        cases cfg.codec.decompBlock bs with
        | none =>
            exact wp_seq hi₃ (corrupt_spec hi₃ hx₃) fun _ s₄ _ hx₄ =>
              ⟨_, [_], SlotSt.synced_calm _ ok, hst, .corrupt hm, hx₄⟩
        | some p => exact ⟨_, [], SlotSt.synced_calm _ ok, hst, .got fun h => absurd h hm, hx₃⟩
    · simp only [if_true]
      exact ⟨.snapped b x.log.length e, [⟨tag, true⟩], trivial, rfl, .rejected hla, hx₁⟩

theorem rdBlockLocked_spec {tag : Tag} {page : Ptr} {m : Mem} (hi : Inv cfg md s)
    (hx : Loc cfg w x s) (hf : x.Free) (hb : tag.blk < cfg.nblocks) (hc : x.Calm) :
    wp (contract cfg md) w (rdBlockLocked cfg tag page m) (fun r s' => ∃ new st fs, Alien w new ∧
      st.Calm ∧ st.target = none ∧
      Brought cfg md tag page m (pageOf (disk (x.log ++ new)) tag.blk) fs r ∧
      Loc cfg w (Local.fault { x with
        log := x.log ++ new
        slot := Function.update x.slot .cscratch st } fs) s') s := by
  unfold rdBlockLocked
  refine wp_seq hi (lock_spec hi hx hf.locks) fun _ s₁ hi₁ hx₁ => ?_
  refine wp_seq hi₁ (idxLoad_locked_spec hi₁ hx₁ hb (by simp)) fun e s₂ hi₂ h => ?_
  obtain ⟨new, hnew, hx₂, he⟩ := h
  refine wp_seq hi₂ (fetchLocked_spec hi₂ hx₂ rfl he hc) fun r s₃ hi₃ h => ?_
  obtain ⟨st, fs, hst, htg, hr, hx₃⟩ := h
  refine wp_seq hi₃ (unlock_spec hi₃ hx₃ rfl) fun _ s₄ hi₄ hx₄ => ?_
  refine ⟨new, st, fs, hnew, hst, htg, hr, ?_⟩
  simp only [Local.fault, ← hf.locks, ← hf.entry] at hx₄ ⊢
  exact hx₄

/-! ## The read-modify-write of one block -/

/-- How the second half of `rmw_block` ends. -/
inductive RmwStored (cfg : Config) (md : Mode) (w b t : ℕ) (x : Local) (q : Page) (s : State) :
    Err → Prop
  | ok {st : SlotSt} {new : List Mut} {page : Page} : st.Calm → st.target = none → Alien w new →
      mutations b ((x.log ++ new).drop t) = 0 → (md.Stores cfg → page = q) →
      Loc cfg w { x with
        entry := none
        slot := Function.update x.slot .cscratch st
        log := x.log ++ new ++ [⟨w, 0, b, page⟩] } s → RmwStored cfg md w b t x q s .ok
  | refused {st : SlotSt} : st.Calm → st.target = none → md.alloc = false →
      Loc cfg w (Local.fault { x with slot := Function.update x.slot .cscratch st }
        [⟨⟨0, b⟩, false⟩]) s → RmwStored cfg md w b t x q s .enospc
  | rejected {st : SlotSt} : st.Calm → st.target = none → md.launch = false →
      Loc cfg w (Local.fault { x with slot := Function.update x.slot .cscratch st }
        [⟨⟨0, b⟩, true⟩]) s → RmwStored cfg md w b t x q s .eio

/-- The grain of a fresh reservation is only in the slot that was copied to it. -/
theorem Loc.forget_fresh {st : SlotSt} (hx : Loc cfg w x s) (hg : x.resv g = none)
    (ht : st.target = none ∨ st.target.map Prod.fst = some g) {r : ℕ → Option ℕ} :
    Local.forget { x with resv := r, slot := Function.update x.slot .cscratch st } g =
      Function.update x.slot .cscratch
        (if st.target = none then st else .idle) := by
  funext sl
  simp only [Local.forget, Function.update_apply]
  by_cases hsl : sl = .cscratch
  · simp only [if_pos hsl]
    rcases ht with ht | ht
    · simp [ht]
    · have hne : st.target ≠ none := fun h => by simp [h] at ht
      rw [if_pos ht, if_neg hne]
  · simp only [if_neg hsl]
    rw [if_neg]
    intro h
    obtain ⟨⟨g', bs⟩, hq, rfl⟩ := Option.map_eq_some_iff.mp h
    exact hx.target_resv hg sl bs hq

theorem rmwStore_spec {old t : ℕ} {m : Mem} (hi : Inv cfg md s) (hx : Loc cfg w x s)
    (hl : x.locks = [stripe b]) (hb : b < cfg.nblocks) (hent : x.entry = some (b, old, t))
    (hd : x.disp = []) (hc : x.Calm) (hbusy : x.priv.busy = true) (hset : x.priv.Settled) :
    wp (contract cfg md) w (rmwStore cfg b old m) (fun err s' =>
      RmwStored cfg md w b t x (m.page ⟨.scratch, 0⟩) s' err) s := by
  have hlen := cfg.codec.compBlock_length (m.page ⟨.scratch, 0⟩)
  have hal : Mutex.alloc ∉ x.locks := by simp [hl, stripe]
  unfold rmwStore
  set bs := cfg.codec.compBlock (m.page ⟨.scratch, 0⟩) with hbs
  refine wp_seq hi (stageWrite_spec hi hx trivial (hc _)) fun _ s₁ hi₁ hx₁ => ?_
  have hx₁' := hx₁
  refine wp_seq hi₁ (slotAlloc_spec hi₁ hx₁ hal hlen.1 hlen.2) fun g s₂ hi₂ h => ?_
  rcases h with ⟨rfl, hal, hx₂⟩ | ⟨hne, hr, sz, hsz, hx₂⟩
  · rw [if_pos rfl]
    exact wp_seq hi₂ (count_spec hi₂ hx₂ rfl) fun _ s₃ _ hx₃ => .refused
      (show (SlotSt.staged bs).Calm from trivial) rfl hal hx₃
  · rw [if_neg hne]
    have hcalm : ∀ st : SlotSt, st.Calm → ∀ sl, (Function.update x.slot .cscratch st sl).Calm := by
      intro st hst sl
      rw [Function.update_apply]
      split
      · exact hst
      · exact hc sl
    have htgt : ∀ sl bs', (Function.update x.slot .cscratch (.staged bs) sl).target ≠
        some (g, bs') := hx₁'.target_resv hr
    refine wp_seq hi₂ (htod_spec (g := g) hi₂ hx₂ trivial (by simp) rfl (by simp) hsz htgt)
      fun ok s₃ hi₃ h => ?_
    rcases h with ⟨rfl, hx₃⟩ | ⟨rfl, hla, -, hx₃⟩
    · simp only [Bool.true_eq_false, if_false]
      refine wp_seq hi₃ (sync_spec hi₃ hx₃) fun ok s₄ hi₄ h => ?_
      obtain ⟨hok, hx₄⟩ := h
      have hslots : (fun sl => (Function.update (Function.update x.slot .cscratch (.staged bs))
          .cscratch (.up g bs) sl).synced ok) =
          Function.update x.slot .cscratch ((SlotSt.up g bs).synced ok) := by
        funext sl
        rw [Function.update_idem, Function.update_apply, Function.update_apply]
        split
        · rfl
        · exact SlotSt.synced_of_calm (hc sl) ok
      simp only [hslots] at hx₄
      refine wp_seq hi₄ (publish_spec (p := m.page ⟨.scratch, 0⟩) hi₄ hx₄ hb hent
        (hcalm _ (SlotSt.synced_calm _ ok)) hbusy hset (by simp) rfl hsz fun hm =>
          ⟨.cscratch, ?_⟩) fun _ s₅ hi₅ h => ?_
      · simp [hok hm.1, SlotSt.synced, hbs]
      obtain ⟨e, new, page, he, hnew, hmut, hpage, hx₅⟩ := h
      refine wp_seq hi₅ (retire_spec hi₅ hx₅ hal ?_ ?_ rfl he (by omega) hbusy
        hset) fun _ s₆ _ hx₆ => ?_
      · intro sl
        refine forget_calm ?_ sl
        exact hcalm _ (SlotSt.synced_calm _ ok)
      · simp only [Local.stored, displaced, hd]
      · have htg : ((SlotSt.up g bs).synced ok).target = none ∨
            ((SlotSt.up g bs).synced ok).target.map Prod.fst = some g := by
          cases ok
          · exact .inl rfl
          · exact .inr rfl
        have hfor := hx₁'.forget_fresh hr htg (r := Function.update x.resv g (some sz))
        simp only [Function.update_idem] at hfor
        simp only [Local.stored, hfor, Function.update_idem] at hx₆
        rw [← hr] at hx₆
        simp only [Function.update_eq_self, ← hd] at hx₆
        refine .ok ?_ ?_ hnew hmut hpage hx₆
        · split
          · exact SlotSt.synced_calm _ ok
          · trivial
        · split
          · assumption
          · rfl
    · simp only [if_true]
      refine wp_seq hi₃ (slotFree_spec hi₃ hx₃ hal (hcalm _ trivial) (.inl (by simp)) htgt)
        fun _ s₄ _ hx₄ => ?_
      simp only [Function.update_idem, hd, List.erase_nil] at hx₄
      rw [← hr] at hx₄
      simp only [Function.update_eq_self, ← hd] at hx₄
      exact .rejected (show (SlotSt.staged bs).Calm from trivial) rfl hla hx₄

/-! ## What storing comes to

A request's bytes are stored piece by piece, a piece lying in one block. -/

/-- Bytes with their address. -/
abbrev Piece : Type := ℕ × List UInt8

def Piece.blk (p : Piece) : ℕ := p.1 / 4096

/-- The mutation that stores a piece. -/
def Piece.wrote (cfg : Config) (md : Mode) (req : ℕ) (p : Piece) : Item Disk Mut :=
  NbdVram.wrote cfg md req p.1 p.2

/-- Storing the pieces `ps` has stored those of `sub`, met the faults `fs` and answered `err`. -/
structure StoredAs (cfg : Config) (md : Mode) (req : ℕ) (ps sub : List Piece) (err : Err)
    (fs : List Fault) : Prop where
  sublist : sub.Sublist ps
  all : err = .ok → sub = ps
  tags : ∀ f ∈ fs, f.tag.req = req ∧ ∃ p ∈ ps, Piece.blk p = f.tag.blk
  out : ∀ f ∈ fs, ∀ p ∈ sub, Piece.blk p ≠ f.tag.blk
  verdict : err = NbdVram.verdict fs
  ok : md.Stores cfg → md.alloc = true → md.launch = true → err = .ok

theorem Err.merge_ok {e e' : Err} : e.merge e' = .ok ↔ e = .ok ∧ e' = .ok := by
  cases e <;> cases e' <;> decide

theorem Err.merge_eio {e e' : Err} : e.merge e' = .eio ↔ e = .eio ∨ e' = .eio := by
  cases e <;> cases e' <;> decide

theorem verdict_ok {fs : List Fault} : verdict fs = .ok ↔ fs = [] := by
  unfold verdict
  split
  · rename_i h
    obtain ⟨f, hf, -⟩ := h
    simp [List.ne_nil_of_mem hf]
  · split <;> simp [*]

theorem verdict_eio {fs : List Fault} : verdict fs = .eio ↔ ∃ f ∈ fs, f.eio = true := by
  unfold verdict
  split
  · simp [*]
  · split <;> simp [*]

theorem verdict_enospc {fs : List Fault} :
    verdict fs = .enospc ↔ fs ≠ [] ∧ ∀ f ∈ fs, f.eio = false := by
  unfold verdict
  split
  · rename_i h
    obtain ⟨f, hf, he⟩ := h
    simp only [reduceCtorEq, ne_eq, false_iff, not_and, not_forall]
    exact fun _ => ⟨f, hf, by simp [he]⟩
  · rename_i h
    push Not at h
    have hall : ∀ f ∈ fs, f.eio = false := fun f hf => by simpa using h f hf
    split
    · simp_all
    · rename_i hne
      exact iff_of_true rfl ⟨hne, hall⟩

theorem verdict_ne_einval (fs : List Fault) : verdict fs ≠ .einval := by
  unfold verdict
  split
  · simp
  · split <;> simp

/-- Errors that are not `EINVAL` are told apart by two questions. -/
theorem Err.eq_of_iff {e e' : Err} (h : e ≠ .einval) (h' : e' ≠ .einval)
    (hok : e = .ok ↔ e' = .ok) (heio : e = .eio ↔ e' = .eio) : e = e' := by
  cases e <;> cases e' <;> simp_all

theorem verdict_append (fs fs' : List Fault) :
    verdict (fs' ++ fs) = (verdict fs).merge (verdict fs') := by
  apply Err.eq_of_iff (verdict_ne_einval _)
  · have h1 := verdict_ne_einval fs
    have h2 := verdict_ne_einval fs'
    generalize verdict fs = e, verdict fs' = e' at h1 h2 ⊢
    cases e <;> cases e' <;> simp_all [Err.merge]
  · rw [Err.merge_ok, verdict_ok, verdict_ok, verdict_ok, List.append_eq_nil_iff, and_comm]
  · rw [Err.merge_eio, verdict_eio, verdict_eio, verdict_eio]
    simp only [List.mem_append, or_and_right, exists_or, or_comm]

@[simp] theorem Err.merge_ok_left (e : Err) : Err.ok.merge e = e := by
  cases e <;> rfl

@[simp] theorem Err.merge_ok_right (e : Err) : e.merge .ok = e := by
  cases e <;> rfl

namespace StoredAs

variable {req : ℕ} {ps ps' sub sub' : List Piece} {err err' : Err} {fs fs' : List Fault}

theorem nil : StoredAs cfg md req [] [] .ok [] :=
  ⟨.slnil, fun _ => rfl, by simp, by simp, (verdict_ok.mpr rfl).symm, fun _ _ _ => rfl⟩

theorem append (h : StoredAs cfg md req ps sub err fs) (h' : StoredAs cfg md req ps' sub' err' fs')
    (hd : ∀ p ∈ ps, ∀ q ∈ ps', Piece.blk p ≠ Piece.blk q) :
    StoredAs cfg md req (ps ++ ps') (sub ++ sub') (err.merge err') (fs' ++ fs) := by
  refine ⟨h.sublist.append h'.sublist, fun he => ?_, fun f hf => ?_, fun f hf p hp => ?_, ?_,
    fun h1 h2 h3 => ?_⟩
  · rw [Err.merge_ok] at he
    rw [h.all he.1, h'.all he.2]
  · rcases List.mem_append.mp hf with hf | hf
    · obtain ⟨h1, p, hp, h2⟩ := h'.tags f hf
      exact ⟨h1, p, List.mem_append_right _ hp, h2⟩
    · obtain ⟨h1, p, hp, h2⟩ := h.tags f hf
      exact ⟨h1, p, List.mem_append_left _ hp, h2⟩
  · rcases List.mem_append.mp hf with hf | hf <;> rcases List.mem_append.mp hp with hp | hp
    · obtain ⟨-, q, hq, h2⟩ := h'.tags f hf
      rw [← h2]
      exact hd p (h.sublist.subset hp) q hq
    · exact h'.out f hf p hp
    · exact h.out f hf p hp
    · obtain ⟨-, q, hq, h2⟩ := h.tags f hf
      rw [← h2]
      exact (hd q hq p (h'.sublist.subset hp)).symm
  · rw [verdict_append, ← h.verdict, ← h'.verdict]
  · rw [h.ok h1 h2 h3, h'.ok h1 h2 h3]
    rfl

/-- After a failure the rest is not stored. -/
theorem skip (h : StoredAs cfg md req ps sub err fs) (he : err ≠ .ok) :
    StoredAs cfg md req (ps ++ ps') sub err fs := by
  refine ⟨h.sublist.trans (List.sublist_append_left _ _), fun h' => absurd h' he, fun f hf => ?_, h.out,
    h.verdict, h.ok⟩
  obtain ⟨h1, p, hp, h2⟩ := h.tags f hf
  exact ⟨h1, p, List.mem_append_left _ hp, h2⟩

end StoredAs

/-- From `x` to `x'` worker `w` has done `is` and met the faults `fs`, and has not touched its
connection. -/
structure Did (w : ℕ) (x : Local) (is : List (Item Disk Mut)) (fs : List Fault) (x' : Local) :
    Prop where
  script : Script w x.log is x'.log
  net : x'.priv.net = x.priv.net
  start : x'.priv.start = x.priv.start
  faults : x'.priv.faults = fs ++ x.priv.faults

namespace Did

variable {x' x'' : Local} {is is' : List (Item Disk Mut)} {fs fs' : List Fault}

theorem refl : Did w x [] [] x := ⟨Script.refl, rfl, rfl, rfl⟩

theorem trans (h : Did w x is fs x') (h' : Did w x' is' fs' x'') :
    Did w x (is ++ is') (fs' ++ fs) x'' :=
  ⟨h.script.trans h'.script, h'.net.trans h.net, h'.start.trans h.start,
    by rw [h'.faults, h.faults, List.append_assoc]⟩

end Did

/-- Only the buffer `scratch` differs. -/
structure Mem.Scratch (m m' : Mem) : Prop where
  ops : m'.ops = m.ops
  reqs : m'.reqs = m.reqs
  buf : ∀ b, b ≠ Buf.scratch → m'.buf b = m.buf b

theorem Mem.Scratch.write {m m' : Mem} (h : m.Scratch m') (a : ℕ) (bs : List UInt8) :
    m.Scratch (m'.write ⟨.scratch, a⟩ bs) :=
  ⟨h.ops, h.reqs, fun b hb => (Function.update_of_ne hb _ _).trans (h.buf b hb)⟩

theorem Mem.Scratch.refl (m : Mem) : m.Scratch m := ⟨rfl, rfl, fun _ _ => rfl⟩

/-- A page of the device overlaid in `scratch` and written back is the overlay on the device. -/
theorem overlay_page {d : Disk} {m : Mem} {boff : ℕ} {bs : List UInt8}
    (hb : boff + bs.length ≤ 4096) :
    splice d (b * 4096) (((m.write ⟨.scratch, 0⟩ (pageOf d b).bytes).write ⟨.scratch, boff⟩ bs).page
      ⟨.scratch, 0⟩).bytes = splice d (b * 4096 + boff) bs := by
  apply splice_page hb
  intro i hi
  simp only [Mem.page, Mem.write, Page.read_bytes, Function.update_self]
  rw [slice_getD hi, Nat.zero_add]
  by_cases h : boff ≤ i ∧ i < boff + bs.length
  · obtain ⟨k, rfl⟩ := Nat.exists_eq_add_of_le h.1
    rw [splice_at (by omega), ← Nat.add_assoc, splice_at (by omega)]
  · have := splice_at (f := m.buf .scratch) (a := 0) (k := i)
      (l := (pageOf d b).bytes) (by rw [(pageOf d b).length_eq]; exact hi)
    rw [Nat.zero_add] at this
    rw [splice_out (by omega), this, splice_out (by omega), pageOf, Page.read_bytes, slice_getD hi]

/-- No copy is queued for the slot, and none was made from it to a reservation. -/
def SlotSt.Quiet (st : SlotSt) : Prop := st.Calm ∧ st.target = none

theorem Local.Rest.after {x' : Local} (hr : x.Rest md) (hl : x'.locks = []) (he : x'.entry = none)
    (hd : x'.disp = x.disp) (hv : x'.resv = x.resv) (hb : x'.priv.busy = x.priv.busy)
    (hs : ∀ sl, (x'.slot sl).Quiet) (hg : x.log.length ≤ x'.log.length) : x'.Rest md :=
  ⟨hl, he, hd.trans hr.disp, fun sl => (hs sl).1, fun sl => (hs sl).2, by rw [hv]; exact hr.resv,
    hb.trans hr.busy, hr.since.trans hg⟩

theorem Local.Rest.quiet (hr : x.Rest md) (sl : Stage) : (x.slot sl).Quiet :=
  ⟨hr.calm sl, hr.target sl⟩

theorem SlotSt.Quiet.update {f : Stage → SlotSt} (hf : ∀ sl, (f sl).Quiet) {st : SlotSt}
    (hst : st.Quiet) (sl sl' : Stage) : (Function.update f sl st sl').Quiet := by
  rw [Function.update_apply]
  split
  · exact hst
  · exact hf sl'

/-- A piece that was stored. -/
theorem StoredAs.stored {req : ℕ} {p : Piece} : StoredAs cfg md req [p] [p] .ok [] :=
  ⟨.refl _, fun _ => rfl, by simp, by simp, (verdict_ok.mpr rfl).symm, fun _ _ _ => rfl⟩

/-- A piece that was not. -/
theorem StoredAs.failed {req : ℕ} {p : Piece} {eio : Bool}
    (ho : md.Stores cfg → md.alloc = true → md.launch = false) :
    StoredAs cfg md req [p] [] (if eio = true then .eio else .enospc)
      [⟨⟨req, Piece.blk p⟩, eio⟩] := by
  refine ⟨List.nil_sublist _, fun h => ?_, fun f h => ?_, by simp, ?_, fun h1 h2 h3 => ?_⟩
  · split at h <;> cases h
  · rw [List.mem_singleton.mp h]
    exact ⟨rfl, p, by simp, rfl⟩
  · cases eio <;> simp [NbdVram.verdict]
  · rw [ho h1 h2] at h3
    cases h3

/-- The end of an operation under a stripe lock. -/
theorem unlockLeave_spec {α : Type} {a : α} (hi : Inv cfg md s) (hx : Loc cfg w x s)
    (hl : x.locks = [stripe b]) (ho : x.priv.Settled) :
    wp (contract cfg md) w (do
      unlock (stripe b)
      event .leave
      pure a)
      (fun r s' => r = a ∧ Loc cfg w { x with
        locks := [], entry := none, priv := { x.priv with busy := false } } s') s :=
  wp_seq hi (unlock_spec hi hx hl) fun _ _ hi₁ hx₁ =>
    wp_seq hi₁ (leave_spec hi₁ hx₁ ho) fun _ _ _ hx₂ => ⟨rfl, hx₂⟩

/-- **`rmw_block`** overlays its bytes on the block as it is at that moment, or fails and leaves
it alone. -/
theorem rmwBlock_spec {boff cnt : ℕ} {src : Ptr} {m : Mem} (hi : Inv cfg md s)
    (hx : Loc cfg w x s) (hr : x.Rest md) (hb : b < cfg.nblocks) (hboff : boff < 4096)
    (hcnt : boff + cnt ≤ 4096) (hsrc : src.buf ≠ .scratch)
    (hin : src.off + cnt ≤ cfg.bufSize src.buf) :
    wp (contract cfg md) w (rmwBlock cfg b boff src cnt m) (fun r s' => ∃ x' sub fs,
      Loc cfg w x' s' ∧ x'.Rest md ∧ m.Scratch r.2 ∧
      Did w x (sub.map (Piece.wrote cfg md 0)) fs x' ∧
      StoredAs cfg md 0 [(b * 4096 + boff, m.read src cnt)] sub r.1 fs) s := by
  have hblk : Piece.blk (b * 4096 + boff, m.read src cnt) = b := by
    simp only [Piece.blk]
    omega
  have hset : x.priv.Settled := hx.settled hi hr.busy
  have hfail : ∀ eio, (md.Stores cfg → md.alloc = true → md.launch = false) →
      StoredAs cfg md 0 [(b * 4096 + boff, m.read src cnt)] [] (if eio = true then .eio else .enospc)
        [⟨⟨0, b⟩, eio⟩] := by
    intro eio ho
    have hf : StoredAs cfg md 0 [(b * 4096 + boff, m.read src cnt)] [] (if eio = true then .eio else .enospc)
        [⟨⟨0, Piece.blk (b * 4096 + boff, m.read src cnt)⟩, eio⟩] := StoredAs.failed ho
    rwa [hblk] at hf
  unfold rmwBlock
  refine wp_seq hi (enter_spec hi hx) fun _ s₀ hi₀ hx₀ => ?_
  refine wp_seq hi₀ (lock_spec hi₀ hx₀ hr.locks) fun _ s₁ hi₁ hx₁ => ?_
  refine wp_seq hi₁ (idxLoad_locked_spec hi₁ hx₁ hb (by simp)) fun old s₂ hi₂ h => ?_
  obtain ⟨new, hnew, hx₂, he⟩ := h
  refine wp_seq hi₂ (fetchLocked_spec hi₂ hx₂ rfl he hr.calm) fun r s₃ hi₃ h => ?_
  obtain ⟨st, fs, hst, htg, hbr, hx₃⟩ := h
  have hq := SlotSt.Quiet.update hr.quiet ⟨hst, htg⟩ .cscratch
  cases hbr with
  | @got p hp =>
      simp only [Bool.true_eq_false, if_false]
      have hread : (m.write ⟨.scratch, 0⟩ p.bytes).read src cnt = m.read src cnt := by
        simp only [Mem.read, Mem.write, Function.update_of_ne hsrc]
      rw [hread]
      refine wp_seq hi₃ (access_spec hi₃ hx₃ hcnt) fun _ s₄ hi₄ hx₄ => ?_
      refine wp_seq hi₄ (access_spec hi₄ hx₄ hin) fun _ s₅ hi₅ hx₅ => ?_
      refine wp_seq hi₅ (rmwStore_spec hi₅ hx₅ rfl hb rfl hr.disp (fun sl => (hq sl).1) rfl hset)
        fun err s₆ hi₆ h => ?_
      have hmem := ((Mem.Scratch.refl m).write 0 p.bytes).write boff (m.read src cnt)
      cases h with
      | @ok st' new' page hst' htg' hnew' hmut hpage hx₆ =>
          refine wp_mono hi₆ (unlockLeave_spec hi₆ hx₆ rfl hset) fun r s₇ _ h => ?_
          obtain ⟨rfl, hx₇⟩ := h
          refine ⟨_, [_], [], hx₇, ?_, hmem, ⟨?_, rfl, rfl, rfl⟩, .stored⟩
          · exact hr.after rfl rfl rfl rfl hr.busy.symm (SlotSt.Quiet.update hq ⟨hst', htg'⟩ .cscratch)
              (by simp [Local.fault])
          · -- no one else has mutated the locked block since it was read
            simp only [Local.fault, List.drop_left] at hmut ⊢
            have hpg : pageOf (disk (x.log ++ new ++ new')) b = pageOf (disk (x.log ++ new)) b := by
              rw [disk_append _ new', pageOf_applyAll hmut]
            rw [List.append_assoc x.log] at hpg ⊢
            refine Script.wrote (hnew.append hnew') hblk.symm fun hm => ?_
            rw [hpage hm, hp hm, ← hpg]
            exact overlay_page (by simpa [Mem.read] using hcnt)
      | refused hst' htg' hal hx₆ =>
          refine wp_mono hi₆ (unlockLeave_spec hi₆ hx₆ rfl hset) fun r s₇ _ h => ?_
          obtain ⟨rfl, hx₇⟩ := h
          refine ⟨_, [], _, hx₇, ?_, hmem, ⟨Script.alien hnew, rfl, rfl, rfl⟩, hfail false ?_⟩
          · exact hr.after rfl rfl rfl rfl hr.busy.symm (SlotSt.Quiet.update hq ⟨hst', htg'⟩ .cscratch)
              (by simp [Local.fault])
          · intro _ h
            rw [hal] at h
            cases h
      | rejected hst' htg' hla hx₆ =>
          refine wp_mono hi₆ (unlockLeave_spec hi₆ hx₆ rfl hset) fun r s₇ _ h => ?_
          obtain ⟨rfl, hx₇⟩ := h
          refine ⟨_, [], _, hx₇, ?_, hmem, ⟨Script.alien hnew, rfl, rfl, rfl⟩,
            hfail true fun _ _ => hla⟩
          exact hr.after rfl rfl rfl rfl hr.busy.symm (SlotSt.Quiet.update hq ⟨hst', htg'⟩ .cscratch)
              (by simp [Local.fault])
  | rejected hla =>
      simp only [if_true]
      refine wp_mono hi₃ (unlockLeave_spec hi₃ hx₃ rfl hset) fun r s₄ _ h => ?_
      obtain ⟨rfl, hx₄⟩ := h
      exact ⟨_, [], _, hx₄, hr.after rfl rfl rfl rfl hr.busy.symm hq (by simp [Local.fault]), .refl m,
        ⟨Script.alien hnew, rfl, rfl, rfl⟩, hfail true fun _ _ => hla⟩
  | corrupt hm =>
      simp only [if_true]
      refine wp_mono hi₃ (unlockLeave_spec hi₃ hx₃ rfl hset) fun r s₄ _ h => ?_
      obtain ⟨rfl, hx₄⟩ := h
      exact ⟨_, [], _, hx₄, hr.after rfl rfl rfl rfl hr.busy.symm hq (by simp [Local.fault]), .refl m,
        ⟨Script.alien hnew, rfl, rfl, rfl⟩, hfail true fun h => absurd h hm⟩

/-! ## Trims -/

/-- A trimmed block: it was overwritten with zeros, or was seen to hold nothing. -/
def Trimmed (cfg : Config) (md : Mode) (b : ℕ) (it : Item Disk Mut) : Prop :=
  it = Piece.wrote cfg md 0 (b * 4096, Page.zero.bytes) ∨
  it = .sees [fun d => pageOf d b = Page.zero]

theorem Script.sees_zero {log new : List Mut} (hf : Alien w new)
    (hz : pageOf (disk (log ++ new)) b = Page.zero) :
    Script w log [.sees [fun d => pageOf d b = Page.zero]] (log ++ new) := by
  refine ⟨new, rfl, Lin.sees hf fun P hP => ⟨new, List.prefix_rfl, ?_⟩⟩
  rw [List.mem_singleton.mp hP, ← disk_append]
  exact hz

theorem trimOne_spec (hi : Inv cfg md s) (hx : Loc cfg w x s) (hr : x.Rest md)
    (hb : b < cfg.nblocks) :
    wp (contract cfg md) w (trimOne b) (fun _ s' => ∃ x' it, Loc cfg w x' s' ∧ x'.Rest md ∧
      Did w x [it] [] x' ∧ Trimmed cfg md b it) s := by
  have hset : x.priv.Settled := hx.settled hi hr.busy
  unfold trimOne
  refine wp_seq hi (idxLoad_spec hi hx hb) fun e s₁ hi₁ h => ?_
  obtain ⟨new, hnew, hx₁, he⟩ := h
  by_cases hz : entClen e = 0
  · simp only [if_pos hz]
    exact ⟨_, _, hx₁, hr.after hr.locks hr.entry rfl rfl rfl hr.quiet (by simp),
      ⟨Script.sees_zero hnew (he.zero hz), rfl, rfl, rfl⟩, .inr rfl⟩
  · simp only [if_neg hz]
    refine wp_seq hi₁ (enter_spec hi₁ hx₁) fun _ s₁' hi₁' hx₁' => ?_
    refine wp_seq hi₁' (lock_spec hi₁' hx₁' hr.locks) fun _ s₂ hi₂ hx₂ => ?_
    refine wp_seq hi₂ (idxLoad_locked_spec hi₂ hx₂ hb (by simp)) fun old s₃ hi₃ h => ?_
    obtain ⟨new', hnew', hx₃, he'⟩ := h
    by_cases ho : entClen old ≠ 0
    · simp only [if_pos ho]
      refine wp_seq hi₃ (trim_spec hi₃ hx₃ hb rfl hr.calm rfl hset) fun _ s₄ hi₄ h => ?_
      obtain ⟨e', new'', hze, hnew'', hx₄⟩ := h
      refine wp_seq hi₄ (unlock_spec hi₄ hx₄ rfl) fun _ s₅ hi₅ hx₅ => ?_
      refine wp_seq hi₅ (freeDisplaced_spec hi₅ hx₅ (by simp) hr.calm
        (by simp [displaced, hr.disp]) ho) fun _ s₆ hi₆ hx₆ => ?_
      have hset' : ({ x.priv with busy := true } : Priv).Settled := hset
      obtain ⟨hlive, htrim⟩ := hset'.left_trim ho hze
      refine payOld_spec hi₆ hx₆ rfl (hset'.left old e' _) (hset'.left old e' _)
        fun s₇ hi₇ hx₇ => ?_
      refine wp_seq hi₇ (ctrSub_spec hi₇ hx₇ fun _ => ⟨by simp [Priv.payOld, Priv.owe], hlive.subs⟩)
        fun _ s₈ hi₈ hx₈ => ?_
      refine wp_seq hi₈ (ctrAdd_spec hi₈ hx₈ fun _ =>
        ⟨by simp [Priv.payOld, Priv.owe], htrim.subs, htrim.owed⟩) fun _ s₉ hi₉ hx₉ => ?_
      simp only [Nat.cast_one, Priv.paid_trim ho hze] at hx₉
      refine wp_mono hi₉ (leave_spec hi₉ hx₉ hset) fun _ s' _ hx' => ?_
      refine ⟨_, _, hx', hr.after rfl rfl hr.disp.symm rfl hr.busy.symm hr.quiet (by simp),
        ⟨?_, rfl, rfl, rfl⟩, .inl rfl⟩
      show Script w x.log _ (x.log ++ new ++ new' ++ new'' ++ [_])
      rw [List.append_assoc x.log, List.append_assoc x.log]
      exact Script.wrote ((hnew.append hnew').append hnew'') (by omega) fun _ => rfl
    · simp only [if_neg ho]
      refine wp_seq hi₃ (unlock_spec hi₃ hx₃ rfl) fun _ s₄ hi₄ hx₄ => ?_
      refine wp_mono hi₄ (leave_spec hi₄ hx₄ hset) fun _ s₅ _ hx₅ =>
        ⟨_, _, hx₅, hr.after rfl rfl rfl rfl hr.busy.symm hr.quiet (by simp), ⟨?_, rfl, rfl, rfl⟩, .inr rfl⟩
      simp only [List.append_assoc x.log] at he' ⊢
      exact Script.sees_zero (hnew.append hnew') (he'.zero (not_not.mp ho))

theorem trimRange_spec {off len : ℕ} (hi : Inv cfg md s) (hx : Loc cfg w x s) (hr : x.Rest md) :
    wp (contract cfg md) w (trimRange cfg off len) (fun _ s' => ∃ x' its, Loc cfg w x' s' ∧
      x'.Rest md ∧ Did w x its [] x' ∧ List.Forall₂ (Trimmed cfg md)
        ((List.range ((trimBounds cfg off len).2 - (trimBounds cfg off len).1)).map
          ((trimBounds cfg off len).1 + ·)) its) s := by
  have hbound : (trimBounds cfg off len).2 ≤ cfg.nblocks := by
    simp only [trimBounds]
    split <;> omega
  simp only [trimRange]
  generalize trimBounds cfg off len = bs at hbound ⊢
  refine wp_forRange (C := contract cfg md) (fun i _ s' => ∃ x' its, Loc cfg w x' s' ∧ x'.Rest md ∧ Did w x its [] x' ∧
    List.Forall₂ (Trimmed cfg md) ((List.range i).map (bs.1 + ·)) its) hi
    ⟨x, [], hx, hr, Did.refl, .nil⟩ fun i _ s₁ hlt hi₁ h => ?_
  obtain ⟨x₁, its, hx₁, hr₁, hd₁, hits⟩ := h
  refine wp_mono hi₁ (trimOne_spec hi₁ hx₁ hr₁ (by omega)) fun _ s₂ _ h => ?_
  obtain ⟨x₂, it, hx₂, hr₂, hd₂, hit⟩ := h
  refine ⟨x₂, its ++ [it], hx₂, hr₂, hd₁.trans hd₂, ?_⟩
  rw [List.range_succ, List.map_append]
  exact List.rel_append hits (.cons hit .nil)

end NbdVram
