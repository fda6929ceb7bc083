import NbdVram.Books

/-!
# What the workers promise each other

`Inv` is the invariant of the shared state. Every allocated slot has exactly one
owner: a written index entry, a worker's reservation, or a worker that has displaced
it and is about to free it. Entries are well formed and count the mutations of their
block, copies to the device only go to reservations of the same worker, and what the
index and the heap stand for is the flat array that the log of mutations describes.

`Pre` says when a worker may perform an action: index stores under the block's
stripe lock and of the worker's own, completely copied reservation; frees of what it
owns; nothing held while it talks to its socket. The claims about reads and replies
are conditions on the events that mark them.
-/

namespace NbdVram

open Interleave Span

/-- Stored bytes are what they should be: synchronizes succeed and the codec round-trips. -/
def Mode.Stores (cfg : Config) (md : Mode) : Prop := md.sync = true ∧ cfg.codec.RoundTrip

/-- Validated reads are sound: as above, and the generation cannot have wrapped. -/
def Mode.Reads (cfg : Config) (md : Mode) : Prop :=
  md.Stores cfg ∧ (md.gen = true ∨ md.solo ≠ none)

inductive Owner
  | entry (b : ℕ)
  | resv (w : ℕ)
  | disp (w : ℕ)
  deriving DecidableEq

/-- `own` tells the one owner of every allocated slot. -/
structure Owned (cfg : Config) (s : State) (own : ℕ → Option Owner) : Prop where
  live : ∀ g, Alloc.Live cfg.heap s.alloc g ↔ own g ≠ none
  entry : ∀ b g, own g = some (.entry b) ↔ entClen (s.index b) ≠ 0 ∧ entGrain (s.index b) = g
  resv : ∀ w g, own g = some (.resv w) ↔ g ∈ s.resv w
  disp : ∀ w g, own g = some (.disp w) ↔ g ∈ s.disp w

/-- The entry of a block that was mutated `k` times. -/
structure EntryOk (cfg : Config) (a : Alloc) (k e : ℕ) : Prop where
  eq : ∃ g n, e = entMake g n k ∧ g < 2 ^ 30 ∧ n ≤ 4096
  fits : entClen e ≠ 0 → entClen e ≤ Alloc.slotSize cfg.heap a (entGrain e)

/-- Address `a` belongs to the slot at grain `g`. -/
def InSlot (cfg : Config) (s : State) (g a : ℕ) : Prop :=
  g * 64 ≤ a ∧ a < g * 64 + Alloc.slotSize cfg.heap s.alloc g

structure Inv (cfg : Config) (md : Mode) (s : State) : Prop where
  alloc : Alloc.Inv cfg.heap s.alloc
  owned : ∃ own, Owned cfg s own
  resv_nodup : ∀ w, (s.resv w).Nodup
  disp_nodup : ∀ w, (s.disp w).Nodup
  entry : ∀ b, EntryOk cfg s.alloc (mutations b s.log) (s.index b)
  pend : ∀ w, ∀ mv ∈ s.pend w, mv.dir = .up → ∃ g ∈ s.resv w, InSlot cfg s g mv.dev
  content : ∀ b, s.content cfg b = pageOf (disk s.log) b
  decodes : md.Stores cfg → ∀ b, entClen (s.index b) ≠ 0 →
    cfg.codec.decompBlock (s.stored (s.index b)) ≠ none
  solo : ∀ v, md.solo = some v → ∀ m ∈ s.log.drop md.since, m.who = v
  books : Books cfg s

/-- A worker between requests: no mutex, no copy in flight, nothing left to free and, unless a
copy of `do_blocks` was rejected, no new reservation. -/
structure Quiet (md : Mode) (w : ℕ) (s : State) : Prop where
  lock : ∀ m, s.lock m ≠ some w
  pend : s.pend w = []
  disp : s.disp w = []
  resv : md.batch = true → ∀ g ∈ s.resv w, g ∈ md.left

/-- The request is for a byte range of the device. -/
def Req.Ranged (r : Req) : Prop := r.cmd = .read ∨ r.cmd = .write ∨ r.cmd = .trim

/-- A range that does not lie on the device. -/
def Req.Oob (cfg : Config) (r : Req) : Prop := r.Ranged ∧ oob cfg r.off r.len

instance (cfg : Config) (r : Req) : Decidable (r.Oob cfg) :=
  inferInstanceAs (Decidable ((_ ∨ _ ∨ _) ∧ _))

/-- The request concerns block `b`. -/
def Req.Touches (r : Req) (b : ℕ) : Prop :=
  0 < r.len ∧ r.off / 4096 ≤ b ∧ b * 4096 < r.off + r.len

/-- The error that the failures of its blocks give a request. -/
def verdict (fs : List Fault) : Err :=
  if ∃ f ∈ fs, f.eio = true then .eio else if fs = [] then .ok else .enospc

/-- The failures of request `i` among those of the requests being served. -/
def Priv.faultsOf (p : Priv) (i : ℕ) : List Fault := p.faults.filter fun f => f.tag.req = i

/-- What holds when worker `w` answers request `i`, `r` with its payload, by `err`: the error
is the verdict on the blocks of this request; no block that failed was published; and a WRITE
without error has published all its bytes since it started. -/
structure ReplyOk (cfg : Config) (md : Mode) (w i : ℕ) (r : Req) (err : Err) (s : State) :
    Prop where
  verdict : err = if r.Oob cfg then .einval else verdict ((s.priv w).faultsOf i)
  blocks : ∀ f ∈ (s.priv w).faultsOf i, r.Touches f.tag.blk
  unpublished : ∀ f ∈ (s.priv w).faultsOf i,
    ∀ m ∈ s.log.drop (s.priv w).start, m.who = w → m.req = i → m.blk ≠ f.tag.blk
  published : r.cmd = .write → err = .ok → ∀ j < r.len,
    ∃ m ∈ s.log.drop (s.priv w).start, m.who = w ∧ m.req = i ∧ m.blk = (r.off + j) / 4096 ∧
      (md.Stores cfg → m.page.bytes.getD ((r.off + j) % 4096) default = r.data.getD j default)

/-- The size of a buffer, as `worker_init` allocates it. -/
def Config.bufSize (cfg : Config) : Buf → ℕ
  | .ubuf => cfg.batchDepth * 65536
  | .iobuf => 262144
  | .scratch => 4096

/-- The access stays inside what was allocated, and the difference is not negative. -/
def Access.Ok (cfg : Config) : Access → Prop
  | .ops i n => i + n ≤ cfg.maxops
  | .reqs i => i < cfg.batchDepth
  | .bytes p n => p.off + n ≤ cfg.bufSize p.buf
  | .slice boff cnt => boff + cnt ≤ 4096
  | .window n nb => nb * 4096 ≤ n
  | .sub a b => b ≤ a

/-- The slot lies in what `worker_init` allocates for staging. -/
def Stage.Ok (cfg : Config) : Stage → Prop
  | .cslot i => i < cfg.maxops
  | .cscratch => True

def EventOk (cfg : Config) (md : Mode) (w : ℕ) (s : State) : Event → Prop
  | .begin _ => Quiet md w s
  | .readDone i b p err => md.Reads cfg → (md.launch = true → err = .ok) ∧
      (err = .ok → ∃ t, (s.priv w).snap i ≤ t ∧ t ≤ s.log.length ∧
        p = pageOf (disk (s.log.take t)) b)
  | .reply i r err => Quiet md w s ∧ ReplyOk cfg md w i r err s
  | .deliver r pos data => Quiet md w s ∧ (md.Reads cfg → ∀ j < data.length,
      ∃ t, (s.priv w).start ≤ t ∧ t ≤ s.log.length ∧
        data.getD j default = disk (s.log.take t) (r.off + pos + j))
  | .enter | .corrupt _ => True
  | .leave => (s.priv w).Settled
  | .access a => a.Ok cfg

/-- When worker `w` may perform an action. -/
def Pre (cfg : Config) (md : Mode) (w : ℕ) (o : Op) (s : State) : Prop :=
  match o with
  | .lock (.stripe _) => ∀ m, s.lock m ≠ some w
  | .lock .alloc => s.lock .alloc ≠ some w
  | .unlock m => s.lock m = some w
  | .idxLoad _ b => b < cfg.nblocks
  | .idxStore _ b e => s.lock (stripe b) = some w ∧ b < cfg.nblocks ∧ s.pend w = [] ∧
      (s.priv w).busy = true ∧ (s.priv w).Settled ∧ ∃ g n, e = entMake g n (entGen (s.index b) + 1) ∧ (g = 0 ∧ n = 0 ∨
        g ∈ s.resv w ∧ n ≤ Alloc.slotSize cfg.heap s.alloc g ∧
          ∃ p, n = (cfg.codec.compBlock p).length ∧
            (md.Stores cfg → slice s.dev (g * 64) n = cfg.codec.compBlock p))
  | .slotAlloc _ n => s.lock .alloc = some w ∧ 1 ≤ n ∧ n ≤ 4096
  | .slotFree g => s.lock .alloc = some w ∧ s.pend w = [] ∧ (g ∈ s.resv w ∨ g ∈ s.disp w)
  | .stageWrite slot _ | .stageRead slot _ => slot.Ok cfg
  | .htod _ slot g n => slot.Ok cfg ∧ g ∈ s.resv w ∧ n ≤ Alloc.slotSize cfg.heap s.alloc g
  | .dtoh _ slot g n => slot.Ok cfg ∧ g * 64 + n ≤ cfg.heap.nExtents * cfg.heap.extentSize
  | .recv _ | .recvNb _ | .send _ | .accept | .running => Quiet md w s
  | .event e => EventOk cfg md w s e
  | .ctrAdd c n => c.kept = true →
      (s.priv w).busy = true ∧ (s.priv w).subs c = 0 ∧ (s.priv w).owed c = n
  | .ctrSub c n => c.kept = true → (s.priv w).busy = true ∧ (s.priv w).subs c = n
  | _ => True

variable {cfg : Config} {md : Mode} {s s' : State} {w b g : ℕ}

/-! ## Reading the invariant -/

theorem EntryOk.gen {a : Alloc} {k e : ℕ} (h : EntryOk cfg a k e) : entGen e = k % 2 ^ 21 := by
  obtain ⟨g, n, rfl, hg, hn⟩ := h.eq
  exact entGen_make hg (by omega)

theorem EntryOk.bounds {a : Alloc} {k e : ℕ} (h : EntryOk cfg a k e) :
    entGrain e < 2 ^ 30 ∧ entClen e ≤ 4096 := by
  obtain ⟨g, n, rfl, hg, hn⟩ := h.eq
  rw [entGrain_make hg (by omega), entClen_make hg (by omega)]
  exact ⟨hg, hn⟩

namespace Inv

theorem entry_live (h : Inv cfg md s) (hb : entClen (s.index b) ≠ 0) :
    Alloc.Live cfg.heap s.alloc (entGrain (s.index b)) := by
  obtain ⟨own, ho⟩ := h.owned
  rw [ho.live, (ho.entry b _).mpr ⟨hb, rfl⟩]
  simp

theorem resv_live (h : Inv cfg md s) (hg : g ∈ s.resv w) : Alloc.Live cfg.heap s.alloc g := by
  obtain ⟨own, ho⟩ := h.owned
  rw [ho.live, (ho.resv w g).mpr hg]
  simp

theorem disp_live (h : Inv cfg md s) (hg : g ∈ s.disp w) : Alloc.Live cfg.heap s.alloc g := by
  obtain ⟨own, ho⟩ := h.owned
  rw [ho.live, (ho.disp w g).mpr hg]
  simp

/-- No reserved slot is named by an index entry. -/
theorem resv_ne_entry (h : Inv cfg md s) (hg : g ∈ s.resv w) (hb : entClen (s.index b) ≠ 0) :
    g ≠ entGrain (s.index b) := by
  obtain ⟨own, ho⟩ := h.owned
  rintro rfl
  have h1 := (ho.resv w _).mpr hg
  rw [(ho.entry b _).mpr ⟨hb, rfl⟩] at h1
  cases h1

theorem resv_ne_resv {v : ℕ} (h : Inv cfg md s) (hg : g ∈ s.resv w) (hv : v ≠ w) :
    g ∉ s.resv v := by
  obtain ⟨own, ho⟩ := h.owned
  intro hg'
  have h1 := (ho.resv w g).mpr hg
  rw [(ho.resv v g).mpr hg', Option.some.injEq, Owner.resv.injEq] at h1
  exact hv h1

/-- Live slots share no address. -/
theorem slot_unique (h : Inv cfg md s) {g' a : ℕ} (hg : Alloc.Live cfg.heap s.alloc g)
    (hg' : Alloc.Live cfg.heap s.alloc g') (ha : InSlot cfg s g a) (ha' : InSlot cfg s g' a) :
    g = g' := by
  obtain ⟨ls, hw⟩ := h.alloc.wf
  by_contra hne
  have := hw.live_disjoint hg hg' hne
  unfold InSlot at ha ha'
  omega

theorem entry_inSlot (h : Inv cfg md s) {i : ℕ} (hi : i < entClen (s.index b)) :
    InSlot cfg s (entGrain (s.index b)) (entGrain (s.index b) * 64 + i) := by
  have := (h.entry b).fits (by omega)
  exact ⟨by omega, by omega⟩

/-- A written entry names bytes inside the heap. -/
theorem entry_in_heap (h : Inv cfg md s) (hb : entClen (s.index b) ≠ 0) :
    entGrain (s.index b) * 64 + entClen (s.index b) ≤ cfg.heap.nExtents * cfg.heap.extentSize := by
  obtain ⟨ls, hw⟩ := h.alloc.wf
  have h1 := (hw.live_range (h.entry_live hb)).2.2
  have h2 := (h.entry b).fits hb
  omega

/-- A change of device memory outside the slots of all entries changes no content. -/
theorem stored_congr (h : Inv cfg md s) {d : ℕ → UInt8}
    (hd : ∀ b a, entClen (s.index b) ≠ 0 → InSlot cfg s (entGrain (s.index b)) a → d a = s.dev a)
    (b : ℕ) : slice d (entGrain (s.index b) * 64) (entClen (s.index b)) = s.stored (s.index b) :=
  slice_congr fun i hi => hd b _ (by omega) (h.entry_inSlot hi)

/-! ## Keeping the invariant -/

/-- Actions that leave the index, the allocator, the log and the owners alone, queue no new
copies to the device and write only outside the slots of entries. -/
theorem frame (h : Inv cfg md s) (hidx : s'.index = s.index) (halloc : s'.alloc = s.alloc)
    (hlog : s'.log = s.log) (hresv : s'.resv = s.resv) (hdisp : s'.disp = s.disp)
    (hpend : ∀ v, ∀ mv ∈ s'.pend v, mv.dir = .up → ∃ g ∈ s.resv v, InSlot cfg s g mv.dev)
    (hdev : ∀ b a, entClen (s.index b) ≠ 0 → InSlot cfg s (entGrain (s.index b)) a →
      s'.dev a = s.dev a)
    (hbooks : Books cfg s') : Inv cfg md s' := by
  have hst : ∀ b, s'.stored (s'.index b) = s.stored (s.index b) := by
    intro b
    rw [hidx]
    exact h.stored_congr hdev b
  refine ⟨by rw [halloc]; exact h.alloc, ?_, by rw [hresv]; exact h.resv_nodup,
    by rw [hdisp]; exact h.disp_nodup, ?_, ?_, ?_, ?_, ?_, hbooks⟩
  · obtain ⟨own, ho⟩ := h.owned
    exact ⟨own, by rw [halloc]; exact ho.live, by rw [hidx]; exact ho.entry,
      by rw [hresv]; exact ho.resv, by rw [hdisp]; exact ho.disp⟩
  · rw [halloc, hlog, hidx]
    exact h.entry
  · intro v mv hmv hup
    rw [hresv]
    unfold InSlot
    rw [halloc]
    exact hpend v mv hmv hup
  · intro b
    rw [hlog, ← h.content b, State.content, State.content, hst, hidx]
  · intro hm b hb
    rw [hst]
    exact h.decodes hm b (by rwa [hidx] at hb)
  · rw [hlog]
    exact h.solo

/-- The device may move any queued byte. -/
theorem move (h : Inv cfg md s) {mv : Move} (hmv : mv ∈ s.pend w) :
    Inv cfg md (s.move w mv) := by
  have hpend : ∀ {t : State}, t.pend = Function.update s.pend w ((s.pend w).erase mv) →
      ∀ v, ∀ mv' ∈ t.pend v, mv'.dir = .up → ∃ g ∈ s.resv v, InSlot cfg s g mv'.dev := by
    intro t ht v mv' hmv' hup
    refine h.pend v mv' ?_ hup
    rw [ht] at hmv'
    by_cases hv : v = w
    · subst hv
      rw [Function.update_self] at hmv'
      exact List.mem_of_mem_erase hmv'
    · rwa [Function.update_of_ne hv] at hmv'
  unfold State.move
  cases hd : mv.dir with
  | up =>
      refine h.frame rfl rfl rfl rfl rfl (hpend rfl) (fun b a hb ha => ?_)
        (h.books.congr rfl rfl rfl (fun _ => rfl) (fun _ => rfl) fun _ => rfl)
      obtain ⟨g, hg, hin⟩ := h.pend w mv hmv hd
      refine Function.update_of_ne ?_ _ _
      rintro rfl
      exact h.resv_ne_entry hg hb (h.slot_unique (h.resv_live hg) (h.entry_live hb) hin ha)
  | down =>
      exact h.frame rfl rfl rfl rfl rfl (hpend rfl) (fun _ _ _ _ => rfl)
        (h.books.congr rfl rfl rfl (fun _ => rfl) (fun _ => rfl) fun _ => rfl)

end Inv

/-- What every queued move keeps, draining the queue keeps; and nothing is queued after it. -/
theorem State.moves_induct {P : State → Prop}
    (hP : ∀ s mv, mv ∈ s.pend w → P s → P (s.move w mv)) (l : List Move) (s : State)
    (hl : s.pend w = l) (hs : P s) : P (s.moves w l) ∧ (s.moves w l).pend w = [] := by
  induction l generalizing s with
  | nil => exact ⟨hs, hl⟩
  | cons mv l ih =>
      refine ih (s.move w mv) ?_ (hP s mv (by simp [hl]) hs)
      have : (s.move w mv).pend w = (s.pend w).erase mv := by
        unfold State.move
        cases mv.dir <;> exact Function.update_self ..
      rw [this, hl, List.erase_cons_head]

namespace Inv

theorem entMake_succ {a : Alloc} {k e : ℕ} (h : EntryOk cfg a k e) {g n : ℕ} (hg : g < 2 ^ 30)
    (hn : n ≤ 4096) : entMake g n (entGen e + 1) = entMake g n (k + 1) := by
  rw [entMake_eq hg (by omega), entMake_eq hg (by omega), h.gen]
  omega

/-- The owners after block `b` has got the entry `e` by worker `w`. -/
def storeOwn (s : State) (w b e : ℕ) (own : ℕ → Option Owner) (g : ℕ) : Option Owner :=
  if entClen e ≠ 0 ∧ g = entGrain e then some (.entry b)
  else if entClen (s.index b) ≠ 0 ∧ g = entGrain (s.index b) then some (.disp w)
  else own g

/-- A store moves its reservation to the block and the displaced slot to the worker. -/
theorem storeOwned (h : Inv cfg md s) {own : ℕ → Option Owner} (ho : Owned cfg s own) {req e : ℕ}
    (he : entClen e ≠ 0 → entGrain e ∈ s.resv w) :
    Owned cfg (s.store cfg w req b e) (storeOwn s w b e own) := by
  have hnd := h.resv_nodup w
  have hnew : entClen e ≠ 0 → own (entGrain e) = some (.resv w) :=
    fun hc => (ho.resv w _).mpr (he hc)
  have hold : ∀ c, entClen (s.index c) ≠ 0 → own (entGrain (s.index c)) = some (.entry c) :=
    fun c hc => (ho.entry c _).mpr ⟨hc, rfl⟩
  refine ⟨fun g => ?_, fun c g => ?_, fun v g => ?_, fun v g => ?_⟩
  · show Alloc.Live cfg.heap s.alloc g ↔ _
    rw [ho.live]
    unfold storeOwn
    split
    · rename_i hc
      simp [hc.2, hnew hc.1]
    · split
      · rename_i hc
        simp [hc.2, hold b hc.1]
      · rfl
  · show _ ↔ entClen (Function.update s.index b e c) ≠ 0 ∧
      entGrain (Function.update s.index b e c) = g
    have hc := ho.entry c g
    have hb := hold b
    have hcc := hold c
    rw [Function.update_apply]
    unfold storeOwn
    split <;> split <;> try split
    all_goals grind
  · show _ ↔ g ∈ (if entClen e = 0 then s.resv
      else Function.update s.resv w ((s.resv w).erase (entGrain e))) v
    have hr := ho.resv v g
    have hb := hold b
    have hmem := hnd.mem_erase_iff (a := g) (b := entGrain e)
    unfold storeOwn
    split <;> split <;> try split
    all_goals grind [Function.update_apply]
  · show _ ↔ g ∈ (if entClen (s.index b) = 0 then s.disp
      else Function.update s.disp w (entGrain (s.index b) :: s.disp w)) v
    have hr := ho.disp v g
    have hb := hold b
    unfold storeOwn
    split <;> split <;> try split
    all_goals grind [Function.update_apply]

theorem store (h : Inv cfg md s) {req e : ℕ} (hp : Pre cfg md w (.idxStore req b e) s)
    (hw : ∀ v, md.solo = some v → w = v) : Inv cfg md (s.store cfg w req b e) := by
  obtain ⟨-, hb, hpend, hbusy, -, g, n, he, hgn⟩ := hp
  have hbnd : g < 2 ^ 30 ∧ n ≤ 4096 := by
    rcases hgn with ⟨rfl, rfl⟩ | ⟨hg, -, p, rfl, -⟩
    · exact ⟨by decide, by decide⟩
    · obtain ⟨ls, hwf⟩ := h.alloc.wf
      exact ⟨hwf.live_lt (h.resv_live hg), (cfg.codec.compBlock_length p).2⟩
  have hgr : entGrain e = g := by rw [he, entGrain_make hbnd.1 (by omega)]
  have hcl : entClen e = n := by rw [he, entClen_make hbnd.1 (by omega)]
  have hgn' : entClen e ≠ 0 → g ∈ s.resv w ∧ n ≤ Alloc.slotSize cfg.heap s.alloc g ∧
      (md.Stores cfg → cfg.codec.decompBlock (slice s.dev (g * 64) n) ≠ none) := by
    intro hc
    rcases hgn with ⟨-, rfl⟩ | ⟨hg, hsz, p, -, hbytes⟩
    · exact absurd hcl hc
    · refine ⟨hg, hsz, fun hm => ?_⟩
      rw [hbytes hm, Codec.decomp_comp hm.2]
      exact Option.some_ne_none p
  obtain ⟨own, ho⟩ := h.owned
  refine ⟨h.alloc, ⟨_, storeOwned h ho fun hc => by rw [hgr]; exact (hgn' hc).1⟩,
    fun v => ?_, fun v => ?_, fun c => ?_, fun v mv hmv hup => ?_, fun c => ?_,
    fun hm c => ?_, fun v hv m hm => ?_, h.books.store hb hbusy⟩
  · show ((if entClen e = 0 then s.resv
      else Function.update s.resv w ((s.resv w).erase (entGrain e))) v).Nodup
    split
    · exact h.resv_nodup v
    · rw [Function.update_apply]
      split
      · exact (h.resv_nodup w).erase _
      · exact h.resv_nodup v
  · show ((if entClen (s.index b) = 0 then s.disp
      else Function.update s.disp w (entGrain (s.index b) :: s.disp w)) v).Nodup
    split
    · exact h.disp_nodup v
    · rename_i hc
      rw [Function.update_apply]
      split
      · refine List.nodup_cons.mpr ⟨fun hmem => ?_, h.disp_nodup w⟩
        have h1 := (ho.disp w _).mpr hmem
        rw [(ho.entry b _).mpr ⟨hc, rfl⟩] at h1
        cases h1
      · exact h.disp_nodup v
  · show EntryOk cfg s.alloc (mutations c (s.log ++ [_])) (Function.update s.index b e c)
    rw [mutations_append, mutations_single, Function.update_apply]
    by_cases hc : c = b
    · rw [if_pos hc, if_pos hc.symm, hc]
      refine ⟨⟨g, n, ?_, hbnd.1, hbnd.2⟩, fun hz => ?_⟩
      · rw [he, entMake_succ (h.entry b) hbnd.1 hbnd.2]
      · rw [hcl, hgr]
        exact (hgn' hz).2.1
    · rw [if_neg hc, if_neg (fun h => hc h.symm), Nat.add_zero]
      exact h.entry c
  · by_cases hv : v = w
    · subst hv
      have : mv ∈ s.pend v := hmv
      rw [hpend] at this
      cases this
    · obtain ⟨g', hg', hin⟩ := h.pend v mv hmv hup
      refine ⟨g', ?_, hin⟩
      show g' ∈ (if entClen e = 0 then s.resv
        else Function.update s.resv w ((s.resv w).erase (entGrain e))) v
      split
      · exact hg'
      · rwa [Function.update_of_ne hv]
  · show _ = pageOf (disk (s.log ++ [_])) c
    rw [disk_concat, pageOf_app]
    by_cases hc : c = b
    · rw [if_pos hc, hc]
      rfl
    · rw [if_neg hc, ← h.content c]
      simp only [State.content, State.store, State.stored, Function.update_of_ne hc]
  · show entClen (Function.update s.index b e c) ≠ 0 → cfg.codec.decompBlock
      (slice s.dev (entGrain (Function.update s.index b e c) * 64)
        (entClen (Function.update s.index b e c))) ≠ none
    rw [Function.update_apply]
    split
    · rw [hgr, hcl]
      exact fun hz => (hgn' (by rwa [hcl])).2.2 hm
    · exact h.decodes hm c
  · have hm : m ∈ (s.log ++ [_]).drop md.since := hm
    rw [List.drop_append, List.mem_append] at hm
    rcases hm with hm | hm
    · exact h.solo v hv m hm
    · rw [List.mem_singleton.mp (List.mem_of_mem_drop hm)]
      exact hw v hv

/-- A step of the allocator that keeps the live grains of the entries, and their sizes. -/
theorem realloc (h : Inv cfg md s) {a : Alloc} (ha : Alloc.Inv cfg.heap a)
    {own : ℕ → Option Owner} (ho : Owned cfg s' own) (hidx : s'.index = s.index)
    (halloc : s'.alloc = a) (hdev : s'.dev = s.dev)
    (hpend : s'.pend = s.pend) (hlog : s'.log = s.log) (hbooks : Books cfg s')
    (hsz : ∀ g, Alloc.Live cfg.heap s.alloc g → Alloc.Live cfg.heap a g →
      Alloc.slotSize cfg.heap a g = Alloc.slotSize cfg.heap s.alloc g)
    (hr : ∀ v, (s'.resv v).Nodup) (hd : ∀ v, (s'.disp v).Nodup)
    (hup : ∀ v g, s.pend v ≠ [] → g ∈ s.resv v → g ∈ s'.resv v) : Inv cfg md s' := by
  have hst : ∀ e, s'.stored e = s.stored e := by
    intro e
    rw [State.stored, State.stored, hdev]
  have hlive : ∀ {g}, own g ≠ none → Alloc.Live cfg.heap a g := by
    intro g hg
    rw [← halloc]
    exact (ho.live g).mpr hg
  refine ⟨by rw [halloc]; exact ha, ⟨own, ho⟩, hr, hd, fun c => ?_, fun v mv hmv hu => ?_,
    fun c => ?_, fun hm c hc => ?_, ?_, hbooks⟩
  · rw [halloc, hlog, hidx]
    refine ⟨(h.entry c).eq, fun hc => ?_⟩
    have hown : own (entGrain (s.index c)) = some (.entry c) :=
      (ho.entry c _).mpr ⟨by rwa [hidx], by rw [hidx]⟩
    rw [hsz _ (h.entry_live hc) (hlive (by rw [hown]; simp))]
    exact (h.entry c).fits hc
  · rw [hpend] at hmv
    obtain ⟨g, hg, hin⟩ := h.pend v mv hmv hu
    have hg' := hup v g (List.ne_nil_of_mem hmv) hg
    refine ⟨g, hg', ?_⟩
    unfold InSlot at hin ⊢
    rw [halloc, hsz g (h.resv_live hg) (hlive (by rw [(ho.resv v g).mpr hg']; simp))]
    exact hin
  · rw [hlog, ← h.content c, State.content, State.content, hst, hidx]
  · rw [hst, hidx]
    exact h.decodes hm c (by rwa [hidx] at hc)
  · rw [hlog]
    exact h.solo

theorem slotAlloc (h : Inv cfg md s) {n g sz : ℕ} {a : Alloc}
    (ha : Alloc.Allocated cfg.heap s.alloc n g sz a) :
    Inv cfg md { s with alloc := a, resv := Function.update s.resv w (g :: s.resv w) } := by
  obtain ⟨own, ho⟩ := h.owned
  have hnone : own g = none := by
    by_contra hne
    exact ha.fresh ((ho.live g).mpr hne)
  have hnot : ∀ v, g ∉ s.resv v := fun v hg => by
    rw [(ho.resv v g).mpr hg] at hnone
    cases hnone
  refine h.realloc ha.inv (show Owned cfg _ (Function.update own g (some (.resv w))) from
    ⟨fun g' => ?_, fun c g' => ?_, fun v g' => ?_, fun v g' => ?_⟩) rfl rfl rfl rfl rfl
    (h.books.congr rfl rfl rfl (fun _ => rfl) (fun _ => rfl) fun _ => rfl)
    (fun g' hl _ => ha.sizes g' hl) (fun v => ?_) h.disp_nodup (fun v g' _ hg' => ?_)
  · show Alloc.Live cfg.heap a g' ↔ _
    rw [ha.live, ho.live, Function.update_apply]
    split <;> simp_all
  · show _ ↔ entClen (s.index c) ≠ 0 ∧ entGrain (s.index c) = g'
    rw [← ho.entry c g', Function.update_apply]
    split <;> simp_all
  · show _ ↔ g' ∈ Function.update s.resv w (g :: s.resv w) v
    have := ho.resv v g'
    rw [Function.update_apply, Function.update_apply]
    split <;> split <;> simp_all [eq_comm]
  · show _ ↔ g' ∈ s.disp v
    rw [← ho.disp v g', Function.update_apply]
    split <;> simp_all
  · show (Function.update s.resv w (g :: s.resv w) v).Nodup
    rw [Function.update_apply]
    split
    · exact List.nodup_cons.mpr ⟨hnot w, h.resv_nodup w⟩
    · exact h.resv_nodup v
  · show g' ∈ Function.update s.resv w (g :: s.resv w) v
    rw [Function.update_apply]
    split
    · rename_i hv
      subst hv
      exact List.mem_cons_of_mem _ hg'
    · exact hg'

theorem slotFree (h : Inv cfg md s) {sz : ℕ} {a : Alloc} (hown : g ∈ s.resv w ∨ g ∈ s.disp w)
    (hp : s.pend w = []) (ha : Alloc.Freed cfg.heap s.alloc g sz a) :
    Inv cfg md { s with
      alloc := a
      resv := Function.update s.resv w ((s.resv w).erase g)
      disp := Function.update s.disp w ((s.disp w).erase g) } := by
  obtain ⟨own, ho⟩ := h.owned
  have hwas : own g = some (.resv w) ∨ own g = some (.disp w) :=
    hown.imp (ho.resv w g).mpr (ho.disp w g).mpr
  have hr : ∀ v g', g' ∈ Function.update s.resv w ((s.resv w).erase g) v ↔
      g' ≠ g ∧ g' ∈ s.resv v := by
    intro v g'
    have := ho.resv v g
    have := (h.resv_nodup w).mem_erase_iff (a := g') (b := g)
    rw [Function.update_apply]
    grind
  have hd : ∀ v g', g' ∈ Function.update s.disp w ((s.disp w).erase g) v ↔
      g' ≠ g ∧ g' ∈ s.disp v := by
    intro v g'
    have := ho.disp v g
    have := (h.disp_nodup w).mem_erase_iff (a := g') (b := g)
    rw [Function.update_apply]
    grind
  refine h.realloc ha.inv (show Owned cfg _ (Function.update own g none) from
    ⟨fun g' => ?_, fun c g' => ?_, fun v g' => ?_, fun v g' => ?_⟩) rfl rfl rfl rfl rfl
    (h.books.congr rfl rfl rfl (fun _ => rfl) (fun _ => rfl) fun _ => rfl)
    (fun g' _ hl => ha.sizes g' hl) (fun v => ?_) (fun v => ?_) (fun v g' hne hg' => ?_)
  · show Alloc.Live cfg.heap a g' ↔ _
    rw [ha.live, ho.live, Function.update_apply]
    split <;> simp_all
  · show _ ↔ entClen (s.index c) ≠ 0 ∧ entGrain (s.index c) = g'
    rw [← ho.entry c g', Function.update_apply]
    split
    · rename_i hg
      subst hg
      rcases hwas with hx | hx <;> simp [hx]
    · rfl
  · show _ ↔ g' ∈ Function.update s.resv w ((s.resv w).erase g) v
    rw [hr, ← ho.resv v g', Function.update_apply]
    split <;> simp_all
  · show _ ↔ g' ∈ Function.update s.disp w ((s.disp w).erase g) v
    rw [hd, ← ho.disp v g', Function.update_apply]
    split <;> simp_all
  · show (Function.update s.resv w ((s.resv w).erase g) v).Nodup
    rw [Function.update_apply]
    split
    · exact (h.resv_nodup w).erase g
    · exact h.resv_nodup v
  · show (Function.update s.disp w ((s.disp w).erase g) v).Nodup
    rw [Function.update_apply]
    split
    · exact (h.disp_nodup w).erase g
    · exact h.disp_nodup v
  · have hv : v ≠ w := by
      rintro rfl
      exact hne hp
    show g' ∈ Function.update s.resv w ((s.resv w).erase g) v
    rwa [Function.update_of_ne hv]

/-- Queueing a copy: to the device only into an own reservation. -/
theorem launch (h : Inv cfg md s) {dir : Dir} {slot : Stage} {n : ℕ}
    (hg : dir = .up → g ∈ s.resv w ∧ n ≤ Alloc.slotSize cfg.heap s.alloc g) :
    Inv cfg md (s.launch w dir slot g n) := by
  refine h.frame rfl rfl rfl rfl rfl (fun v mv hmv hup => ?_) (fun _ _ _ _ => rfl)
    (h.books.congr rfl rfl rfl (fun _ => rfl) (fun _ => rfl) fun _ => rfl)
  have hmv : mv ∈ Function.update s.pend w (s.pend w ++
      (List.range n).map fun i => ⟨dir, g * 64 + i, slot, i⟩) v := hmv
  rw [Function.update_apply] at hmv
  split at hmv
  · rename_i hv
    subst hv
    rcases List.mem_append.mp hmv with hmv | hmv
    · exact h.pend v mv hmv hup
    · obtain ⟨i, hi, rfl⟩ := List.mem_map.mp hmv
      obtain ⟨hg', hn⟩ := hg hup
      have := List.mem_range.mp hi
      exact ⟨g, hg', by simp, by simp only; omega⟩
  · exact h.pend v mv hmv hup

end Inv

/-- **Every admissible action performed under its condition keeps the invariant.** -/
theorem inv_exec {o : Op} {c : Choice} {r : o.Res} (h : Inv cfg md s) (hp : Pre cfg md w o s)
    (ha : md.Adm cfg w o c s) (he : exec cfg w o c s = some (r, s')) : Inv cfg md s' := by
  -- an action that touches only counters, staging or the worker's own history
  have hframe : ∀ {t : State}, t.index = s.index → t.alloc = s.alloc → t.log = s.log →
      t.resv = s.resv → t.disp = s.disp → t.pend = s.pend → t.dev = s.dev →
      Books cfg t → Inv cfg md t := by
    intro t h1 h2 h3 h4 h5 h6 h7 h9
    refine h.frame h1 h2 h3 h4 h5 (fun v mv hmv hup => ?_) (fun _ _ _ _ => by rw [h7]) h9
    exact h.pend v mv (by rwa [h6] at hmv) hup
  -- the books do not look at the rest of the state
  have hsame : ∀ {t : State}, t.index = s.index → t.ctr = s.ctr → t.births = s.births →
      t.priv = s.priv → Books cfg t := fun h1 h2 h3 h4 =>
    h.books.congr h1 h2 h3 (fun v => by rw [h4]) (fun v => by rw [h4]) fun v => by rw [h4]
  cases o with
  | lock m =>
      simp only [exec] at he
      split at he <;> cases he
      exact h.frame rfl rfl rfl rfl rfl h.pend (fun _ _ _ _ => rfl) (hsame rfl rfl rfl rfl)
  | unlock m =>
      cases he
      exact h.frame rfl rfl rfl rfl rfl h.pend (fun _ _ _ _ => rfl) (hsame rfl rfl rfl rfl)
  | idxLoad why b =>
      cases why <;> cases he
      · exact h
      · exact hframe rfl rfl rfl rfl rfl rfl rfl (h.books.setPriv rfl rfl rfl)
      · exact h
  | idxStore req b e =>
      cases he
      exact h.store hp ha
  | slotAlloc tag n =>
      simp only [exec] at he
      split at he
      · cases he
        exact hframe rfl rfl rfl rfl rfl rfl rfl (h.books.setPriv rfl rfl rfl)
      · rename_i hne
        cases he
        rcases Alloc.slotAlloc_spec h.alloc hp.2.1 hp.2.2 with ⟨hr, -⟩ | hok
        · exact absurd (.inr (by rw [hr])) hne
        · exact h.slotAlloc hok
  | slotFree g =>
      cases he
      refine h.slotFree hp.2.2 hp.2.1 (Alloc.slotFree_live h.alloc ?_)
      exact hp.2.2.elim h.resv_live h.disp_live
  | htod tag slot g n =>
      simp only [exec] at he
      split at he <;> cases he
      · exact hframe rfl rfl rfl rfl rfl rfl rfl (h.books.setPriv rfl rfl rfl)
      · exact h.launch fun _ => hp.2
  | dtoh tag slot g n =>
      simp only [exec] at he
      split at he <;> cases he
      · exact hframe rfl rfl rfl rfl rfl rfl rfl (h.books.setPriv rfl rfl rfl)
      · exact h.launch fun hd => by cases hd
  | sync =>
      simp only [exec] at he
      split at he <;> cases he
      · refine h.frame rfl rfl rfl rfl rfl (fun v mv hmv hup => ?_) (fun _ _ _ _ => rfl) (hsame rfl rfl rfl rfl)
        simp only [Function.update_apply] at hmv
        split at hmv
        · cases hmv
        · exact h.pend v mv hmv hup
      · exact (State.moves_induct (fun s mv hmv hs => hs.move hmv) _ s rfl h).1
  | ctrAdd c n =>
      cases he
      exact hframe rfl rfl rfl rfl rfl rfl rfl
        (h.books.pay (fun hc => (hp hc).1) (Nat.mod_lt _ (by decide)) (add_modEq _ _))
  | ctrSub c n =>
      cases he
      exact hframe rfl rfl rfl rfl rfl rfl rfl
        (h.books.pay (fun hc => (hp hc).1) (Nat.mod_lt _ (by decide)) (sub_modEq _ _))
  | recv n | recvNb n | send bs | accept =>
      simp only [exec] at he
      repeat' split at he
      all_goals cases he
      all_goals first
        | exact hframe rfl rfl rfl rfl rfl rfl rfl (hsame rfl rfl rfl rfl)
        | exact hframe rfl rfl rfl rfl rfl rfl rfl (h.books.setPriv rfl rfl rfl)
  | event e =>
      cases e with
      | enter =>
          cases he
          exact hframe rfl rfl rfl rfl rfl rfl rfl h.books.enter
      | leave =>
          cases he
          exact hframe rfl rfl rfl rfl rfl rfl rfl (h.books.leave hp)
      | begin _ | corrupt _ =>
          cases he
          exact hframe rfl rfl rfl rfl rfl rfl rfl (h.books.setPriv rfl rfl rfl)
      | readDone _ _ _ _ | reply _ _ _ | deliver _ _ _ | access _ =>
          cases he
          exact h
  | stageWrite _ _ | stageRead _ _ | running =>
      cases he
      exact hframe rfl rfl rfl rfl rfl rfl rfl (hsame rfl rfl rfl rfl)

theorem inv_tau (h : Inv cfg md s) (ht : Tau s s') : Inv cfg md s' := by
  cases ht with
  | move hmv => exact h.move hmv
  | stop =>
      exact h.frame rfl rfl rfl rfl rfl h.pend (fun _ _ _ _ => rfl)
        (h.books.congr rfl rfl rfl (fun _ => rfl) (fun _ => rfl) fun _ => rfl)

/-- The contract between the workers in a mode. -/
def contract (cfg : Config) (md : Mode) : Contract (machine cfg) where
  adm := md.Adm cfg
  inv := Inv cfg md
  pre := Pre cfg md
  inv_exec := inv_exec
  inv_tau := inv_tau

/-- A fresh daemon keeps the invariant. -/
theorem State.Initial.inv (h : s.Initial cfg) : Inv cfg md s := by
  obtain ⟨ha, hl⟩ := Alloc.storeInit_inv cfg.heap
  have h0 : entClen 0 = 0 := by decide
  refine ⟨by rw [h.alloc]; exact ha, ⟨fun _ => none, ?_, ?_, ?_, ?_⟩, ?_, ?_, fun b => ?_, ?_,
    fun b => ?_, ?_, ?_, Books.initial h⟩
  · intro g
    rw [h.alloc]
    simp [hl g]
  · simp [h.index, h0]
  · simp [h.resv]
  · simp [h.disp]
  · simp [h.resv]
  · simp [h.disp]
  · rw [h.index, h.log]
    refine ⟨⟨0, 0, ?_, by decide, by decide⟩, fun hc => absurd h0 hc⟩
    rw [entMake_eq (by decide) (by decide)]
    simp [mutations]
  · simp [h.pend]
  · rw [h.log, State.content, h.index, if_pos h0]
    exact (pageOf_zero b).symm
  · simp [h.index, h0]
  · simp [h.log]

end NbdVram
