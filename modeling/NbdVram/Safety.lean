import NbdVram.AllocHistory
import NbdVram.Trace

/-!
# What holds in every reachable state

The results of this module need no assumption on the environment: any copy and any
synchronize may fail, any allocation may be refused, and any number of workers may
be interleaved in any way. They are read off the contract: the invariant holds in
every reachable state, and every next action of every thread meets its condition.
-/

namespace NbdVram

open Interleave Span MutationLog

variable {cfg : Config} {md : Mode} {s s' : State} {w : ℕ}

/-! ## Induction over runs -/

/-- What holds of a fresh daemon and is kept by every action that meets its condition, and by the
machine, holds in every reachable state. -/
theorem Daemon.Reachable.induct {S : Daemon cfg} (h : Daemon.Reachable cfg md S)
    (hs : md.since = 0) {P : State → Prop} (h0 : ∀ s : State, s.Initial cfg → P s)
    (hact : ∀ (w : ℕ) (o : Op) (c : Choice) (r : o.Res) (s s' : State), Pre cfg md w o s →
      exec cfg w o c s = some (r, s') → P s → P s')
    (htau : ∀ s s' : State, Tau s s' → P s → P s') : P S.st := by
  obtain ⟨S₀, hi, hrun⟩ := h
  induction hrun with
  | refl => exact h0 _ hi.1
  | @tail S₁ S₂ hrun hstep ih =>
      have hsafe := (hi.safe hs).run (Daemon.rounds cfg md _ _) hrun
      cases hstep with
      | tau ht => exact htau _ _ ht ih
      | act hw ha he => exact hact _ _ _ _ _ _ (hsafe.pre (Daemon.rounds cfg md _ _) hw) he ih

/-- The next action of a worker. -/
def Daemon.Next (S : Daemon cfg) (w : ℕ) (o : Op) : Prop :=
  ∃ k, unfold (next cfg) (S.prog w) = .act (σ := sig) o k

theorem Daemon.Reachable.next_pre {S : Daemon cfg} (h : Daemon.Reachable cfg md S) (hs : md.since = 0)
    {o : Op} (hw : S.Next w o) : Pre cfg md w o S.st := by
  obtain ⟨k, hk⟩ := hw
  exact h.pre hs hk

theorem Daemon.step {S : Daemon cfg} {o : Op} {k : o.Res → Interleave.Prog sig Phase} {c : Choice}
    {r : o.Res} {s' : State} (hk : unfold (next cfg) (S.prog w) = .act (σ := sig) o k)
    (ha : md.Adm cfg w o c S.st) (he : exec cfg w o c S.st = some (r, s')) :
    Sys.Step (md.Adm cfg) (fun _ => next cfg) S ⟨s', Function.update S.prog w (k r)⟩ :=
  .act hk ha he

theorem Mode.any_adm (cfg : Config) (w : ℕ) (o : Op) (c : Choice) (s : State) :
    Mode.any.Adm cfg w o c s := by
  cases o with
  | sync => exact fun h => (nomatch h)
  | htod _ _ _ _ => exact ⟨fun h => (nomatch h), fun h => (nomatch h)⟩
  | dtoh _ _ _ _ => exact fun h => (nomatch h)
  | slotAlloc _ _ => exact fun h => (nomatch h)
  | idxLoad why b =>
      cases why with
      | recheck i => exact ⟨fun _ h => (nomatch h), fun h => (nomatch h)⟩
      | plain | snapshot i => trivial
  | idxStore _ _ _ => exact fun _ h => (nomatch h)
  | event e =>
      cases e with
      | begin reqs => exact fun h => (nomatch h)
      | _ => trivial
  | _ => trivial

/-- Let worker `w` take steps, with the environment's choices given in advance; the daemon stays
where it is when a step is not possible. -/
def Daemon.drive (w : ℕ) : List Choice → Daemon cfg → Daemon cfg
  | [], S => S
  | c :: cs, S =>
    match unfold (next cfg) (S.prog w) with
    | .ret _ => S
    | .act o k =>
      match exec cfg w o c S.st with
      | none => S
      | some x => Daemon.drive w cs ⟨x.2, Function.update S.prog w (k x.1)⟩

theorem Daemon.drive_run (w : ℕ) (cs : List Choice) (S : Daemon cfg) :
    Daemon.Run cfg .any S (Daemon.drive w cs S) := by
  induction cs generalizing S with
  | nil => exact .refl
  | cons c cs ih =>
      unfold Daemon.drive
      split
      · exact .refl
      · rename_i o k hk
        split
        · exact .refl
        · rename_i x hx
          exact .head (Daemon.step (r := x.1) hk (Mode.any_adm cfg w o c S.st) hx) (ih _)

/-- Empty buffers. -/
def Mem.blank : Mem where
  buf := fun _ _ => 0
  ops := fun i => blkopSet i 0 .read ⟨.scratch, 0⟩ 0
  reqs := fun _ => ⟨[], 0, 0, .read, .ok, ⟨.ubuf, 0⟩, 0, 0⟩

/-- A daemon whose workers all wait for a client. -/
def Daemon.booted (cfg : Config) : Daemon cfg := ⟨State.boot cfg, fun _ => .ret (.waiting .blank)⟩

theorem Daemon.booted_drive (cfg : Config) (w : ℕ) (cs : List Choice) :
    Daemon.Reachable cfg .any (Daemon.drive w cs (Daemon.booted cfg)) :=
  ⟨Daemon.booted cfg, ⟨State.boot_initial cfg, fun _ => .inr ⟨.blank, rfl⟩⟩,
    Daemon.drive_run w cs _⟩

/-- The environment does what it is asked for, in pieces as large as possible. -/
def Choice.plain : Choice := ⟨false, 65535, [], false⟩

/-- A client connects, and will send `inp`. -/
def Choice.client (inp : List UInt8) : Choice := ⟨false, 0, inp, true⟩

/-- A worker at rest holds nothing. -/
theorem Daemon.Reachable.quiet {S : Daemon cfg} (h : Daemon.Reachable cfg md S) (hs : md.since = 0)
    {ph : Phase} (hw : S.prog w = .ret ph) : Quiet md w S.st ∧ (S.st.priv w).busy = false := by
  obtain ⟨S₀, -, hsafe⟩ := h.safe hs
  obtain ⟨hs, x, hx, hr, -⟩ := hsafe.post hw
  exact ⟨hx.quiet hr, by rw [hx.priv]; exact hr.busy⟩

/-! ## Locks -/

@[simp] theorem moves_lock (l : List Move) (s : State) : (s.moves w l).lock = s.lock := by
  induction l generalizing s with
  | nil => rfl
  | cons mv l ih => rw [State.moves, ih, move_lock]

/-- Only `lock` and `unlock` change a mutex. -/
theorem exec_lock {o : Op} {c : Choice} {r : o.Res} (he : exec cfg w o c s = some (r, s')) :
    s'.lock = s.lock ∨
    (∃ m, o = .lock m ∧ s'.lock = Function.update s.lock m (some w)) ∨
    ∃ m, o = .unlock m ∧ s'.lock = Function.update s.lock m none := by
  cases o with
  | lock m =>
      simp only [exec] at he
      split at he <;> cases he
      exact .inr (.inl ⟨m, rfl, rfl⟩)
  | unlock m =>
      cases he
      exact .inr (.inr ⟨m, rfl, rfl⟩)
  | idxLoad why b => cases why <;> cases he <;> exact .inl rfl
  | event e => cases e <;> cases he <;> exact .inl rfl
  | sync =>
      simp only [exec] at he
      split at he <;> cases he
      · exact .inl rfl
      · exact .inl (moves_lock _ _)
  | _ =>
      simp only [exec] at he
      repeat' split at he
      all_goals cases he
      all_goals exact .inl rfl

/-- A worker holds at most one stripe mutex. -/
theorem Daemon.Reachable.one_stripe {S : Daemon cfg} (h : Daemon.Reachable cfg md S)
    (hs : md.since = 0) : ∀ w i j, S.st.lock (.stripe i) = some w →
      S.st.lock (.stripe j) = some w → i = j := by
  refine h.induct hs (P := fun s => ∀ w i j, s.lock (.stripe i) = some w →
    s.lock (.stripe j) = some w → i = j) ?_ ?_ ?_
  · intro s h0 w i j hi
    rw [h0.lock] at hi
    cases hi
  · intro v o c r s s' hp he hP w i j hi hj
    rcases exec_lock he with hl | ⟨m, rfl, hl⟩ | ⟨m, rfl, hl⟩
    · rw [hl] at hi hj
      exact hP w i j hi hj
    · rw [hl, Function.update_apply] at hi hj
      cases m with
      | alloc =>
          rw [if_neg (by simp)] at hi hj
          exact hP w i j hi hj
      | stripe k =>
          -- a stripe is locked by a worker that holds nothing
          have hnone : ∀ m, s.lock m ≠ some v := hp
          split at hi <;> split at hj
          · simp_all
          · cases hi
            exact absurd hj (hnone _)
          · cases hj
            exact absurd hi (hnone _)
          · exact hP w i j hi hj
    · rw [hl, Function.update_apply] at hi hj
      split at hi <;> split at hj
      · cases hi
      · cases hi
      · cases hj
      · exact hP w i j hi hj
  · intro s s' ht hP
    cases ht with
    | move hmv => simpa using hP
    | stop => exact hP

/-- The worker's next action is to lock a mutex that is held. -/
def Daemon.Waits (S : Daemon cfg) (w : ℕ) (m : Mutex) : Prop :=
  S.Next w (.lock m) ∧ S.st.lock m ≠ none

/-- The socket operations of a worker. -/
def Op.OnSocket : Op → Prop
  | .recv _ | .recvNb _ | .send _ | .accept => True
  | _ => False

/-- The action can happen now. -/
def Daemon.Enabled (S : Daemon cfg) (w : ℕ) : Prop :=
  ∃ o c r s', S.Next w o ∧ exec cfg w o c S.st = some (r, s')

/-- Only a held mutex and an empty connection stop a worker. -/
theorem exec_enabled (w : ℕ) (o : Op) (s : State) (hl : ∀ m, o = .lock m → s.lock m = none)
    (hr : ¬ o.OnSocket) : ∃ c r s', exec cfg w o c s = some (r, s') := by
  refine ⟨⟨true, 0, [], false⟩, ?_⟩
  cases o with
  | lock m => exact ⟨(), _, if_pos (hl m rfl)⟩
  | recv _ | recvNb _ | send _ | accept => exact absurd trivial hr
  | idxLoad why b => cases why <;> exact ⟨_, _, rfl⟩
  | event e => cases e <;> exact ⟨_, _, rfl⟩
  | _ => exact ⟨_, _, rfl⟩

/-- A holder has work to do, and if it does not wait it can go on. -/
theorem Daemon.Reachable.holder {S : Daemon cfg} (h : Daemon.Reachable cfg md S) (hs : md.since = 0)
    {m : Mutex} (hw : S.st.lock m = some w) : ∃ o, S.Next w o ∧ ¬ o.OnSocket := by
  cases hp : unfold (next cfg) (S.prog w) with
  | ret ph =>
      cases hq : S.prog w with
      | ret ph' => exact absurd hw ((h.quiet hs hq).1.lock m)
      | act o k =>
          rw [hq] at hp
          cases hp
  | act o k =>
      have hn : S.Next w o := ⟨k, hp⟩
      refine ⟨o, hn, fun hsock => ?_⟩
      have hpre := h.next_pre hs hn
      cases o with
      | recv _ | recvNb _ | send _ | accept => exact hpre.lock m hw
      | _ => exact hsock

/-- The holder of `g_alloc_mu` does not wait. -/
theorem Daemon.Reachable.alloc_holder {S : Daemon cfg} (h : Daemon.Reachable cfg md S)
    (hs : md.since = 0) (hw : S.st.lock .alloc = some w) :
    S.Enabled w ∧ ∀ m, ¬ S.Next w (.lock m) := by
  have hno : ∀ m, ¬ S.Next w (.lock m) := by
    intro m hn
    have hpre := h.next_pre hs hn
    cases m with
    | alloc => exact hpre hw
    | stripe i => exact hpre .alloc hw
  obtain ⟨o, hn, hsock⟩ := h.holder hs hw
  obtain ⟨c, r, s', he⟩ := exec_enabled w o S.st (fun m ho => absurd (ho ▸ hn) (hno m)) hsock
  exact ⟨⟨o, c, r, s', hn, he⟩, hno⟩

/-- **Lock discipline.** In every reachable state a worker holds at most one stripe mutex; it
never locks a mutex it holds, locks nothing while it holds `g_alloc_mu`, and a stripe only while
it holds nothing; it holds nothing at a socket operation; and when somebody waits for a mutex,
some holder of a mutex does not wait and can go on. -/
theorem lock_discipline {S : Daemon cfg} (h : Daemon.Reachable cfg .any S) :
    (∀ w i j, S.st.lock (.stripe i) = some w → S.st.lock (.stripe j) = some w → i = j) ∧
    (∀ w m, S.Next w (.lock m) → S.st.lock m ≠ some w ∧ S.st.lock .alloc ≠ some w ∧
      ∀ i, m = .stripe i → ∀ m', S.st.lock m' ≠ some w) ∧
    (∀ w o, S.Next w o → o.OnSocket → ∀ m, S.st.lock m ≠ some w) ∧
    ((∃ w m, S.Waits w m) →
      ∃ v m, S.st.lock m = some v ∧ S.Enabled v ∧ ∀ m', ¬ S.Waits v m') := by
  refine ⟨h.one_stripe rfl, fun w m hn => ?_, fun w o hn hsock m hm => ?_, ?_⟩
  · have hpre := h.next_pre rfl hn
    cases m with
    | alloc => exact ⟨hpre, hpre, fun i hi => (nomatch hi)⟩
    | stripe i => exact ⟨hpre _, hpre _, fun _ _ => hpre⟩
  · have hpre := h.next_pre rfl hn
    cases o with
    | recv _ | recvNb _ | send _ | accept => exact hpre.lock m hm
    | _ => exact hsock
  · rintro ⟨w, m, -, hheld⟩
    obtain ⟨v, hv⟩ := Option.ne_none_iff_exists'.mp hheld
    -- the holder goes on, unless it waits for `g_alloc_mu`, whose holder goes on
    by_cases hwait : ∃ m', S.Waits v m'
    · obtain ⟨m', hn, hheld'⟩ := hwait
      obtain ⟨u, hu⟩ := Option.ne_none_iff_exists'.mp hheld'
      cases m' with
      | stripe i => exact absurd hv (h.next_pre rfl hn m)
      | alloc =>
          obtain ⟨hen, hno⟩ := h.alloc_holder rfl hu
          exact ⟨u, _, hu, hen, fun m' hw => hno m' hw.1⟩
    · push Not at hwait
      obtain ⟨o, hn, hsock⟩ := h.holder rfl hv
      have hfree : ∀ m', o = .lock m' → S.st.lock m' = none := fun m' ho =>
        by_contra fun hne => hwait m' ⟨ho ▸ hn, hne⟩
      obtain ⟨c, r, s', he⟩ := exec_enabled v o S.st hfree hsock
      exact ⟨v, m, hv, ⟨o, c, r, s', hn, he⟩, hwait⟩

/-- Of two statistics threads the first has locked `g_alloc_mu`. -/
def Daemon.logging (cfg : Config) : Daemon cfg :=
  Daemon.drive 0 [.plain] ⟨State.boot cfg, fun _ => .ret .logging⟩

theorem Daemon.logging_reachable (cfg : Config) :
    Daemon.Reachable cfg .any (Daemon.logging cfg) :=
  ⟨_, ⟨State.boot_initial cfg, fun _ => .inl rfl⟩, Daemon.drive_run 0 _ _⟩

theorem lock_discipline_loggers : (Daemon.logging smallConfig).Waits 1 .alloc ∧
    ∃ v m, (Daemon.logging smallConfig).st.lock m = some v ∧
      (Daemon.logging smallConfig).Enabled v ∧ ∀ m', ¬ (Daemon.logging smallConfig).Waits v m' := by
  have hw : (Daemon.logging smallConfig).Waits 1 .alloc := ⟨⟨_, rfl⟩, by decide⟩
  exact ⟨hw, (lock_discipline (Daemon.logging_reachable smallConfig)).2.2.2 ⟨1, .alloc, hw⟩⟩

/-! ## Slots -/

/-- **Exclusive slot ownership.** In every reachable state each allocated slot has exactly one
owner, a written entry, a reservation or a displaced entry value, and owners own allocated slots;
no two blocks name the same slot; and `slot_free` is only called on an allocated slot, so that it
never counts more free slots than there are. -/
theorem slot_ownership {S : Daemon cfg} (h : Daemon.Reachable cfg .any S) :
    (∃ own, Owned cfg S.st own) ∧
    (∀ w, (S.st.resv w).Nodup ∧ (S.st.disp w).Nodup) ∧
    (∀ b, entClen (S.st.index b) ≠ 0 →
      Alloc.Live cfg.heap S.st.alloc (entGrain (S.st.index b))) ∧
    (∀ w, ∀ g ∈ S.st.resv w, Alloc.Live cfg.heap S.st.alloc g) ∧
    (∀ b b', entClen (S.st.index b) ≠ 0 → entClen (S.st.index b') ≠ 0 →
      entGrain (S.st.index b) = entGrain (S.st.index b') → b = b') ∧
    (∀ w g, S.Next w (.slotFree g) → Alloc.Live cfg.heap S.st.alloc g ∧
      (S.st.alloc.ext (g / cfg.heap.extGrains)).nfree + 1 ≤
        (S.st.alloc.ext (g / cfg.heap.extGrains)).nslots) ∧
    ∀ e < cfg.heap.nExtents, (S.st.alloc.ext e).used = true →
      (S.st.alloc.ext e).nfree ≤ (S.st.alloc.ext e).nslots := by
  have hi := h.inv rfl
  refine ⟨hi.owned, fun w => ⟨hi.resv_nodup w, hi.disp_nodup w⟩, fun b hb => hi.entry_live hb,
    fun w g hg => hi.resv_live hg, fun b b' hb hb' heq => ?_, fun w g hn => ?_, fun e he hu => ?_⟩
  · obtain ⟨own, ho⟩ := hi.owned
    have h1 := (ho.entry b _).mpr ⟨hb, rfl⟩
    rw [(ho.entry b' _).mpr ⟨hb', heq.symm⟩, Option.some.injEq, Owner.entry.injEq] at h1
    exact h1.symm
  · have hl : Alloc.Live cfg.heap S.st.alloc g :=
      (h.next_pre rfl hn).2.2.elim hi.resv_live hi.disp_live
    exact ⟨hl, hi.alloc.nonempty _ hl.1 hl.2.1⟩
  · exact (hi.alloc.nonempty e he hu).le

/-- A client's READ of block 0. -/
def readHdr : List UInt8 :=
  [0x25, 0x60, 0x95, 0x13, 0, 0, 0, 0, 0, 0, 0, 0, 0, 0, 0, 1, 0, 0, 0, 0, 0, 0, 0, 0, 0, 0, 16, 0]

/-- A worker that has received it. -/
def Daemon.asked : Daemon smallConfig :=
  Daemon.drive 0 [.client readHdr, .plain, .plain] (Daemon.booted smallConfig)

theorem slot_ownership_asked : ∃ own, Owned smallConfig Daemon.asked.st own :=
  (slot_ownership (Daemon.booted_drive smallConfig 0 _)).1

/-- **Spatial safety of the allocator.** In every history a successful `slot_alloc(n)` reserves at
least `n` bytes inside one extent and inside the heap, apart from every other slot handed out at
that time; `slot_free` reports the size that was reserved and gives back that slot only. So in every
reachable state of the daemon copies to the device stay inside the worker's own reservation, also
while they are queued, and copies from the device stay inside the heap. -/
theorem heap_spatial_safety :
    (∀ (H : Heap) (m : Alloc.Moment) (ms : List Alloc.Moment), Alloc.History H (m :: ms) →
      (∀ n, 1 ≤ n → n ≤ 4096 → ∀ g sz, (Alloc.slotAlloc H m.a n).1 = (g, sz) → g ≠ slotNone →
        n ≤ sz ∧ Alloc.InExtent H g sz ∧
        ∀ g' sz', m.out g' = some sz' → g' ≠ g ∧ Alloc.Apart g sz g' sz') ∧
      (∀ g sz, m.out g = some sz → Alloc.InExtent H g sz ∧ (Alloc.slotFree H m.a g).1 = sz ∧
        (∀ g', Alloc.Live H (Alloc.slotFree H m.a g).2 g' ↔ Alloc.Live H m.a g' ∧ g' ≠ g) ∧
        ∀ g' sz', m.out g' = some sz' → g' ≠ g → Alloc.Apart g sz g' sz') ∧
      H.nExtents * H.extentSize ≤ H.vramSize) ∧
    ∀ (cfg : Config) (S : Daemon cfg), Daemon.Reachable cfg .any S → ∀ w,
      (∀ tag sl g n, S.Next w (.htod tag sl g n) →
        g ∈ S.st.resv w ∧ n ≤ Alloc.slotSize cfg.heap S.st.alloc g) ∧
      (∀ mv ∈ S.st.pend w, mv.dir = .up → ∃ g ∈ S.st.resv w, InSlot cfg S.st g mv.dev) ∧
      ∀ tag sl g n, S.Next w (.dtoh tag sl g n) →
        g * 64 + n ≤ cfg.heap.nExtents * cfg.heap.extentSize := by
  refine ⟨fun H m ms hm => ?_, fun cfg S h w => ?_⟩
  · have hgood := hm.good_head.1
    refine ⟨fun n hn hn' g sz hr hne => ?_, fun g sz hg => ?_, H.extents_le_vram⟩
    · obtain ⟨h1, h2, h3⟩ := hgood.alloc_out hn hn' (by rwa [hr])
      have hgood' := hgood.alloc hn hn'
      rw [hr] at h1 h2 h3
      refine ⟨h2, hgood'.inExtent h1, fun g' sz' hg' => ?_⟩
      have hgg : g' ≠ g := fun heq => by
        rw [heq, h3] at hg'
        cases hg'
      refine ⟨hgg, hgood'.apart h1 ?_ hgg.symm⟩
      simp only [Alloc.Moment.alloc, hr, if_neg hne, Function.update_of_ne hgg, hg']
    · obtain ⟨hl, hsz⟩ := (hgood.out_iff g sz).mp hg
      have hf := Alloc.slotFree_live hgood.inv hl
      exact ⟨hgood.inExtent hg, hf.size_eq.trans hsz.symm, hf.live,
        fun g' sz' hg' hne => hgood.apart hg hg' hne.symm⟩
  · have hi := h.inv rfl
    exact ⟨fun tag sl g n hn => (h.next_pre rfl hn).2, hi.pend w,
      fun tag sl g n hn => (h.next_pre rfl hn).2⟩

/-! ## Indices -/

/-- **Memory-index safety.** Whatever a client sends, in every reachable state the next action of a
worker reads and stores only entries of `g_index`, uses only staging slots of `cstage`, and
indexes, addresses and subtracts within bounds: block ops below `maxops`, requests below the
depth, windows within their buffers and blocks within their window, slices within a page, and no
difference below zero. -/
theorem memory_index_safety {S : Daemon cfg} (h : Daemon.Reachable cfg .any S) (w : ℕ) :
    (∀ why b, S.Next w (.idxLoad why b) → b < cfg.nblocks) ∧
    (∀ req b e, S.Next w (.idxStore req b e) → b < cfg.nblocks) ∧
    (∀ i, (∃ bs, S.Next w (.stageWrite (.cslot i) bs)) ∨ (∃ n, S.Next w (.stageRead (.cslot i) n)) ∨
      (∃ tag g n, S.Next w (.htod tag (.cslot i) g n)) ∨
      (∃ tag g n, S.Next w (.dtoh tag (.cslot i) g n)) → i < cfg.maxops) ∧
    (∀ i n, S.Next w (.event (.access (.ops i n))) → i + n ≤ cfg.maxops) ∧
    (∀ i, S.Next w (.event (.access (.reqs i))) → i < cfg.batchDepth) ∧
    (∀ p n, S.Next w (.event (.access (.bytes p n))) → p.off + n ≤ cfg.bufSize p.buf) ∧
    (∀ n nb, S.Next w (.event (.access (.window n nb))) → nb * 4096 ≤ n) ∧
    (∀ boff cnt, S.Next w (.event (.access (.slice boff cnt))) → boff + cnt ≤ 4096) ∧
    ∀ a c, S.Next w (.event (.access (.sub a c))) → c ≤ a := by
  refine ⟨fun why b hn => h.next_pre rfl hn, fun req b e hn => (h.next_pre rfl hn).2.1,
    fun i hn => ?_, fun i n hn => h.next_pre rfl hn, fun i hn => h.next_pre rfl hn,
    fun p n hn => h.next_pre rfl hn, fun n nb hn => h.next_pre rfl hn,
    fun boff cnt hn => h.next_pre rfl hn, fun a c hn => h.next_pre rfl hn⟩
  rcases hn with ⟨bs, hn⟩ | ⟨n, hn⟩ | ⟨tag, g, n, hn⟩ | ⟨tag, g, n, hn⟩
  · exact h.next_pre rfl hn
  · exact h.next_pre rfl hn
  · exact (h.next_pre rfl hn).1
  · exact (h.next_pre rfl hn).1

theorem memory_index_safety_asked :
    Daemon.asked.Next 0 (.event (.access (.reqs 0))) ∧ 0 < smallConfig.batchDepth := by
  have hn : Daemon.asked.Next 0 (.event (.access (.reqs 0))) := ⟨_, rfl⟩
  exact ⟨hn, (memory_index_safety (Daemon.booted_drive smallConfig 0 _) 0).2.2.2.2.1 0 hn⟩

/-! ## Index entries -/

/-- Grain `g` is slot number `slot` of extent `ei`, computed without overflow. -/
def GrainOf (H : Heap) (a : Alloc) (g : ℕ) : Prop :=
  g < 2 ^ 30 ∧ g ≠ slotNone ∧ ∃ ei slot, ei < H.nExtents ∧ slot < (a.ext ei).nslots ∧
    g = ei * H.extGrains + slot * ((a.ext ei).cls + 1)

theorem Alloc.Inv.grainOf {H : Heap} {a : Alloc} (h : Alloc.Inv H a) {g : ℕ}
    (hg : Alloc.Live H a g) : GrainOf H a g := by
  obtain ⟨ls, hw⟩ := h.wf
  have hlt := hw.live_lt hg
  obtain ⟨e, slot, he, -, hs, -, rfl⟩ := hw.live_iff.mp hg
  exact ⟨hlt, by unfold slotNone; omega, e, slot, he, hs, rfl⟩

/-- The entry `e` describes page `p`, stored by worker `w` in a slot it got from `slot_alloc`. -/
structure Describes (cfg : Config) (md : Mode) (s : State) (w b e : ℕ) (p : Page) : Prop where
  resv : entGrain e ∈ s.resv w
  grain : GrainOf cfg.heap s.alloc (entGrain e)
  clen : entClen e = (cfg.codec.compBlock p).length
  clen_lo : 1 ≤ entClen e
  clen_hi : entClen e ≤ 4096
  verbatim : entClen e = 4096 ↔ cfg.codec.compBlock p = p.bytes
  bytes : md.Stores cfg → s.stored e = cfg.codec.compBlock p ∧
    (entClen e = 4096 ↔ s.stored e = p.bytes)

/-- **Index entries are faithful.** In every reachable state: `slot_alloc` computes its grain
without overflow, below `2 ^ 30`; a value about to be stored in `g_index` fits its 64 bits, differs
from the one it replaces, has that one's generation plus one, and is either the unwritten entry or
decodes to the worker's reservation and to the length `comp_block` gave, which is 4096 exactly when
the bytes are the page itself; and the generation of an entry counts the mutations of its block. -/
theorem index_entries_faithful {S : Daemon cfg} (h : Daemon.Reachable cfg md S)
    (hs : md.since = 0) :
    (∀ w tag n, S.Next w (.slotAlloc tag n) →
      (Alloc.slotAlloc cfg.heap S.st.alloc n).1.1 ≠ slotNone →
      GrainOf cfg.heap (Alloc.slotAlloc cfg.heap S.st.alloc n).2
        (Alloc.slotAlloc cfg.heap S.st.alloc n).1.1) ∧
    (∀ w req b e, S.Next w (.idxStore req b e) →
      e < 2 ^ 64 ∧ e ≠ S.st.index b ∧ entGen e = (entGen (S.st.index b) + 1) % 2 ^ 21 ∧
      (entGrain e = 0 ∧ entClen e = 0 ∨ ∃ p, Describes cfg md S.st w b e p)) ∧
    ∀ b, entGen (S.st.index b) = mutations b S.st.log % 2 ^ 21 := by
  have hi := h.inv hs
  refine ⟨fun w tag n hn hne => ?_, fun w req b e hn => ?_, fun b => (hi.entry b).gen⟩
  · obtain ⟨-, h1, h2⟩ := h.next_pre hs hn
    rcases Alloc.slotAlloc_spec hi.alloc h1 h2 with ⟨hr, -⟩ | hok
    · exact absurd (congrArg Prod.fst hr) hne
    · exact hok.inv.grainOf ((hok.live _).mpr (.inr rfl))
  · obtain ⟨-, -, -, -, -, g, n, he, hgn⟩ := h.next_pre hs hn
    have hgen := (hi.entry b).gen
    have hbnd : g < 2 ^ 30 ∧ n ≤ 4096 := by
      rcases hgn with ⟨rfl, rfl⟩ | ⟨hg, -, p, rfl, -⟩
      · exact ⟨by decide, by decide⟩
      · exact ⟨(hi.alloc.grainOf (hi.resv_live hg)).1, (cfg.codec.compBlock_length p).2⟩
    have hgr : entGrain e = g := by rw [he, entGrain_make hbnd.1 (by omega)]
    have hcl : entClen e = n := by rw [he, entClen_make hbnd.1 (by omega)]
    have hge : entGen e = (entGen (S.st.index b) + 1) % 2 ^ 21 := by
      rw [he, entGen_make hbnd.1 (by omega)]
    refine ⟨?_, fun heq => ?_, hge, ?_⟩
    · rw [he, entMake_eq hbnd.1 (by omega)]
      omega
    · rw [heq] at hge
      omega
    · rcases hgn with ⟨rfl, rfl⟩ | ⟨hg, hsz, p, hp, hbytes⟩
      · exact .inl ⟨hgr, hcl⟩
      · have hlen := cfg.codec.compBlock_length p
        have hst : md.Stores cfg → S.st.stored e = cfg.codec.compBlock p := by
          intro hm
          show slice S.st.dev (entGrain e * 64) (entClen e) = _
          rw [hgr, hcl]
          exact hbytes hm
        have hv := cfg.codec.compBlock_verbatim p
        refine .inr ⟨p, by rwa [hgr], by rw [hgr]; exact hi.alloc.grainOf (hi.resv_live hg),
          hcl.trans hp, by omega, by omega, by rwa [hcl, hp], fun hm => ⟨hst hm, ?_⟩⟩
        rwa [hst hm, hcl, hp]

/-- A WRITE of the first byte. -/
def byteWrite : List UInt8 :=
  [0x25, 0x60, 0x95, 0x13, 0, 0, 0, 1, 0, 0, 0, 0, 0, 0, 0, 1, 0, 0, 0, 0, 0, 0, 0, 0, 0, 0, 0, 1, 7]

/-- A worker about to publish the block it has merged that byte into. -/
def Daemon.storing : Daemon smallConfig :=
  Daemon.drive 0 (.client byteWrite :: List.replicate 19 .plain) (Daemon.booted smallConfig)

set_option maxRecDepth 100000 in
theorem index_entries_faithful_storing :
    Daemon.storing.Next 0 (.idxStore 0 0 (entMake 0 4096 1)) ∧
      entMake 0 4096 1 ≠ Daemon.storing.st.index 0 := by
  have hn : Daemon.storing.Next 0 (.idxStore 0 0 (entMake 0 4096 1)) := ⟨_, rfl⟩
  exact ⟨hn, ((index_entries_faithful (Daemon.booted_drive smallConfig 0 _) rfl).2.1 0 0 0 _ hn).2.1⟩

end NbdVram
