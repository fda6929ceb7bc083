import NbdVram.Contract

/-!
# What a worker knows

A worker's knowledge of the shared state is a value of `Local`: the mutexes it
holds, the entry of a block it has locked, its reservations with their sizes, what
it has displaced, a protocol state for each of its staging slots, and a prefix of
the log after which it has mutated nothing. `Loc` says that such a value is true of
a state, and `Loc.stable` that nothing the device or the other workers do makes it
false. Every later specification is a statement about how a program changes it.
-/

namespace NbdVram

open Interleave Span MutationLog

/-- The mutations of others. -/
abbrev Alien (w : ℕ) (log : List Mut) : Prop := Foreign Mut.who w log

/-- One step of another worker, or of the device on its behalf, as worker `w` sees it. -/
structure Others (cfg : Config) (w : ℕ) (s s' : State) : Prop where
  lock : ∀ m, s'.lock m = some w ↔ s.lock m = some w
  priv : s'.priv w = s.priv w
  resv : s'.resv w = s.resv w
  disp : s'.disp w = s.disp w
  pend : s'.pend w = s.pend w
  stage : s'.stage w = s.stage w
  size : ∀ g ∈ s.resv w, Alloc.slotSize cfg.heap s'.alloc g = Alloc.slotSize cfg.heap s.alloc g
  log : s'.log = s.log ∧ s'.index = s.index ∨
    ∃ m : Mut, m.who ≠ w ∧ s'.log = s.log ++ [m] ∧ s.lock (stripe m.blk) ≠ some w ∧
      ∀ b, b ≠ m.blk → s'.index b = s.index b
  dev : ∀ a, (∃ g ∈ s.resv w, InSlot cfg s g a) ∨
    (∃ b, entClen (s.index b) ≠ 0 ∧ InSlot cfg s (entGrain (s.index b)) a) → s'.dev a = s.dev a

variable {cfg : Config} {md : Mode} {s s' : State} {w v b g : ℕ}

section Moves

@[simp] theorem move_index (mv : Move) : (s.move v mv).index = s.index := by
  unfold State.move; cases mv.dir <;> rfl

@[simp] theorem move_alloc (mv : Move) : (s.move v mv).alloc = s.alloc := by
  unfold State.move; cases mv.dir <;> rfl

@[simp] theorem move_lock (mv : Move) : (s.move v mv).lock = s.lock := by
  unfold State.move; cases mv.dir <;> rfl

@[simp] theorem move_log (mv : Move) : (s.move v mv).log = s.log := by
  unfold State.move; cases mv.dir <;> rfl

@[simp] theorem move_resv (mv : Move) : (s.move v mv).resv = s.resv := by
  unfold State.move; cases mv.dir <;> rfl

@[simp] theorem move_disp (mv : Move) : (s.move v mv).disp = s.disp := by
  unfold State.move; cases mv.dir <;> rfl

@[simp] theorem move_priv (mv : Move) : (s.move v mv).priv = s.priv := by
  unfold State.move; cases mv.dir <;> rfl

theorem move_pend (mv : Move) :
    (s.move v mv).pend = Function.update s.pend v ((s.pend v).erase mv) := by
  unfold State.move; cases mv.dir <;> rfl

theorem move_dev (mv : Move) : (s.move v mv).dev =
    if mv.dir = .up then Function.update s.dev mv.dev (s.stage v mv.slot mv.off) else s.dev := by
  unfold State.move; cases mv.dir <;> rfl

theorem move_stage_of_ne (mv : Move) (h : w ≠ v) : (s.move v mv).stage w = s.stage w := by
  unfold State.move
  cases mv.dir with
  | up => rfl
  | down => exact Function.update_of_ne h _ _

end Moves

/-- The device moves a byte for another worker. -/
theorem Inv.others_move (h : Inv cfg md s) {mv : Move} (hmv : mv ∈ s.pend v) (hv : w ≠ v) :
    Others cfg w s (s.move v mv) := by
  refine ⟨by simp, by simp, by simp, by simp, ?_, move_stage_of_ne mv hv, by simp, .inl (by simp),
    fun a ha => ?_⟩
  · rw [move_pend, Function.update_of_ne hv]
  · rw [move_dev]
    split
    · rename_i hup
      obtain ⟨g, hg, hin⟩ := h.pend v mv hmv hup
      refine Function.update_of_ne ?_ _ _
      rintro rfl
      rcases ha with ⟨g', hg', hin'⟩ | ⟨b, hb, hin'⟩
      · have := h.slot_unique (h.resv_live hg) (h.resv_live hg') hin hin'
        subst this
        exact h.resv_ne_resv hg hv hg'
      · exact h.resv_ne_entry hg hb (h.slot_unique (h.resv_live hg) (h.entry_live hb) hin hin')
    · rfl

/-- A step that leaves everything alone that worker `w` can know of. -/
theorem Others.of_eq (h1 : ∀ m, s'.lock m = some w ↔ s.lock m = some w)
    (h2 : s'.priv w = s.priv w) (h3 : s'.resv w = s.resv w) (h4 : s'.disp w = s.disp w)
    (h5 : s'.pend w = s.pend w) (h6 : s'.stage w = s.stage w)
    (h7 : ∀ g ∈ s.resv w,
      Alloc.slotSize cfg.heap s'.alloc g = Alloc.slotSize cfg.heap s.alloc g)
    (h8 : s'.log = s.log) (h9 : s'.index = s.index) (h10 : s'.dev = s.dev) : Others cfg w s s' :=
  ⟨h1, h2, h3, h4, h5, h6, h7, .inl ⟨h8, h9⟩, fun a _ => by rw [h10]⟩

/-- What another worker drains from its queue does not concern `w`. -/
theorem Inv.others_moves (h : Inv cfg md s) (hv : w ≠ v) :
    Others cfg w s (s.moves v (s.pend v)) := by
  have hP : ∀ t mv, mv ∈ t.pend v →
      (Inv cfg md t ∧ Others cfg w s t ∧ t.index = s.index ∧ t.alloc = s.alloc ∧ t.log = s.log ∧
        t.resv = s.resv) →
      Inv cfg md (t.move v mv) ∧ Others cfg w s (t.move v mv) ∧ (t.move v mv).index = s.index ∧
        (t.move v mv).alloc = s.alloc ∧ (t.move v mv).log = s.log ∧
        (t.move v mv).resv = s.resv := by
    rintro t mv hmv ⟨hi, ho, h1, h2, h3, h4⟩
    have hm := hi.others_move hmv hv
    refine ⟨hi.move hmv, ?_, by simpa, by simpa, by simpa, by simpa⟩
    refine ⟨fun m => (hm.lock m).trans (ho.lock m), hm.priv.trans ho.priv, hm.resv.trans ho.resv,
      hm.disp.trans ho.disp, hm.pend.trans ho.pend, hm.stage.trans ho.stage, by simp [h2],
      .inl (by simp [h1, h3]), fun a ha => ?_⟩
    rw [hm.dev a ?_, ho.dev a ha]
    unfold InSlot at ha ⊢
    rw [h1, h2, h4]
    exact ha
  exact (State.moves_induct hP _ s rfl ⟨h, .of_eq (by simp) rfl rfl rfl rfl rfl (by simp) rfl rfl rfl,
    rfl, rfl, rfl, rfl⟩).1.2.1

/-- **What the surroundings of a worker can do**: a step of others, or one of its own queued
bytes. -/
theorem env_cases (he : (contract cfg md).Env w s s') :
    Others cfg w s s' ∨ ∃ mv ∈ s.pend w, s' = s.move w mv := by
  obtain ⟨h, ht | ⟨v, o, c, r, hv, hp, ha, hx⟩⟩ := he
  · cases ht with
    | @move v mv hmv =>
        by_cases hv : w = v
        · subst hv
          exact .inr ⟨mv, hmv, rfl⟩
        · exact .inl (Inv.others_move h hmv hv)
    | stop => exact .inl (.of_eq (by simp) rfl rfl rfl rfl rfl (by simp) rfl rfl rfl)
  · left
    have hv : w ≠ v := fun e => hv e.symm
    have h : Inv cfg md s := h
    -- everything that belongs to the acting worker is invisible to `w`
    have hframe : ∀ {t : State}, t.lock = s.lock → t.priv w = s.priv w → t.resv w = s.resv w →
        t.disp w = s.disp w → t.pend w = s.pend w → t.stage w = s.stage w → t.alloc = s.alloc →
        t.log = s.log → t.index = s.index → t.dev = s.dev → Others cfg w s t := by
      intro t h1 h2 h3 h4 h5 h6 h7 h8 h9 h10
      exact .of_eq (by simp [h1]) h2 h3 h4 h5 h6 (by simp [h7]) h8 h9 h10
    have hpriv : ∀ p, (s.setPriv v p).priv w = s.priv w := fun p => Function.update_of_ne hv _ _
    cases o with
    | lock m =>
        simp only [machine, exec] at hx
        split at hx
        · rename_i hn
          cases hx
          refine .of_eq (fun m' => ?_) rfl rfl rfl rfl rfl (by simp) rfl rfl rfl
          simp only [Function.update_apply]
          split
          · rename_i hm
            subst hm
            simp [hn, Ne.symm hv]
          · rfl
        · cases hx
    | unlock m =>
        cases hx
        refine .of_eq (fun m' => ?_) rfl rfl rfl rfl rfl (by simp) rfl rfl rfl
        have hm : s.lock m = some v := hp
        simp only [Function.update_apply]
        split
        · rename_i hm'
          subst hm'
          simp [hm, Ne.symm hv]
        · rfl
    | idxLoad why b =>
        cases why <;> cases hx
        · exact hframe rfl rfl rfl rfl rfl rfl rfl rfl rfl rfl
        · exact hframe rfl (hpriv _) rfl rfl rfl rfl rfl rfl rfl rfl
        · exact hframe rfl rfl rfl rfl rfl rfl rfl rfl rfl rfl
    | idxStore req b e =>
        cases hx
        obtain ⟨hl, -, -, -⟩ := hp
        refine ⟨fun _ => Iff.rfl, Function.update_of_ne hv _ _, ?_, ?_, rfl, rfl, fun _ _ => rfl,
          .inr ⟨⟨v, req, b, _⟩, Ne.symm hv, rfl, ?_, fun c hc => Function.update_of_ne hc _ _⟩,
          fun _ _ => rfl⟩
        · show (if entClen e = 0 then s.resv
            else Function.update s.resv v ((s.resv v).erase (entGrain e))) w = _
          split
          · rfl
          · exact Function.update_of_ne hv _ _
        · show (if entClen (s.index b) = 0 then s.disp
            else Function.update s.disp v (entGrain (s.index b) :: s.disp v)) w = _
          split
          · rfl
          · exact Function.update_of_ne hv _ _
        · show s.lock (stripe b) ≠ some w
          rw [hl]
          simpa using Ne.symm hv
    | slotAlloc tag n =>
        simp only [machine, exec] at hx
        split at hx
        · cases hx
          exact hframe rfl (hpriv _) rfl rfl rfl rfl rfl rfl rfl rfl
        · rename_i hne
          cases hx
          rcases Alloc.slotAlloc_spec h.alloc hp.2.1 hp.2.2 with ⟨hr, -⟩ | hok
          · exact absurd (.inr (by rw [hr])) hne
          · exact .of_eq (by simp) rfl (Function.update_of_ne hv _ _) rfl rfl rfl
              (fun g hg => hok.sizes g (h.resv_live hg)) rfl rfl rfl
    | slotFree g =>
        cases hx
        have hlive : Alloc.Live cfg.heap s.alloc g := hp.2.2.elim h.resv_live h.disp_live
        have hok := Alloc.slotFree_live h.alloc hlive
        refine .of_eq (by simp) rfl (Function.update_of_ne hv _ _) (Function.update_of_ne hv _ _)
          rfl rfl (fun g' hg' => hok.sizes g' ((hok.live g').mpr ⟨h.resv_live hg', ?_⟩)) rfl rfl rfl
        rintro rfl
        obtain ⟨own, ho⟩ := h.owned
        have h1 := (ho.resv w g').mpr hg'
        rcases hp.2.2 with hg | hg
        · exact h.resv_ne_resv hg hv hg'
        · rw [(ho.disp v g').mpr hg] at h1
          cases h1
    | stageWrite slot bs =>
        cases hx
        exact hframe rfl rfl rfl rfl rfl (Function.update_of_ne hv _ _) rfl rfl rfl rfl
    | htod tag slot g n | dtoh tag slot g n =>
        simp only [machine, exec] at hx
        split at hx <;> cases hx
        · exact hframe rfl (hpriv _) rfl rfl rfl rfl rfl rfl rfl rfl
        · exact hframe rfl rfl rfl rfl (Function.update_of_ne hv _ _) rfl rfl rfl rfl rfl
    | sync =>
        simp only [machine, exec] at hx
        split at hx <;> cases hx
        · exact hframe rfl rfl rfl rfl (Function.update_of_ne hv _ _) rfl rfl rfl rfl rfl
        · exact h.others_moves hv
    | recv n | recvNb n | send bs | accept =>
        simp only [machine, exec] at hx
        repeat' split at hx
        all_goals cases hx
        all_goals first
          | exact hframe rfl rfl rfl rfl rfl rfl rfl rfl rfl rfl
          | exact hframe rfl (hpriv _) rfl rfl rfl rfl rfl rfl rfl rfl
    | event e =>
        cases e <;> cases hx
        all_goals first
          | exact hframe rfl rfl rfl rfl rfl rfl rfl rfl rfl rfl
          | exact hframe rfl (hpriv _) rfl rfl rfl rfl rfl rfl rfl rfl
    | ctrAdd _ _ | ctrSub _ _ =>
        cases hx
        exact hframe rfl (Function.update_of_ne hv _ _) rfl rfl rfl rfl rfl rfl rfl rfl
    | stageRead _ _ | running =>
        cases hx
        exact hframe rfl rfl rfl rfl rfl rfl rfl rfl rfl rfl

/-! ## Knowledge -/

/-- The protocol state of a staging slot. -/
inductive SlotSt
  /-- contents unknown, no copy queued -/
  | idle
  /-- holds `bs` -/
  | staged (bs : List UInt8)
  /-- the copy of `bs` to the reserved grain `g` is queued -/
  | up (g : ℕ) (bs : List UInt8)
  /-- the copy of `bs` to the reserved grain `g` is complete -/
  | sent (g : ℕ) (bs : List UInt8)
  /-- the entry `e` of block `b` was read when the log had length `t` -/
  | snapped (b t e : ℕ)
  /-- and the copy of the bytes it names is queued -/
  | down (b t e : ℕ)
  /-- and that copy is complete -/
  | loaded (b t e : ℕ)

namespace SlotSt

/-- The reservation that a slot was or is being copied to. -/
def target : SlotSt → Option (ℕ × List UInt8)
  | up g bs | sent g bs => some (g, bs)
  | _ => none

/-- No copy of the slot is queued. -/
def Calm : SlotSt → Prop
  | up _ _ | down _ _ _ => False
  | _ => True

/-- What a synchronize makes of a slot. -/
def synced (ok : Bool) : SlotSt → SlotSt
  | up g bs => if ok then .sent g bs else .idle
  | down b t e => if ok then .loaded b t e else .idle
  | st => st

end SlotSt

/-- No queued byte belongs to the slot. -/
def NoMove (w : ℕ) (sl : Stage) (s : State) : Prop := ∀ mv ∈ s.pend w, mv.slot ≠ sl

/-- The slot starts with `bs`. -/
def Begins (w : ℕ) (sl : Stage) (bs : List UInt8) (s : State) : Prop :=
  ∀ i < bs.length, s.stage w sl i = bs.getD i default

/-- As long as block `b` has not been mutated since, its entry is still `e`, and `P`. -/
def Unless (b t e : ℕ) (s : State) (P : Prop) : Prop :=
  t ≤ s.log.length ∧ (mutations b (s.log.drop t) = 0 → s.index b = e ∧ P)

def SlotOk (w : ℕ) (sl : Stage) (s : State) : SlotSt → Prop
  | .idle => NoMove w sl s
  | .staged bs => NoMove w sl s ∧ Begins w sl bs s
  | .up g bs =>
    (∀ mv ∈ s.pend w, mv.slot = sl →
      mv.dir = .up ∧ mv.dev = g * 64 + mv.off ∧ mv.off < bs.length) ∧ Begins w sl bs s ∧
    ∀ i < bs.length, s.dev (g * 64 + i) = bs.getD i default ∨ ⟨.up, g * 64 + i, sl, i⟩ ∈ s.pend w
  | .sent g bs => NoMove w sl s ∧ ∀ i < bs.length, s.dev (g * 64 + i) = bs.getD i default
  | .snapped b t e => NoMove w sl s ∧ Unless b t e s True
  | .down b t e =>
    (∀ mv ∈ s.pend w, mv.slot = sl → mv.dir = .down ∧ mv.dev = entGrain e * 64 + mv.off) ∧
    Unless b t e s (∀ i < entClen e, s.stage w sl i = s.dev (entGrain e * 64 + i) ∨
      ⟨.down, entGrain e * 64 + i, sl, i⟩ ∈ s.pend w)
  | .loaded b t e => NoMove w sl s ∧
    Unless b t e s (∀ i < entClen e, s.stage w sl i = s.dev (entGrain e * 64 + i))

/-- What a worker knows. -/
structure Local where
  locks : List Mutex
  /-- a block whose stripe is held: its number, its entry, and a log length since which it has
  not been mutated -/
  entry : Option (ℕ × ℕ × ℕ)
  /-- the reserved grains with the bytes reserved -/
  resv : ℕ → Option ℕ
  disp : List ℕ
  slot : Stage → SlotSt
  log : List Mut
  priv : Priv

structure Loc (cfg : Config) (w : ℕ) (x : Local) (s : State) : Prop where
  locks : ∀ m, s.lock m = some w ↔ m ∈ x.locks
  entry : ∀ b e t, x.entry = some (b, e, t) →
    stripe b ∈ x.locks ∧ s.index b = e ∧ t ≤ s.log.length ∧ mutations b (s.log.drop t) = 0
  resv : ∀ g sz, x.resv g = some sz ↔
    g ∈ s.resv w ∧ Alloc.slotSize cfg.heap s.alloc g = sz
  disp : s.disp w = x.disp
  slot : ∀ sl, SlotOk w sl s (x.slot sl)
  room : ∀ sl g bs, (x.slot sl).target = some (g, bs) → ∃ sz, x.resv g = some sz ∧ bs.length ≤ sz
  apart : ∀ sl sl' g bs bs', (x.slot sl).target = some (g, bs) →
    (x.slot sl').target = some (g, bs') → sl = sl'
  log : ∃ new, s.log = x.log ++ new ∧ Alien w new
  priv : s.priv w = x.priv

theorem mutations_drop_mono {log new : List Mut} {t : ℕ}
    (h : mutations b ((log ++ new).drop t) = 0) : mutations b (log.drop t) = 0 := by
  rw [List.drop_append, mutations_append] at h
  omega

theorem Unless.mono {t e : ℕ} {P P' : Prop} (h : Unless b t e s P) (hlog : s.log <+: s'.log)
    (hi : mutations b (s'.log.drop t) = 0 → s.index b = e → P → s'.index b = e ∧ P') :
    Unless b t e s' P' := by
  obtain ⟨new, hnew⟩ := hlog
  refine ⟨by rw [← hnew, List.length_append]; exact h.1.trans (Nat.le_add_right _ _), fun hm => ?_⟩
  obtain ⟨h1, h2⟩ := h.2 (mutations_drop_mono (by rwa [hnew]))
  exact hi hm h1 h2

/-! ## Stability -/

theorem Others.log_prefix (h : Others cfg w s s') : s.log <+: s'.log := by
  rcases h.log with ⟨hl, -⟩ | ⟨m, -, hl, -⟩
  · rw [hl]
  · exact ⟨[m], hl.symm⟩

/-- The entry of a block that is not mutated by the step stays. -/
theorem Others.index_eq (h : Others cfg w s s') {t : ℕ} (ht : t ≤ s.log.length)
    (hm : mutations b (s'.log.drop t) = 0) : s'.index b = s.index b := by
  rcases h.log with ⟨-, hi⟩ | ⟨m, -, hl, -, hi⟩
  · rw [hi]
  · apply hi
    rintro rfl
    rw [hl, List.drop_append_of_le_length ht, mutations_append, mutations_single, if_pos rfl] at hm
    omega

variable {x : Local}

theorem Loc.mem_resv (h : Loc cfg w x s) {sz : ℕ} (hg : x.resv g = some sz) : g ∈ s.resv w :=
  ((h.resv g sz).mp hg).1

theorem Loc.target_inSlot (h : Loc cfg w x s) {sl : Stage} {bs : List UInt8} {i : ℕ}
    (ht : (x.slot sl).target = some (g, bs)) (hi : i < bs.length) :
    g ∈ s.resv w ∧ InSlot cfg s g (g * 64 + i) := by
  obtain ⟨sz, hsz, hle⟩ := h.room sl g bs ht
  obtain ⟨hg, rfl⟩ := (h.resv g sz).mp hsz
  exact ⟨hg, by omega, by omega⟩

theorem SlotOk.others (hi : Inv cfg md s) (h : Others cfg w s s') {sl : Stage} {st : SlotSt}
    (hs : SlotOk w sl s st)
    (hg : ∀ g bs i, st.target = some (g, bs) → i < bs.length →
      g ∈ s.resv w ∧ InSlot cfg s g (g * 64 + i)) : SlotOk w sl s' st := by
  have hdev : ∀ g bs i, st.target = some (g, bs) → i < bs.length →
      s'.dev (g * 64 + i) = s.dev (g * 64 + i) := by
    intro g bs i ht hlt
    obtain ⟨h1, h2⟩ := hg g bs i ht hlt
    exact h.dev _ (.inl ⟨g, h1, h2⟩)
  have hent : ∀ b t e i, t ≤ s.log.length → mutations b (s'.log.drop t) = 0 → s.index b = e →
      i < entClen e → s'.dev (entGrain e * 64 + i) = s.dev (entGrain e * 64 + i) := by
    rintro b t _ i ht hm rfl hlt
    exact h.dev _ (.inr ⟨b, by omega, hi.entry_inSlot hlt⟩)
  cases st with
  | idle =>
      simp only [SlotOk, NoMove, h.pend] at hs ⊢
      exact hs
  | staged bs =>
      simp only [SlotOk, NoMove, Begins, h.pend, h.stage] at hs ⊢
      exact hs
  | up g bs =>
      simp only [SlotOk, Begins, h.pend, h.stage] at hs ⊢
      refine ⟨hs.1, hs.2.1, fun i hlt => ?_⟩
      rw [hdev g bs i rfl hlt]
      exact hs.2.2 i hlt
  | sent g bs =>
      simp only [SlotOk, NoMove, h.pend] at hs ⊢
      refine ⟨hs.1, fun i hlt => ?_⟩
      rw [hdev g bs i rfl hlt]
      exact hs.2 i hlt
  | snapped b t e =>
      simp only [SlotOk, NoMove, h.pend] at hs ⊢
      exact ⟨hs.1, hs.2.mono h.log_prefix fun hm he _ =>
        ⟨(h.index_eq hs.2.1 hm).trans he, trivial⟩⟩
  | down b t e =>
      simp only [SlotOk, h.pend, h.stage] at hs ⊢
      refine ⟨hs.1, hs.2.mono h.log_prefix fun hm he hP =>
        ⟨(h.index_eq hs.2.1 hm).trans he, fun i hlt => ?_⟩⟩
      rw [hent b t e i hs.2.1 hm he hlt]
      exact hP i hlt
  | loaded b t e =>
      simp only [SlotOk, NoMove, h.pend, h.stage] at hs ⊢
      refine ⟨hs.1, hs.2.mono h.log_prefix fun hm he hP =>
        ⟨(h.index_eq hs.2.1 hm).trans he, fun i hlt => ?_⟩⟩
      rw [hent b t e i hs.2.1 hm he hlt]
      exact hP i hlt

theorem Loc.others (hi : Inv cfg md s) (hx : Loc cfg w x s) (h : Others cfg w s s') :
    Loc cfg w x s' := by
  refine ⟨fun m => (h.lock m).trans (hx.locks m), fun b e t he => ?_, fun g sz => ?_,
    h.disp.trans hx.disp, fun sl => (hx.slot sl).others hi h fun g bs i => hx.target_inSlot, hx.room,
    hx.apart, ?_, h.priv.trans hx.priv⟩
  · obtain ⟨h1, h2, h3, h4⟩ := hx.entry b e t he
    have hm : mutations b (s'.log.drop t) = 0 := by
      rcases h.log with ⟨hl, -⟩ | ⟨m, -, hl, hk, -⟩
      · rwa [hl]
      · rw [hl, List.drop_append_of_le_length h3, mutations_append, h4, mutations_single, if_neg]
        rintro rfl
        exact hk ((hx.locks _).mpr h1)
    refine ⟨h1, (h.index_eq h3 hm).trans h2, h3.trans ?_, hm⟩
    exact h.log_prefix.length_le
  · rw [h.resv, hx.resv]
    exact and_congr_right fun hg => by rw [h.size g hg]
  · obtain ⟨new, hl, hf⟩ := hx.log
    rcases h.log with ⟨hl', -⟩ | ⟨m, hm, hl', -⟩
    · exact ⟨new, hl'.trans hl, hf⟩
    · refine ⟨new ++ [m], by rw [hl', hl, List.append_assoc], hf.append ?_⟩
      intro m' hm'
      rw [List.mem_singleton.mp hm']
      exact hm

/-- A queued byte to the device comes from a slot whose copy to a reservation is under way. -/
theorem Loc.move_target (hx : Loc cfg w x s) {mv : Move} (hmv : mv ∈ s.pend w)
    (hup : mv.dir = .up) : ∃ g bs, x.slot mv.slot = .up g bs ∧ mv.dev = g * 64 + mv.off ∧
      mv.off < bs.length := by
  have hs := hx.slot mv.slot
  cases hst : x.slot mv.slot with
  | up g bs =>
      rw [hst] at hs
      exact ⟨g, bs, rfl, (hs.1 mv hmv rfl).2⟩
  | down b t e =>
      rw [hst] at hs
      rw [(hs.1 mv hmv rfl).1] at hup
      cases hup
  | idle =>
      rw [hst] at hs
      exact absurd rfl (hs mv hmv)
  | staged bs | sent g bs | snapped b t e | loaded b t e =>
      rw [hst] at hs
      exact absurd rfl (hs.1 mv hmv)

/-- One queued byte of the worker itself. -/
theorem SlotOk.move (hi : Inv cfg md s) (hx : Loc cfg w x s) {mv : Move} (hmv : mv ∈ s.pend w)
    (sl : Stage) : SlotOk w sl (s.move w mv) (x.slot sl) := by
  have hs := hx.slot sl
  have hpend : (s.move w mv).pend w = (s.pend w).erase mv := by
    rw [move_pend, Function.update_self]
  have hsub : ∀ mv' ∈ (s.move w mv).pend w, mv' ∈ s.pend w := by
    intro mv' h
    rw [hpend] at h
    exact List.mem_of_mem_erase h
  have hno : NoMove w sl s → NoMove w sl (s.move w mv) := fun h mv' hm => h mv' (hsub mv' hm)
  -- where the staging slot is not the target of the byte, it keeps its contents
  have hstage : ∀ i, (mv.dir = .down → mv.slot = sl → mv.off ≠ i) →
      (s.move w mv).stage w sl i = s.stage w sl i := by
    intro i hne
    unfold State.move
    cases hd : mv.dir with
    | up => rfl
    | down =>
        simp only [Function.update_self]
        by_cases hsl : mv.slot = sl
        · subst hsl
          rw [Function.update_self, Function.update_of_ne (Ne.symm (hne hd rfl))]
        · rw [Function.update_of_ne (Ne.symm hsl)]
  -- device bytes of entries are out of reach of the worker's copies
  have hent : ∀ b e i, s.index b = e → i < entClen e →
      (s.move w mv).dev (entGrain e * 64 + i) = s.dev (entGrain e * 64 + i) := by
    rintro b _ i rfl hlt
    rw [move_dev]
    split
    · rename_i hup
      obtain ⟨g, hg, hin⟩ := hi.pend w mv hmv hup
      refine Function.update_of_ne ?_ _ _
      intro heq
      rw [← heq] at hin
      exact hi.resv_ne_entry hg (by omega)
        (hi.slot_unique (hi.resv_live hg) (hi.entry_live (by omega)) hin (hi.entry_inSlot hlt))
    · rfl
  -- a byte that hits the reservation of this slot comes from this slot
  have hhit : ∀ g bs i, (x.slot sl).target = some (g, bs) → i < bs.length → mv.dir = .up →
      mv.dev = g * 64 + i → mv.slot = sl ∧ mv.off = i := by
    intro g bs i ht hlt hup heq
    obtain ⟨g', bs', hst, hdev, hoff⟩ := hx.move_target hmv hup
    have ht' : (x.slot mv.slot).target = some (g', bs') := by rw [hst]; rfl
    obtain ⟨h1, h2⟩ := hx.target_inSlot ht hlt
    obtain ⟨h1', h2'⟩ := hx.target_inSlot ht' hoff
    rw [← hdev, heq] at h2'
    have hgg := hi.slot_unique (hi.resv_live h1) (hi.resv_live h1') h2 h2'
    subst hgg
    exact ⟨hx.apart _ _ _ _ _ ht' ht, by omega⟩
  cases hst : x.slot sl with
  | idle =>
      rw [hst] at hs
      exact hno hs
  | staged bs =>
      rw [hst] at hs
      refine ⟨hno hs.1, fun i hlt => ?_⟩
      rw [hstage i fun _ h => absurd h (hs.1 mv hmv)]
      exact hs.2 i hlt
  | up g bs =>
      rw [hst] at hs hhit
      refine ⟨fun mv' hm => hs.1 mv' (hsub mv' hm), fun i hlt => ?_, fun i hlt => ?_⟩
      · rw [hstage i fun hd h => by rw [(hs.1 mv hmv h).1] at hd; cases hd]
        exact hs.2.1 i hlt
      · rw [hpend, move_dev]
        by_cases hh : mv.dir = .up ∧ mv.dev = g * 64 + i
        · obtain ⟨h1, h2⟩ := hhit g bs i rfl hlt hh.1 hh.2
          rw [if_pos hh.1, hh.2, Function.update_self, h1, h2]
          exact .inl (hs.2.1 i hlt)
        · rcases hs.2.2 i hlt with hd | hd
          · left
            split
            · rename_i hup
              rw [Function.update_of_ne (fun h => hh ⟨hup, h.symm⟩)]
              exact hd
            · exact hd
          · right
            refine (List.mem_erase_of_ne ?_).mpr hd
            rintro rfl
            exact hh ⟨rfl, rfl⟩
  | sent g bs =>
      rw [hst] at hs hhit
      refine ⟨hno hs.1, fun i hlt => ?_⟩
      rw [move_dev]
      split
      · rename_i hup
        rw [Function.update_of_ne]
        · exact hs.2 i hlt
        · intro h
          exact hs.1 mv hmv (hhit g bs i rfl hlt hup h.symm).1
      · exact hs.2 i hlt
  | snapped b t e =>
      rw [hst] at hs
      exact ⟨hno hs.1, hs.2.mono (by simp) fun _ he _ => ⟨by simpa using he, trivial⟩⟩
  | down b t e =>
      rw [hst] at hs
      refine ⟨fun mv' hm => hs.1 mv' (hsub mv' hm), hs.2.mono (by simp) fun _ he hP =>
        ⟨by simpa using he, fun i hlt => ?_⟩⟩
      rw [hpend, hent b e i he hlt]
      by_cases hh : mv.dir = .down ∧ mv.slot = sl ∧ mv.off = i
      · obtain ⟨hd, hsl, hoff⟩ := hh
        left
        have hdev := (hs.1 mv hmv hsl).2
        unfold State.move
        simp only [hd, Function.update_self, hsl, hoff, hdev]
      · rw [hstage i fun hd hsl hoff => hh ⟨hd, hsl, hoff⟩]
        refine (hP i hlt).imp_right fun hm => (List.mem_erase_of_ne ?_).mpr hm
        rintro rfl
        exact hh ⟨rfl, rfl, rfl⟩
  | loaded b t e =>
      rw [hst] at hs
      refine ⟨hno hs.1, hs.2.mono (by simp) fun _ he hP => ⟨by simpa using he, fun i hlt => ?_⟩⟩
      rw [hent b e i he hlt, hstage i fun _ h => absurd h (hs.1 mv hmv)]
      exact hP i hlt

theorem Loc.move (hi : Inv cfg md s) (hx : Loc cfg w x s) {mv : Move} (hmv : mv ∈ s.pend w) :
    Loc cfg w x (s.move w mv) :=
  ⟨by simpa using hx.locks, by simpa using hx.entry, by simpa using hx.resv, by simpa using hx.disp,
    SlotOk.move hi hx hmv, hx.room, hx.apart, by simpa using hx.log, by simpa using hx.priv⟩

/-- **A worker's knowledge is stable.** -/
theorem Loc.stable (cfg : Config) (md : Mode) (w : ℕ) (x : Local) :
    Stable (contract cfg md) w (Loc cfg w x) := by
  intro s s' he hx
  have hi : Inv cfg md s := he.1
  rcases env_cases he with ho | ⟨mv, hmv, rfl⟩
  · exact hx.others hi ho
  · exact hx.move hi hmv

end NbdVram
