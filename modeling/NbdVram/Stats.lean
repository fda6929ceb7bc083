import NbdVram.Copies

/-!
# The counters in the middle of operations

`stats_log` reads the counters while workers are changing them. A counter is then off
by what the workers still owe it, and two things can go wrong: a worker subtracts what
another one has not added yet, and the stored bytes of a displaced entry are subtracted
only after its slot has been given back.

The ledger below is what keeps every counter meaningful when neither can happen: the
workers that still owe something have mutated different blocks, and the slot that a
block has got covers what is still counted for the block.
-/

namespace NbdVram

open Interleave

/-! ## Sums with pending accounts -/

/-- Cells hold at most their room. Some cells have one account open, by which the cell's figure
is ahead of what has been counted; what has been counted also fits the room. Then the whole count
is not negative and fits the whole room. -/
theorem sum_pending_bounds {ι κ : Type} [DecidableEq κ] (B : Finset κ) (P : Finset ι) (cell : ι → κ)
    (hcell : ∀ v ∈ P, cell v ∈ B) (hinj : Set.InjOn cell P) (f room : κ → ℤ) (due : ι → ℤ)
    (hf : ∀ b ∈ B, 0 ≤ f b ∧ f b ≤ room b)
    (hd : ∀ v ∈ P, 0 ≤ f (cell v) - due v ∧ f (cell v) - due v ≤ room (cell v)) :
    0 ≤ ∑ b ∈ B, f b - ∑ v ∈ P, due v ∧ ∑ b ∈ B, f b - ∑ v ∈ P, due v ≤ ∑ b ∈ B, room b := by
  have hsum : ∑ b ∈ B, f b - ∑ v ∈ P, due v =
      ∑ b ∈ B, (f b - ∑ v ∈ P.filter fun v => cell v = b, due v) := by
    rw [Finset.sum_sub_distrib, Finset.sum_fiberwise_of_maps_to hcell]
  -- a cell has no account open, or exactly one
  have hone : ∀ b ∈ B, 0 ≤ f b - ∑ v ∈ P.filter (fun v => cell v = b), due v ∧
      f b - ∑ v ∈ P.filter (fun v => cell v = b), due v ≤ room b := by
    intro b hb
    rcases (P.filter fun v => cell v = b).eq_empty_or_nonempty with he | ⟨v, hv⟩
    · rw [he, Finset.sum_empty, sub_zero]
      exact hf b hb
    · obtain ⟨hvP, rfl⟩ := Finset.mem_filter.mp hv
      have hsingle : (P.filter fun u => cell u = cell v) = {v} := by
        refine Finset.eq_singleton_iff_unique_mem.mpr ⟨hv, fun u hu => ?_⟩
        obtain ⟨huP, hcu⟩ := Finset.mem_filter.mp hu
        exact hinj huP hvP hcu
      rw [hsingle, Finset.sum_singleton]
      exact hd v hvP
  rw [hsum]
  exact ⟨Finset.sum_nonneg fun b hb => (hone b hb).1, Finset.sum_le_sum fun b hb => (hone b hb).2⟩

variable {cfg : Config} {md : Mode} {s s' : State} {w v b req e : ℕ}

/-! ## The ledger -/

/-- The block that a worker has mutated last. -/
def State.spot (s : State) (w : ℕ) : Option ℕ :=
  ((s.log.filter fun m => m.who = w).getLast?).map Mut.blk

/-- An index store hits no block that another worker still has counters to change for, and a
written entry is replaced only by one whose slot has room for the stored bytes of the old one. -/
def Tidy (cfg : Config) (w : ℕ) (o : Op) (s : State) : Prop :=
  match o with
  | .idxStore _ b e => (∀ v ≠ w, ¬ (s.priv v).Settled → s.spot v ≠ some b) ∧
      (entClen (s.index b) ≠ 0 → entClen (s.index b) ≤ s.slotOf cfg e)
  | _ => True

/-- The counters of the statistics line that follow the index. -/
def Counter.shown : Counter → Bool
  | .blocksLive | .codecBytes | .rawBlocks => true
  | _ => false

/-- How much of a counter a block can account for. -/
def State.room (cfg : Config) (s : State) : Counter → ℕ → ℤ
  | .codecBytes, e => s.slotOf cfg e
  | _, _ => 1

/-- What is counted for the block that worker `w` has mutated last is what the block held before,
nothing, or what it holds now. -/
structure Ledger (cfg : Config) (s : State) : Prop where
  spot : ∀ v, ¬ (s.priv v).Settled → ∃ b < cfg.nblocks, s.spot v = some b
  apart : ∀ v v' b, v ≠ v' → ¬ (s.priv v).Settled → ¬ (s.priv v').Settled →
    s.spot v = some b → s.spot v' ≠ some b
  subs : ∀ v c, 0 ≤ (s.priv v).subs c
  val : ∀ v b c, ¬ (s.priv v).Settled → s.spot v = some b → c.shown = true →
    (s.priv v).subs c ≤ c.share (s.index b) - (s.priv v).owed c ∧
      c.share (s.index b) - (s.priv v).owed c ≤ s.room cfg c (s.index b)

theorem Counter.shown_kept {c : Counter} (h : c.shown = true) : c.kept = true := by
  cases c <;> first | rfl | cases h

theorem State.figure_shown {c : Counter} (h : c.shown = true) :
    s.figure cfg c = ∑ b ∈ Finset.range cfg.nblocks, c.share (s.index b) := by
  cases c <;> first | rfl | cases h

theorem Inv.share_le (h : Inv cfg md s) {c : Counter} (hc : c.shown = true) (b : ℕ) :
    0 ≤ c.share (s.index b) ∧ c.share (s.index b) ≤ s.room cfg c (s.index b) := by
  cases c with
  | codecBytes =>
      have := h.clen_le_slotOf b
      simp only [Counter.share, State.room]
      omega
  | blocksLive | rawBlocks =>
      simp only [Counter.share, State.room]
      split <;> decide
  | _ => cases hc

/-- The whole room of a counter. -/
theorem Inv.room_sum (h : Inv cfg md s) {c : Counter} (hc : c.shown = true) :
    ∑ b ∈ Finset.range cfg.nblocks, s.room cfg c (s.index b) ≤
      if c = .codecBytes then (s.alloc.slotBytes : ℤ) else cfg.nblocks := by
  cases c with
  | codecBytes =>
      simp only [State.room, if_true]
      exact_mod_cast h.slots_le_slotBytes
  | blocksLive | rawBlocks => simp [State.room]
  | _ => cases hc

/-- **What the ledger is for.** No counter has wrapped, and each stays within its room. -/
theorem Ledger.bounds (hl : Ledger cfg s) (h : Inv cfg md s) {c : Counter} (hc : c.shown = true) :
    (∃ F : Finset ℕ, (∀ w, w ∉ F → (s.priv w).owed c = 0) ∧
      (s.ctr c : ℤ) = s.figure cfg c - ∑ w ∈ F, (s.priv w).owed c) ∧
    (s.ctr c : ℤ) ≤ if c = .codecBytes then (s.alloc.slotBytes : ℤ) else cfg.nblocks := by
  classical
  obtain ⟨F, hF, hk⟩ := h.books.kept
  set P := F.filter fun v => ¬ (s.priv v).Settled with hP
  have hpend : ∑ v ∈ F, (s.priv v).owed c = ∑ v ∈ P, (s.priv v).owed c := by
    refine (Finset.sum_subset (Finset.filter_subset _ _) fun v hv hnot => ?_).symm
    have hset : (s.priv v).Settled := by
      by_contra hns
      exact hnot (Finset.mem_filter.mpr ⟨hv, hns⟩)
    exact (hset c).1
  have hns : ∀ v ∈ P, ¬ (s.priv v).Settled := fun v hv => (Finset.mem_filter.mp hv).2
  have hspot : ∀ v ∈ P, s.spot v = some ((s.spot v).getD 0) ∧ (s.spot v).getD 0 < cfg.nblocks := by
    intro v hv
    obtain ⟨b, hb, hsp⟩ := hl.spot v (hns v hv)
    rw [hsp]
    exact ⟨rfl, hb⟩
  have hval : ∀ v ∈ P,
      0 ≤ c.share (s.index ((s.spot v).getD 0)) - (s.priv v).owed c ∧
        c.share (s.index ((s.spot v).getD 0)) - (s.priv v).owed c ≤
          s.room cfg c (s.index ((s.spot v).getD 0)) := by
    intro v hv
    obtain ⟨h1, h2⟩ := hl.val v _ c (hns v hv) (hspot v hv).1 hc
    exact ⟨(hl.subs v c).trans h1, h2⟩
  obtain ⟨hlo, hhi⟩ := sum_pending_bounds (Finset.range cfg.nblocks) P (fun v => (s.spot v).getD 0)
    (fun v hv => Finset.mem_range.mpr (hspot v hv).2)
    (fun v hv u hu huv => by
      by_contra hne
      refine hl.apart v u _ hne (hns v hv) (hns u hu) (hspot v hv).1 ?_
      rw [(hspot u hu).1]
      exact congrArg some huv.symm)
    (fun b => c.share (s.index b)) (fun b => s.room cfg c (s.index b)) (fun v => (s.priv v).owed c)
    (fun b _ => h.share_le hc b) hval
  rw [← State.figure_shown hc, ← hpend] at hlo hhi
  have hroom := hhi.trans (h.room_sum hc)
  have hlt : (if c = .codecBytes then (s.alloc.slotBytes : ℤ) else cfg.nblocks) < 2 ^ 64 := by
    obtain ⟨ls, hw⟩ := h.alloc.wf
    have h1 := hw.slotSum_le
    have h2 := h.alloc.bytes_eq
    have h3 := nblocks_mul cfg
    split <;> omega
  have hexact : (s.ctr c : ℤ) = s.figure cfg c - ∑ w ∈ F, (s.priv w).owed c := by
    have hmod := hk c (Counter.shown_kept hc)
    have hsmall := h.books.small c
    rw [Int.ModEq, Int.emod_eq_of_lt (by omega) (by omega), Int.emod_eq_of_lt hlo (by omega)] at hmod
    exact hmod
  exact ⟨⟨F, fun w hw => hF w hw c, hexact⟩, by rw [hexact]; exact hroom⟩

/-! ## Keeping the ledger -/

theorem moves_alloc (l : List Move) (s : State) : (s.moves w l).alloc = s.alloc := by
  induction l generalizing s with
  | nil => rfl
  | cons mv l ih => rw [State.moves, ih, move_alloc]

/-- Slots keep their sizes. -/
theorem exec_slotSize {o : Op} {c : Choice} {r : o.Res} {g : ℕ} (h : Inv cfg md s)
    (hp : Pre cfg md w o s) (he : exec cfg w o c s = some (r, s'))
    (hg : Alloc.Live cfg.heap s.alloc g) (hg' : Alloc.Live cfg.heap s'.alloc g) :
    Alloc.slotSize cfg.heap s'.alloc g = Alloc.slotSize cfg.heap s.alloc g := by
  cases o with
  | slotAlloc tag n =>
      simp only [exec] at he
      split at he
      · cases he
        rfl
      · rename_i hne
        cases he
        rcases Alloc.slotAlloc_spec h.alloc hp.2.1 hp.2.2 with ⟨hr, -⟩ | hok
        · exact absurd (.inr (by rw [hr])) hne
        · exact hok.sizes g hg
  | slotFree g' =>
      cases he
      exact (Alloc.slotFree_live h.alloc (hp.2.2.elim h.resv_live h.disp_live)).sizes g hg'
  | idxLoad why b => cases why <;> cases he <;> rfl
  | event e => cases e <;> cases he <;> rfl
  | sync =>
      simp only [exec] at he
      split at he
      · cases he
        rfl
      · cases he
        rw [moves_alloc]
  | _ =>
      simp only [exec] at he
      repeat' split at he
      all_goals cases he
      all_goals rfl

/-- An entry that stays keeps its slot. -/
theorem exec_slotOf {o : Op} {c : Choice} {r : o.Res} (h : Inv cfg md s) (h' : Inv cfg md s')
    (hp : Pre cfg md w o s) (he : exec cfg w o c s = some (r, s')) (hidx : s'.index = s.index)
    (b : ℕ) : s'.slotOf cfg (s'.index b) = s.slotOf cfg (s.index b) := by
  unfold State.slotOf
  by_cases hz : entClen (s.index b) = 0
  · rw [hidx, if_pos hz, if_pos hz]
  · have hl' := h'.entry_live (b := b) (by rwa [hidx])
    rw [hidx] at hl' ⊢
    rw [if_neg hz, if_neg hz, exec_slotSize h hp he (h.entry_live hz) hl']

/-- Only stores and counter updates change what a worker owes. -/
theorem exec_owed {o : Op} {c : Choice} {r : o.Res} (he : exec cfg w o c s = some (r, s')) :
    ((∀ v, (s'.priv v).owed = (s.priv v).owed) ∧ ∀ v, (s'.priv v).subs = (s.priv v).subs) ∨
      (∃ req b e, o = .idxStore req b e) ∨ (∃ x n, o = .ctrAdd x n) ∨ ∃ x n, o = .ctrSub x n := by
  have hset : ∀ {t : State} {p : Priv}, t.priv = s.priv → p.owed = (s.priv w).owed →
      p.subs = (s.priv w).subs → (∀ v, ((t.setPriv w p).priv v).owed = (s.priv v).owed) ∧
        ∀ v, ((t.setPriv w p).priv v).subs = (s.priv v).subs := by
    intro t p ht h1 h2
    refine ⟨fun v => ?_, fun v => ?_⟩
    all_goals
      by_cases hv : v = w
      · subst hv
        rw [State.setPriv_self]
        assumption
      · rw [State.setPriv_of_ne hv, ht]
  cases o with
  | idxStore req b e => exact .inr (.inl ⟨req, b, e, rfl⟩)
  | ctrAdd x n => exact .inr (.inr (.inl ⟨x, n, rfl⟩))
  | ctrSub x n => exact .inr (.inr (.inr ⟨x, n, rfl⟩))
  | idxLoad why b =>
      cases why <;> cases he
      · exact .inl ⟨fun _ => rfl, fun _ => rfl⟩
      · exact .inl (hset rfl rfl rfl)
      · exact .inl ⟨fun _ => rfl, fun _ => rfl⟩
  | event e =>
      cases e <;> cases he
      all_goals first
        | exact .inl ⟨fun _ => rfl, fun _ => rfl⟩
        | exact .inl (hset rfl rfl rfl)
  | sync =>
      simp only [exec] at he
      split at he
      · cases he
        exact .inl ⟨fun _ => rfl, fun _ => rfl⟩
      · cases he
        exact .inl ⟨fun v => by rw [moves_priv], fun v => by rw [moves_priv]⟩
  | _ =>
      simp only [exec] at he
      repeat' split at he
      all_goals cases he
      all_goals first
        | exact .inl ⟨fun _ => rfl, fun _ => rfl⟩
        | exact .inl (hset rfl rfl rfl)

/-- The ledger depends on the entries, the log and the accounts only. -/
theorem Ledger.congr (h : Ledger cfg s) (hidx : s'.index = s.index) (hlog : s'.log = s.log)
    (hroom : ∀ b, s'.slotOf cfg (s'.index b) = s.slotOf cfg (s.index b))
    (howed : ∀ v, (s'.priv v).owed = (s.priv v).owed)
    (hsubs : ∀ v, (s'.priv v).subs = (s.priv v).subs) : Ledger cfg s' := by
  have hset : ∀ v, (s'.priv v).Settled ↔ (s.priv v).Settled := by
    intro v
    simp only [Priv.Settled, howed, hsubs]
  have hspot : ∀ v, s'.spot v = s.spot v := by
    intro v
    simp only [State.spot, hlog]
  have hrm : ∀ c b, s'.room cfg c (s'.index b) = s.room cfg c (s.index b) := by
    intro c b
    cases c with
    | codecBytes => exact congrArg Nat.cast (hroom b)
    | _ => rfl
  refine ⟨fun v hv => ?_, fun v v' b hne hv hv' => ?_, fun v c => ?_, fun v b c hv => ?_⟩
  · rw [hspot]
    exact h.spot v (by rwa [hset] at hv)
  · rw [hspot, hspot]
    exact h.apart v v' b hne (by rwa [hset] at hv) (by rwa [hset] at hv')
  · rw [hsubs]
    exact h.subs v c
  · rw [hspot, howed, hsubs, hrm, hidx]
    exact h.val v b c (by rwa [hset] at hv)

theorem Ledger.move (h : Ledger cfg s) {mv : Move} : Ledger cfg (s.move w mv) := by
  refine h.congr (move_index mv) (move_log mv) (fun b => ?_) (fun v => ?_) fun v => ?_
  · rw [move_index]
    simp only [State.slotOf, move_alloc]
  · rw [move_priv]
  · rw [move_priv]

/-- One worker pays a counter: all it owes, or all it still has to subtract. -/
theorem Ledger.pay (h : Ledger cfg s) (hi : Inv cfg md s) {x : Counter} {k : ℤ} {ctr : Counter → ℕ}
    (hk : x.kept = true → 0 ≤ k ∧ (s.priv w).subs x = 0 ∧ (s.priv w).owed x = k ∨
      k ≤ 0 ∧ (s.priv w).subs x = -k) :
    Ledger cfg { s with ctr := ctr, priv := Function.update s.priv w ((s.priv w).pay x k) } := by
  by_cases hx : x.kept = true
  · have hk := hk hx
    obtain ⟨ho, hu⟩ := (⟨rfl, rfl⟩ : (s.priv w).Left x _ _).pay (k := k) hx
    have hother : ∀ c ≠ x, ((s.priv w).pay x k).Left c ((s.priv w).owed c) ((s.priv w).subs c) :=
      fun c hc => (⟨rfl, rfl⟩ : (s.priv w).Left c _ _).pay_of_ne hc
    have hu0 : ((s.priv w).pay x k).subs x = 0 := by
      rw [hu]
      omega
    have hns : ¬ ((s.priv w).pay x k).Settled → ¬ (s.priv w).Settled := by
      refine mt fun hset c => ?_
      obtain ⟨h1, h2⟩ := hset x
      by_cases hc : c = x
      · subst hc
        refine ⟨?_, hu0⟩
        rw [ho]
        omega
      · rw [(hother c hc).owed, (hother c hc).subs]
        exact hset c
    have hpriv : ∀ v, v ≠ w → Function.update s.priv w ((s.priv w).pay x k) v = s.priv v :=
      fun v hv => Function.update_of_ne hv _ _
    have hback : ∀ v, ¬ (Function.update s.priv w ((s.priv w).pay x k) v).Settled →
        ¬ (s.priv v).Settled := by
      intro v hv
      by_cases hvw : v = w
      · subst hvw
        rw [Function.update_self] at hv
        exact hns hv
      · rwa [hpriv v hvw] at hv
    refine ⟨fun v hv => h.spot v (hback v hv),
      fun v v' b hne hv hv' => h.apart v v' b hne (hback v hv) (hback v' hv'), fun v c => ?_,
      fun v b c hv hsp hc => ?_⟩
    · show 0 ≤ (Function.update s.priv w ((s.priv w).pay x k) v).subs c
      by_cases hvw : v = w
      · rw [hvw, Function.update_self]
        by_cases hcx : c = x
        · rw [hcx, hu0]
        · rw [(hother c hcx).subs]
          exact h.subs w c
      · rw [hpriv v hvw]
        exact h.subs v c
    · have hval := h.val v b c (hback v hv) hsp hc
      show (Function.update s.priv w ((s.priv w).pay x k) v).subs c ≤
        c.share (s.index b) - (Function.update s.priv w ((s.priv w).pay x k) v).owed c ∧
        c.share (s.index b) - (Function.update s.priv w ((s.priv w).pay x k) v).owed c ≤
          s.room cfg c (s.index b)
      by_cases hvw : v = w
      · rw [hvw] at hval ⊢
        rw [Function.update_self]
        by_cases hcx : c = x
        · subst hcx
          have hsh := hi.share_le hc b
          have hsub := h.subs w c
          rw [hu0, ho]
          omega
        · rw [(hother c hcx).owed, (hother c hcx).subs]
          exact hval
      · rw [hpriv v hvw]
        exact hval
  · refine h.congr rfl rfl (fun _ => rfl) (fun v => ?_) fun v => ?_
    all_goals
      rw [Priv.pay, if_neg hx, Function.update_eq_self]

theorem spot_append {l : List Mut} {m : Mut} :
    (((l ++ [m]).filter fun m' => m'.who = w).getLast?).map Mut.blk =
      if m.who = w then some m.blk else ((l.filter fun m' => m'.who = w).getLast?).map Mut.blk := by
  rw [List.filter_append]
  by_cases hw : m.who = w
  · simp [hw]
  · simp [hw]

/-- A tidy store by a worker that owes nothing opens its account. -/
theorem Ledger.store (h : Ledger cfg s)
    (hp : Pre cfg md w (.idxStore req b e) s) (ht : Tidy cfg w (.idxStore req b e) s) :
    Ledger cfg (s.store cfg w req b e) := by
  obtain ⟨-, hb, -, -, hset, -⟩ := hp
  obtain ⟨hfree, hcover⟩ := ht
  have hpw : (s.store cfg w req b e).priv w = (s.priv w).owe (s.index b) e :=
    Function.update_self ..
  have hpv : ∀ v, v ≠ w → (s.store cfg w req b e).priv v = s.priv v :=
    fun v hv => Function.update_of_ne hv _ _
  have hspw : (s.store cfg w req b e).spot w = some b := spot_append.trans (if_pos rfl)
  have hspv : ∀ v, v ≠ w → (s.store cfg w req b e).spot v = s.spot v :=
    fun v hv => spot_append.trans (if_neg fun h => hv h.symm)
  have hidx : ∀ b', b' ≠ b → (s.store cfg w req b e).index b' = s.index b' :=
    fun b' hb' => Function.update_of_ne hb' _ _
  have hidxb : (s.store cfg w req b e).index b = e := Function.update_self ..
  refine ⟨fun v hv => ?_, fun v v' b' hne hv hv' => ?_, fun v c => ?_, fun v b' c hv hsp hc => ?_⟩
  · by_cases hvw : v = w
    · rw [hvw]
      exact ⟨b, hb, hspw⟩
    · rw [hspv v hvw]
      exact h.spot v (by rwa [hpv v hvw] at hv)
  · by_cases hvw : v = w
    · subst hvw
      have hv'w : v' ≠ v := fun h => hne h.symm
      rw [hspw, hspv v' hv'w]
      intro h1 h2
      exact hfree v' hv'w (by rwa [hpv v' hv'w] at hv') (h2.trans h1.symm)
    · rw [hspv v hvw]
      rw [hpv v hvw] at hv
      by_cases hvw' : v' = w
      · subst hvw'
        rw [hspw]
        intro h1 h2
        exact hfree v hvw hv (h1.trans h2.symm)
      · rw [hspv v' hvw']
        exact h.apart v v' b' hne hv (by rwa [hpv v' hvw'] at hv')
  · by_cases hvw : v = w
    · rw [hvw, hpw, (hset.left (s.index b) e c).subs]
      cases c <;> simp only [Counter.cost]
      all_goals first
        | exact le_rfl
        | exact Int.natCast_nonneg _
        | (split <;> decide)
    · rw [hpv v hvw]
      exact h.subs v c
  · by_cases hvw : v = w
    · subst hvw
      rw [hspw, Option.some.injEq] at hsp
      subst hsp
      rw [hpw, (hset.left (s.index b) e c).subs, (hset.left (s.index b) e c).owed, hidxb]
      cases c with
      | codecBytes =>
          simp only [Counter.cost, Counter.due, Counter.share, State.room]
          have hsl : (s.store cfg v req b e).slotOf cfg e = s.slotOf cfg e := rfl
          rw [hsl]
          by_cases hz : entClen (s.index b) = 0
          · omega
          · have := hcover hz
            omega
      | blocksLive =>
          simp only [Counter.cost, Counter.due, Counter.share, State.room]
          grind
      | rawBlocks =>
          simp only [Counter.cost, Counter.due, Counter.share, State.room]
          grind
      | _ => cases hc
    · rw [hspv v hvw] at hsp
      rw [hpv v hvw] at hv
      have hbb : b' ≠ b := by
        intro hbb
        rw [hbb] at hsp
        exact hfree v hvw hv hsp
      have hval := h.val v b' c hv hsp hc
      rw [hpv v hvw, hidx b' hbb]
      cases c with
      | codecBytes => exact hval
      | blocksLive | rawBlocks => exact hval
      | _ => cases hc

/-- **Every tidy step keeps the ledger.** -/
theorem exec_ledger {o : Op} {c : Choice} {r : o.Res} (h : Ledger cfg s) (hi : Inv cfg md s)
    (hi' : Inv cfg md s') (hp : Pre cfg md w o s) (ht : Tidy cfg w o s)
    (he : exec cfg w o c s = some (r, s')) : Ledger cfg s' := by
  rcases exec_owed he with ⟨ho, hu⟩ | ⟨req, b, e, rfl⟩ | ⟨x, n, rfl⟩ | ⟨x, n, rfl⟩
  · rcases exec_store he with ⟨hidx, -, hlog⟩ | ⟨req, b, e, rfl, rfl⟩
    · exact h.congr hidx hlog (exec_slotOf hi hi' hp he hidx) ho hu
    · exact h.store hp ht
  · cases he
    exact h.store hp ht
  · cases he
    exact h.pay hi fun hx => .inl ⟨Int.natCast_nonneg n, (hp hx).2⟩
  · cases he
    refine h.pay hi fun hx => .inr ⟨by omega, ?_⟩
    rw [(hp hx).2, neg_neg]

/-- A run in which every index store is tidy. -/
def Daemon.TidyRun (cfg : Config) : Daemon cfg → Daemon cfg → Prop :=
  Sys.Run (fun w o _ s => Tidy cfg w o s) fun _ => next cfg

theorem Daemon.TidyRun.run {S S' : Daemon cfg} (h : Daemon.TidyRun cfg S S') :
    Daemon.Run cfg .any S S' := by
  induction h with
  | refl => exact .refl
  | tail _ hstep ih =>
      refine ih.tail ?_
      cases hstep with
      | act hw _ he => exact .act hw (Mode.any_adm cfg _ _ _ _) he
      | tau ht => exact .tau ht

theorem Daemon.TidyRun.ledger {S₀ S : Daemon cfg} (h0 : Daemon.Initial cfg S₀)
    (hrun : Daemon.TidyRun cfg S₀ S) : Ledger cfg S.st := by
  induction hrun with
  | refl =>
      refine ⟨fun v hv => ?_, fun v v' b _ hv => ?_, fun v c => ?_, fun v b c hv => ?_⟩
      · exact absurd (h0.1.owed v) hv
      · exact absurd (h0.1.owed v) hv
      · exact (h0.1.owed v c).2.ge
      · exact absurd (h0.1.owed v) hv
  | @tail S₁ S₂ hrun hstep ih =>
      have h₁ : Daemon.Reachable cfg .any S₁ := ⟨S₀, h0, Daemon.TidyRun.run hrun⟩
      have h₂ : Daemon.Reachable cfg .any S₂ := ⟨S₀, h0, Daemon.TidyRun.run (hrun.tail hstep)⟩
      have hi₂ := h₂.inv rfl
      cases hstep with
      | act hw ht he => exact exec_ledger ih (h₁.inv rfl) hi₂ (h₁.pre rfl hw) ht he
      | tau ht =>
          cases ht with
          | move _ => exact ih.move
          | stop => exact ih.congr rfl rfl (fun _ => rfl) (fun _ => rfl) fun _ => rfl

/-- **The statistics stay meaningful in tidy runs.** With any number of workers, in every state of a
run in which no index store hits a block whose last mutation is still being counted by another
worker, and written entries are replaced only by entries whose slots have room for the stored bytes
of the old ones: the live and the verbatim blocks counted are at most the blocks of the device, the
stored bytes counted are at most the slot bytes, so their difference is not negative, and none of
these counters has wrapped. -/
theorem statistics_meaningful {S₀ S : Daemon cfg} (h0 : Daemon.Initial cfg S₀)
    (hrun : Daemon.TidyRun cfg S₀ S) :
    S.st.ctr .blocksLive ≤ cfg.nblocks ∧ S.st.ctr .rawBlocks ≤ cfg.nblocks ∧
    S.st.ctr .codecBytes ≤ S.st.alloc.slotBytes ∧
    ∀ c, c.shown = true → ∃ F : Finset ℕ, (∀ w, w ∉ F → (S.st.priv w).owed c = 0) ∧
      (S.st.ctr c : ℤ) = S.st.figure cfg c - ∑ w ∈ F, (S.st.priv w).owed c := by
  have hl := hrun.ledger h0
  have hi : Inv cfg .any S.st := Daemon.Reachable.inv ⟨S₀, h0, hrun.run⟩ rfl
  refine ⟨?_, ?_, ?_, fun c hc => (hl.bounds hi hc).1⟩
  · exact_mod_cast (hl.bounds hi (c := .blocksLive) rfl).2
  · exact_mod_cast (hl.bounds hi (c := .rawBlocks) rfl).2
  · exact_mod_cast (hl.bounds hi (c := .codecBytes) rfl).2

/-- Whether the index stores of a driven run are all of blocks that nobody has written. -/
def Daemon.driveFresh (w : ℕ) : List Choice → Daemon cfg → Bool
  | [], _ => true
  | c :: cs, S =>
    match unfold (next cfg) (S.prog w) with
    | .ret _ => true
    | .act o k =>
      (match o with
        | .idxStore _ b _ => entClen (S.st.index b) == 0
        | _ => true) &&
      match exec cfg w o c S.st with
      | none => true
      | some x => Daemon.driveFresh w cs ⟨x.2, Function.update S.prog w (k x.1)⟩

/-- A worker leaves the accounts of the others alone. -/
theorem exec_settled_of_ne {o : Op} {c : Choice} {r : o.Res} (he : exec cfg w o c s = some (r, s'))
    (hv : v ≠ w) (hq : (s.priv v).Settled) : (s'.priv v).Settled := by
  have hkeep : ∀ (p : Priv), (Function.update s.priv w p v).Settled := by
    intro p
    rwa [Function.update_of_ne hv]
  rcases exec_owed he with ⟨ho, hu⟩ | ⟨req, b, e, rfl⟩ | ⟨x, n, rfl⟩ | ⟨x, n, rfl⟩
  · intro x
    rw [ho, hu]
    exact hq x
  · cases he
    exact hkeep _
  · cases he
    exact hkeep _
  · cases he
    exact hkeep _

/-- A worker alone, storing entries of unwritten blocks only, runs tidily. -/
theorem Daemon.drive_tidy (cs : List Choice) (S : Daemon cfg)
    (hq : ∀ v ≠ w, (S.st.priv v).Settled) (hf : Daemon.driveFresh w cs S = true) :
    Daemon.TidyRun cfg S (Daemon.drive w cs S) := by
  induction cs generalizing S with
  | nil => exact .refl
  | cons c cs ih =>
      rw [Daemon.driveFresh] at hf
      rw [Daemon.drive]
      split
      · exact .refl
      · rename_i o k hk
        simp only [hk, Bool.and_eq_true] at hf
        obtain ⟨hfresh, hrest⟩ := hf
        split
        · exact .refl
        · rename_i x he
          have ht : Tidy cfg w o S.st := by
            cases o with
            | idxStore req b e =>
                exact ⟨fun v hv hns => absurd (hq v hv) hns,
                  fun hne => absurd (by simpa using hfresh) hne⟩
            | _ => trivial
          have hq' : ∀ v ≠ w, (x.2.priv v).Settled :=
            fun v hv => exec_settled_of_ne he hv (hq v hv)
          simp only [he] at hrest
          exact .head (.act hk ht he) (ih ⟨x.2, Function.update S.prog w (k x.1)⟩ hq' hrest)

set_option maxRecDepth 100000 in
theorem statistics_meaningful_wrote : Daemon.wrote.st.ctr .blocksLive = 1 ∧
    Daemon.wrote.st.ctr .codecBytes ≤ Daemon.wrote.st.alloc.slotBytes := by
  have hrun : Daemon.TidyRun smallConfig (Daemon.booted smallConfig) Daemon.wrote :=
    Daemon.drive_tidy _ _ (fun v _ => (State.boot_initial smallConfig).owed v) rfl
  exact ⟨rfl, (statistics_meaningful
    ⟨State.boot_initial smallConfig, fun _ => .inr ⟨.blank, rfl⟩⟩ hrun).2.2.1⟩

/-- A TRIM of the first block. -/
def trimRaw : List UInt8 :=
  [0x25, 0x60, 0x95, 0x13, 0, 0, 0, 4, 0, 0, 0, 0, 0, 0, 0, 2, 0, 0, 0, 0, 0, 0, 0, 0, 0, 0, 16, 0]

/-- A worker that has freed the slot of the trimmed block and not yet counted its bytes out. -/
def Daemon.trimming : Daemon smallConfig :=
  Daemon.drive 0 (.client (byteWrite ++ trimRaw) :: List.replicate 40 .plain)
    (Daemon.booted smallConfig)

set_option maxRecDepth 100000 in
theorem statistics_meaningful_trimming : ∃ S : Daemon smallConfig,
    Daemon.Reachable smallConfig .any S ∧ ¬ S.st.ctr .codecBytes ≤ S.st.alloc.slotBytes := by
  have hcodec : Daemon.trimming.st.ctr .codecBytes = 4096 := rfl
  have hslots : Daemon.trimming.st.alloc.slotBytes = 0 := rfl
  refine ⟨Daemon.trimming, Daemon.booted_drive smallConfig 0 _, ?_⟩
  rw [hcodec, hslots]
  decide

end NbdVram
