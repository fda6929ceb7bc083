import NbdVram.Copies
import NbdVram.Draws
import NbdVram.Startup
import NbdVram.Stats

/-!
# The device can be filled

Without a codec every stored block is a page, so the heap serves one size class and
`slot_alloc` fails only when all its slots are out. `main` has made the device no
larger than the heap. What remains is to count: between requests the slots that are
out are those of the written blocks, and a request that is executed by itself asks
for one more slot per block at most.
-/

namespace NbdVram

open Interleave

variable {cfg : Config} {md : Mode} {s s' : State} {v w : ℕ} {r : Req}

/-! ## One action -/

/-- Only `slot_alloc` and `slot_free` change the allocator, and a failed allocation does not. -/
theorem exec_alloc {o : Op} {c : Choice} {x : o.Res} (he : exec cfg w o c s = some (x, s')) :
    s'.alloc = s.alloc ∨
    (∃ tag n, o = .slotAlloc tag n ∧ (Alloc.slotAlloc cfg.heap s.alloc n).1.1 ≠ slotNone ∧
      s'.alloc = (Alloc.slotAlloc cfg.heap s.alloc n).2) ∨
    ∃ g, o = .slotFree g ∧ s'.alloc = (Alloc.slotFree cfg.heap s.alloc g).2 := by
  cases o with
  | slotAlloc tag n =>
      simp only [exec] at he
      split at he
      · cases he
        exact .inl rfl
      · rename_i hne
        cases he
        exact .inr (.inl ⟨tag, n, rfl, fun hz => hne (.inr hz), rfl⟩)
  | slotFree g =>
      cases he
      exact .inr (.inr ⟨g, rfl, rfl⟩)
  | idxLoad why b => cases why <;> cases he <;> exact .inl rfl
  | event e => cases e <;> cases he <;> exact .inl rfl
  | sync =>
      simp only [exec] at he
      split at he <;> cases he
      · exact .inl rfl
      · exact .inl (moves_alloc _ _)
  | _ =>
      simp only [exec] at he
      repeat' split at he
      all_goals cases he
      all_goals exact .inl rfl

/-- The slots that are out: unchanged, one more after `slot_alloc`, some less after `slot_free`. -/
theorem exec_liveSet {o : Op} {c : Choice} {x : o.Res} (hi : Inv cfg md s) (hp : Pre cfg md w o s)
    (he : exec cfg w o c s = some (x, s')) :
    (Alloc.liveSet cfg.heap s'.alloc).card ≤ (Alloc.liveSet cfg.heap s.alloc).card ∨
    (∃ tag n, o = .slotAlloc tag n) ∧
      (Alloc.liveSet cfg.heap s'.alloc).card ≤ (Alloc.liveSet cfg.heap s.alloc).card + 1 := by
  obtain ⟨ls, hw⟩ := hi.alloc.wf
  rcases exec_alloc he with ha | ⟨tag, n, rfl, hne, ha⟩ | ⟨g, rfl, ha⟩
  · rw [ha]
    exact .inl le_rfl
  · refine .inr ⟨⟨tag, n, rfl⟩, ?_⟩
    obtain ⟨-, hn, hn'⟩ := hp
    rcases Alloc.slotAlloc_spec hi.alloc hn hn' with ⟨hr, -⟩ | hok
    · exact absurd (congrArg Prod.fst hr) hne
    · obtain ⟨ls', hw'⟩ := hok.inv.wf
      have hsub : Alloc.liveSet cfg.heap s'.alloc ⊆
          insert (Alloc.slotAlloc cfg.heap s.alloc n).1.1 (Alloc.liveSet cfg.heap s.alloc) := by
        intro g hg
        rw [ha, hw'.mem_liveSet, hok.live] at hg
        rw [Finset.mem_insert, hw.mem_liveSet]
        exact hg.symm
      exact (Finset.card_le_card hsub).trans (Finset.card_insert_le _ _)
  · have hlive : Alloc.Live cfg.heap s.alloc g := hp.2.2.elim hi.resv_live hi.disp_live
    have hf := Alloc.slotFree_live hi.alloc hlive
    obtain ⟨ls', hw'⟩ := hf.inv.wf
    refine .inl (Finset.card_le_card fun g' hg' => ?_)
    rw [ha, hw'.mem_liveSet, hf.live] at hg'
    exact hw.mem_liveSet.mpr hg'.1

/-- A fault is an I/O error, or an allocation that has failed. -/
theorem exec_faults {o : Op} {c : Choice} {x : o.Res} {f : Fault}
    (he : exec cfg w o c s = some (x, s')) (hf : f ∈ (s'.priv v).faults) :
    f ∈ (s.priv v).faults ∨ f.eio = true ∨ v = w ∧ ∃ tag n, o = .slotAlloc tag n ∧
      (c.fail = true ∨ (Alloc.slotAlloc cfg.heap s.alloc n).1.1 = slotNone) := by
  have hset : ∀ {q : ℕ → Priv} {p : Priv}, f ∈ (q v).faults → q = Function.update s.priv w p →
      (∀ f ∈ p.faults, f ∈ (s.priv w).faults ∨ f.eio = true) →
      f ∈ (s.priv v).faults ∨ f.eio = true := by
    intro q p hm hq hp
    rw [hq] at hm
    by_cases hv : v = w
    · subst hv
      rw [Function.update_self] at hm
      exact hp f hm
    · rw [Function.update_of_ne hv] at hm
      exact .inl hm
  have hsame : ∀ {p : Priv}, p.faults = (s.priv w).faults →
      ∀ f ∈ p.faults, f ∈ (s.priv w).faults ∨ f.eio = true := by
    intro p hp f hm
    rw [hp] at hm
    exact .inl hm
  have hnew : ∀ {tag : Tag}, f ∈ ((s.addFault w tag true).priv v).faults →
      f ∈ (s.priv v).faults ∨ f.eio = true := by
    intro tag hf
    refine hset hf rfl fun f hm => ?_
    rcases List.mem_cons.mp hm with rfl | hm
    · exact .inr rfl
    · exact .inl hm
  have hwiden : f ∈ (s.priv v).faults ∨ f.eio = true → f ∈ (s.priv v).faults ∨ f.eio = true ∨
      v = w ∧ ∃ tag n, o = .slotAlloc tag n ∧
        (c.fail = true ∨ (Alloc.slotAlloc cfg.heap s.alloc n).1.1 = slotNone) :=
    fun h => h.elim .inl fun h => .inr (.inl h)
  cases o with
  | slotAlloc tag n =>
      simp only [exec] at he
      split at he
      · rename_i hfail
        cases he
        by_cases hv : v = w
        · exact .inr (.inr ⟨hv, tag, n, rfl, hfail⟩)
        · rw [State.addFault, State.setPriv_of_ne hv] at hf
          exact .inl hf
      · cases he
        exact .inl hf
  | idxStore req b e =>
      cases he
      exact hwiden (hset hf rfl (hsame rfl))
  | ctrAdd y n | ctrSub y n =>
      cases he
      refine hwiden (hset hf rfl (hsame ?_))
      unfold Priv.pay
      split <;> rfl
  | idxLoad why b =>
      cases why <;> cases he
      · exact .inl hf
      · exact hwiden (hset hf rfl (hsame rfl))
      · exact .inl hf
  | event e =>
      cases e with
      | begin reqs =>
          cases he
          exact hwiden (hset hf rfl fun f hm => by cases hm)
      | enter | leave =>
          cases he
          exact hwiden (hset hf rfl (hsame rfl))
      | corrupt tag =>
          cases he
          exact hwiden (hnew hf)
      | _ =>
          cases he
          exact .inl hf
  | sync =>
      simp only [exec] at he
      split at he <;> cases he
      · exact .inl hf
      · rw [moves_priv] at hf
        exact .inl hf
  | htod tag slot g n | dtoh tag slot g n =>
      simp only [exec] at he
      split at he <;> cases he
      · exact hwiden (hnew hf)
      · exact .inl hf
  | accept =>
      simp only [exec] at he
      split at he <;> cases he
      · exact .inl hf
      · exact hwiden (hset hf rfl fun f hm => by cases hm)
  | recv n | recvNb n | send bs =>
      simp only [exec] at he
      repeat' split at he
      all_goals cases he
      all_goals first
        | exact .inl hf
        | exact hwiden (hset hf rfl (hsame rfl))
  | _ =>
      simp only [exec] at he
      repeat' split at he
      all_goals cases he
      all_goals exact .inl hf

/-! ## Slots and written blocks -/

/-- Entries beyond the device stay unwritten. -/
theorem Daemon.Reachable.written_lt {S : Daemon cfg} (h : Daemon.Reachable cfg md S)
    (hs : md.since = 0) : ∀ b, entClen (S.st.index b) ≠ 0 → b < cfg.nblocks := by
  refine h.induct hs (P := fun s => ∀ b, entClen (s.index b) ≠ 0 → b < cfg.nblocks) ?_ ?_ ?_
  · intro s h0 b hb
    rw [h0.index] at hb
    exact absurd rfl hb
  · intro u o c x s s' hp he hP b hb
    rcases exec_store he with ⟨hidx, -, -⟩ | ⟨req, b', e, rfl, rfl⟩
    · rw [hidx] at hb
      exact hP b hb
    · by_cases hbb : b = b'
      · rw [hbb]
        exact hp.2.1
      · refine hP b ?_
        rwa [show (s.store cfg u req b' e).index b = s.index b from Function.update_of_ne hbb _ _] at hb
  · intro s s' ht hP
    cases ht with
    | move _ =>
        rw [move_index]
        exact hP
    | stop => exact hP

/-- While every worker is between requests, the slots that are out are those of written blocks. -/
theorem State.Tight.of_quiet (hi : Inv cfg .kept s) (hq : ∀ v, Quiet .kept v s) : s.Tight cfg := by
  intro g hg
  obtain ⟨own, ho⟩ := hi.owned
  obtain ⟨o, hown⟩ := Option.ne_none_iff_exists'.mp ((ho.live g).mp hg)
  cases o with
  | entry b => exact ⟨b, (ho.entry b g).mp hown⟩
  | resv v => cases (hq v).resv rfl g ((ho.resv v g).mp hown)
  | disp v =>
      have hmem := (ho.disp v g).mp hown
      rw [(hq v).disp] at hmem
      cases hmem

/-- Then there are no more of them than written blocks. -/
theorem State.Tight.card_le (ht : s.Tight cfg) (hi : Inv cfg md s)
    (hlt : ∀ b, entClen (s.index b) ≠ 0 → b < cfg.nblocks) :
    (Alloc.liveSet cfg.heap s.alloc).card ≤ (s.written cfg).card := by
  obtain ⟨ls, hw⟩ := hi.alloc.wf
  have hsub : Alloc.liveSet cfg.heap s.alloc ⊆ (s.written cfg).image fun b => entGrain (s.index b) := by
    intro g hg
    obtain ⟨b, hb, rfl⟩ := ht g (hw.mem_liveSet.mp hg)
    exact Finset.mem_image_of_mem _ (Finset.mem_filter.mpr ⟨Finset.mem_range.mpr (hlt b hb), hb⟩)
  exact (Finset.card_le_card hsub).trans Finset.card_image_le

/-- A range on the device ends inside it. -/
theorem Req.span_le (hr : r.cmd = .write) : (r.span cfg).1 ≤ (r.span cfg).2 ∧
    ((r.span cfg).1 < (r.span cfg).2 → (r.span cfg).2 ≤ cfg.nblocks) := by
  unfold Req.span
  by_cases ho : r.Oob cfg ∨ r.len = 0
  · rw [if_pos ho]
    exact ⟨le_rfl, fun hlt => absurd hlt (lt_irrefl _)⟩
  · rw [if_neg ho]
    obtain ⟨hno, hlen⟩ := not_or.mp ho
    have hin : ¬ oob cfg r.off r.len := fun hoob => hno ⟨.inr (.inl hr), hoob⟩
    rw [oob_iff] at hin
    have hdvd := Nat.div_mul_cancel cfg.disk_blocks
    refine ⟨by omega, fun _ => ?_⟩
    show _ ≤ cfg.diskSize / 4096
    omega

theorem Req.touches_of_span {b : ℕ} (h : (r.span cfg).1 ≤ b) (h' : b < (r.span cfg).2) :
    r.Touches b := by
  unfold Req.span at h h'
  by_cases ho : r.Oob cfg ∨ r.len = 0
  · rw [if_pos ho] at h'
    exact absurd h' (not_lt.mpr h)
  · rw [if_neg ho] at h'
    obtain ⟨-, hlen⟩ := not_or.mp ho
    exact ⟨Nat.pos_of_ne_zero hlen, h, by omega⟩

/-- Where the blocks of a request are unwritten, they and the written ones fit the device. -/
theorem written_room (hr : r.cmd = .write)
    (hfree : ∀ b, r.Touches b → entClen (s.index b) = 0) :
    (s.written cfg).card + ((r.span cfg).2 - (r.span cfg).1) ≤ cfg.nblocks := by
  have hle : (r.span cfg).1 < (r.span cfg).2 → (r.span cfg).2 ≤ cfg.nblocks := (Req.span_le hr).2
  have hdisj : Disjoint (s.written cfg) (Finset.Ico (r.span cfg).1 (r.span cfg).2) := by
    refine Finset.disjoint_left.mpr fun b hb hb' => ?_
    obtain ⟨h1, h2⟩ := Finset.mem_Ico.mp hb'
    exact (Finset.mem_filter.mp hb).2 (hfree b (Req.touches_of_span h1 h2))
  have hsub : s.written cfg ∪ Finset.Ico (r.span cfg).1 (r.span cfg).2 ⊆
      Finset.range cfg.nblocks := by
    refine Finset.union_subset (Finset.filter_subset _ _) fun b hb => ?_
    obtain ⟨h1, h2⟩ := Finset.mem_Ico.mp hb
    exact Finset.mem_range.mpr (h2.trans_le (hle (h1.trans_lt h2)))
  have hcard := Finset.card_le_card hsub
  rwa [Finset.card_union_of_disjoint hdisj, Nat.card_Ico, Finset.card_range] at hcard

/-! ## One size class -/

/-- Without a codec a block is stored as it is. -/
theorem compBlock_none (hk : cfg.codec.kind = .none) (p : Page) :
    (cfg.codec.compBlock p).length = 4096 := by
  rw [Codec.compBlock, hk]
  exact p.length_eq

/-- What the discipline allows of `slot_alloc` without a codec. -/
theorem drawing_none {tag : Tag} {n : ℕ} {g : Option (ℕ × ℕ)} (hk : cfg.codec.kind = .none)
    (h : (drawing cfg).ok g (.slotAlloc tag n)) :
    n = 4096 ∧ ∀ q, g = some q → q.1 ≤ tag.blk ∧ tag.blk < q.2 := by
  obtain ⟨⟨p, hp⟩, hq⟩ := h
  exact ⟨hp.trans (compBlock_none hk p), hq⟩

theorem exec_uniform {o : Op} {c : Choice} {x : o.Res} (hi : Inv cfg md s) (hp : Pre cfg md w o s)
    (hn : ∀ tag n, o = .slotAlloc tag n → n = 4096) (he : exec cfg w o c s = some (x, s'))
    (hu : Alloc.Uniform cfg.heap s.alloc 63) : Alloc.Uniform cfg.heap s'.alloc 63 := by
  rcases exec_alloc he with ha | ⟨tag, n, ho, hne, ha⟩ | ⟨g, rfl, ha⟩
  · rwa [ha]
  · obtain rfl := hn tag n ho
    rw [ha]
    rcases Alloc.slotAlloc_spec hi.alloc (n := 4096) (by decide) (by decide) with ⟨hr, -⟩ | hok
    · exact absurd (congrArg Prod.fst hr) hne
    · exact hu.alloc hi.alloc (by decide) (by decide) hok
  · rw [ha]
    exact hu.free hi.alloc (hp.2.2.elim hi.resv_live hi.disp_live)

theorem tau_alloc (h : Tau s s') : s'.alloc = s.alloc ∧ ∀ v, (s'.priv v).faults = (s.priv v).faults := by
  cases h with
  | move _ => exact ⟨move_alloc _, fun v => by rw [move_priv]⟩
  | stop => exact ⟨rfl, fun _ => rfl⟩

/-- **Without a codec all slots are pages**, and every worker keeps the drawing discipline. -/
theorem Daemon.Reachable.uniform {S : Daemon cfg} (h : Daemon.Reachable cfg md S)
    (hs : md.since = 0) (hk : cfg.codec.kind = .none) : Alloc.Uniform cfg.heap S.st.alloc 63 ∧
      ∃ g, S.Obeys (drawing cfg) (fun _ _ => True) g := by
  obtain ⟨S₀, h0, hrun⟩ := h
  induction hrun with
  | refl =>
      rw [h0.1.alloc]
      refine ⟨.init 63, fun _ => none, fun v => ?_⟩
      rcases h0.2 v with hp | ⟨m, hp⟩
      · rw [hp]
        trivial
      · rw [hp]
        trivial
  | @tail S₁ S₂ hrun hstep ih =>
      obtain ⟨hu, g, hg⟩ := ih
      have h₁ : Daemon.Reachable cfg md S₁ := ⟨S₀, h0, hrun⟩
      cases hstep with
      | tau ht =>
          rw [(tau_alloc ht).1]
          exact ⟨hu, g, hg⟩
      | act hw ha he =>
          obtain ⟨hok, hnext⟩ := hg.act (fun _ ph g _ => next_keeps ph g) hw
          refine ⟨exec_uniform (h₁.inv hs) (h₁.pre hs hw) (fun tag n ho => ?_) he hu, _, hnext _ _⟩
          rw [ho] at hok
          exact (drawing_none hk hok).1

/-! ## A request by itself -/

/-- Worker `w` begins to execute the request, which brings the daemon from `S` to `T`. -/
def Daemon.Begins (S T : Daemon cfg) (w : ℕ) (r : Req) : Prop :=
  ∃ k c s', unfold (next cfg) (S.prog w) = .act (σ := sig) (.event (.begin [r])) k ∧
    exec cfg w (.event (.begin [r])) c S.st = some ((), s') ∧
    T = ⟨s', Function.update S.prog w (k ())⟩

/-- While worker `w` executes one request by itself, nobody else takes slots, gives them back or
stores entries; `w` begins no other request; `slot_alloc` fails only where its code does; and no
copy of `do_blocks` to the device is rejected. -/
def Sole (cfg : Config) (w v : ℕ) (o : Op) (c : Choice) (s : State) : Prop :=
  Mode.kept.Adm cfg v o c s ∧
    match o with
    | .slotAlloc _ _ => v = w ∧ c.fail = false
    | .slotFree _ | .idxStore _ _ _ => v = w
    | .event (.begin _) => v ≠ w
    | _ => True

/-- A run of this kind. -/
def Daemon.SoleRun (cfg : Config) (w : ℕ) : Daemon cfg → Daemon cfg → Prop :=
  Sys.Run (Sole cfg w) fun _ => next cfg

theorem Daemon.SoleRun.run {S S' : Daemon cfg} (h : Daemon.SoleRun cfg w S S') :
    Daemon.Run cfg .kept S S' := by
  induction h with
  | refl => exact .refl
  | tail _ hstep ih =>
      refine ih.tail ?_
      cases hstep with
      | act hw ha he => exact .act hw ha.1 he
      | tau ht => exact .tau ht

theorem Daemon.Begins.reachable {S T : Daemon cfg} (h : Daemon.Reachable cfg .kept S)
    (hb : S.Begins T w r) : Daemon.Reachable cfg .kept T := by
  obtain ⟨k, c, s', hk, he, rfl⟩ := hb
  obtain ⟨S₀, h0, hrun⟩ := h
  have hadm : Mode.kept.Adm cfg w (.event (.begin [r])) c S.st := fun hno => absurd hno (by decide)
  exact ⟨S₀, h0, hrun.tail (.act hk hadm he)⟩

/-- How far worker `w` has come with its request: the next block that it may draw for is `lo`, one
slot at most has been taken for each block before, and no allocation has failed. -/
structure Drawn (S' : Daemon cfg) (w : ℕ) (r : Req) (n lo : ℕ) (g : ℕ → Option (ℕ × ℕ)) : Prop where
  obeys : S'.Obeys (drawing cfg) (fun _ _ => True) g
  span : g w = some (lo, (r.span cfg).2)
  first : (r.span cfg).1 ≤ lo
  live : (Alloc.liveSet cfg.heap S'.st.alloc).card ≤ n + (lo - (r.span cfg).1)
  faults : ∀ f ∈ (S'.st.priv w).faults, f.eio = true

/-- As long as there is room for all its blocks, the request's `slot_alloc` succeeds. -/
theorem Drawn.alloc {S' : Daemon cfg} {n lo : ℕ} {g : ℕ → Option (ℕ × ℕ)} (h : Drawn S' w r n lo g)
    (hreach : Daemon.Reachable cfg .kept S') (hk : cfg.codec.kind = .none)
    (hroom : n + ((r.span cfg).2 - (r.span cfg).1) ≤ Alloc.capacity cfg.heap 63)
    {tag : Tag} {m : ℕ} (hnext : S'.Next w (.slotAlloc tag m)) :
    (Alloc.slotAlloc cfg.heap S'.st.alloc m).1.1 ≠ slotNone ∧ lo ≤ tag.blk ∧
      tag.blk < (r.span cfg).2 := by
  obtain ⟨k, hw⟩ := hnext
  obtain ⟨hok, -⟩ := h.obeys.act (fun _ ph g _ => next_keeps ph g) hw
  obtain ⟨rfl, hq⟩ := drawing_none hk hok
  obtain ⟨hlo, hhi⟩ := hq _ h.span
  refine ⟨fun hfail => ?_, hlo, hhi⟩
  -- a failure means that all slots of the heap are out
  have hfull := ((hreach.uniform rfl hk).1.full_iff (hreach.inv rfl).alloc (by decide)
    (n := 4096) (by decide) (by decide)).mp hfail
  have hlive := h.live
  have hfirst := h.first
  simp only at hlo hhi
  omega

/-- **Every step of a request that is executed by itself** keeps the count. -/
theorem Drawn.step {S₁ S₂ : Daemon cfg} {n lo : ℕ} {g : ℕ → Option (ℕ × ℕ)} (h : Drawn S₁ w r n lo g)
    (hreach : Daemon.Reachable cfg .kept S₁) (hk : cfg.codec.kind = .none)
    (hroom : n + ((r.span cfg).2 - (r.span cfg).1) ≤ Alloc.capacity cfg.heap 63)
    (hs : Sys.Step (Sole cfg w) (fun _ => next cfg) S₁ S₂) : ∃ lo' g', Drawn S₂ w r n lo' g' := by
  cases hs with
  | tau ht =>
      obtain ⟨ha, hf⟩ := tau_alloc ht
      refine ⟨lo, g, h.obeys, h.span, h.first, ?_, ?_⟩
      · rw [ha]
        exact h.live
      · rw [hf]
        exact h.faults
  | @act v o k c x s' hw hadm he =>
      obtain ⟨hok, hnext⟩ := h.obeys.act (fun _ ph g _ => next_keeps ph g) hw
      have hlive := exec_liveSet (hreach.inv rfl) (hreach.pre rfl hw) he
      have hfaults : ∀ f ∈ (s'.priv w).faults, f.eio = true := by
        intro f hf
        rcases exec_faults he hf with hold | hio | ⟨rfl, tag, m, rfl, hfail | hfail⟩
        · exact h.faults f hold
        · exact hio
        · exact absurd hadm.2.2 (by simp [hfail])
        · exact absurd hfail (h.alloc hreach hk hroom ⟨k, hw⟩).1
      by_cases hv : v = w
      · subst hv
        by_cases ho : ∃ tag m, o = .slotAlloc tag m
        · obtain ⟨tag, m, rfl⟩ := ho
          obtain ⟨-, hlo, hhi⟩ := h.alloc hreach hk hroom ⟨k, hw⟩
          have hfirst := h.first
          have hcount := h.live
          refine ⟨tag.blk + 1, _, hnext x s', ?_, by omega, ?_, hfaults⟩
          · refine (Function.update_self ..).trans ?_
            show (g v).map _ = _
            rw [h.span]
            rfl
          · show (Alloc.liveSet cfg.heap s'.alloc).card ≤ _
            rcases hlive with hle | ⟨-, hle⟩ <;> omega
        · -- the other actions of the worker leave its account alone
          refine ⟨lo, _, hnext x s', ?_, h.first, ?_, hfaults⟩
          · refine (Function.update_self ..).trans (Eq.trans ?_ h.span)
            cases o with
            | slotAlloc tag m => exact absurd ⟨tag, m, rfl⟩ ho
            | event e =>
                cases e with
                | begin reqs => exact absurd rfl hadm.2
                | _ => rfl
            | _ => rfl
          · exact (hlive.resolve_right fun hx => ho hx.1).trans h.live
      · refine ⟨lo, _, hnext x s', ?_, h.first, ?_, hfaults⟩
        · exact (Function.update_of_ne (Ne.symm hv) _ _).trans h.span
        · refine (hlive.resolve_right fun hx => ?_).trans h.live
          obtain ⟨⟨tag, m, rfl⟩, -⟩ := hx
          exact hv hadm.2.1

/-- A request that has just begun has drawn nothing. -/
theorem Daemon.Begins.drawn {S T : Daemon cfg} (h : Daemon.Reachable cfg .kept S)
    (hk : cfg.codec.kind = .none) (hb : S.Begins T w r) :
    ∃ g, Drawn T w r (Alloc.liveSet cfg.heap S.st.alloc).card (r.span cfg).1 g := by
  obtain ⟨k, c, s', hw, he, rfl⟩ := hb
  obtain ⟨-, g, hg⟩ := h.uniform rfl hk
  obtain ⟨-, hnext⟩ := hg.act (fun _ ph g _ => next_keeps ph g) hw
  have hnil : (s'.priv w).faults = [] := by
    cases he
    show (Function.update S.st.priv w _ w).faults = []
    rw [Function.update_self]
  have halloc : s'.alloc = S.st.alloc := by
    cases he
    rfl
  refine ⟨_, hnext () s', ?_, le_rfl, ?_, ?_⟩
  · exact Function.update_self ..
  · show (Alloc.liveSet cfg.heap s'.alloc).card ≤ _
    rw [halloc]
    exact Nat.le_add_right _ _
  · show ∀ f ∈ (s'.priv w).faults, f.eio = true
    rw [hnil]
    intro f hf
    cases hf

/-- **Full capacity without a codec.** Take any daemon that `main` starts without a codec, for any
build, any environment and any answers of the driver, and any history of it, with any requests of
any number of clients, in which no copy of `do_blocks` to the device is rejected. When all other
workers are between requests and worker `w` begins a WRITE all of whose blocks are unwritten, then,
as long as it is executed by itself, each of its calls of `slot_alloc` succeeds and it is not
answered `ENOSPC`. -/
theorem full_capacity {b : Build} {e : Environment} (hmain : main b e = .ok cfg)
    (hk : cfg.codec.kind = .none) {S T S' : Daemon cfg} (h : Daemon.Reachable cfg .kept S)
    (hothers : ∀ v, v ≠ w → Quiet .kept v S.st) (hr : r.cmd = .write)
    (hfree : ∀ b, r.Touches b → entClen (S.st.index b) = 0) (hb : S.Begins T w r)
    (hrun : Daemon.SoleRun cfg w T S') :
    (∀ tag n, S'.Next w (.slotAlloc tag n) →
      (Alloc.slotAlloc cfg.heap S'.st.alloc n).1.1 ≠ slotNone) ∧
    ∀ i r' err, S'.Next w (.event (.reply i r' err)) → err ≠ .enospc := by
  have hi := h.inv rfl
  have hquiet : ∀ v, Quiet .kept v S.st := by
    intro v
    by_cases hv : v = w
    · subst hv
      obtain ⟨k, c, s', hw, -⟩ := hb
      exact h.pre rfl hw
    · exact hothers v hv
  -- what is out, and what the request may draw, fits the heap
  have hroom : (Alloc.liveSet cfg.heap S.st.alloc).card + ((r.span cfg).2 - (r.span cfg).1) ≤
      Alloc.capacity cfg.heap 63 := by
    have h1 := (State.Tight.of_quiet hi hquiet).card_le hi (h.written_lt rfl)
    have h2 : (S.st.written cfg).card + ((r.span cfg).2 - (r.span cfg).1) ≤ cfg.nblocks :=
      written_room hr hfree
    have h3 := (main_started hmain).nblocks_le hk
    omega
  have hT := hb.reachable h
  have hdrawn : ∃ lo g, Drawn S' w r (Alloc.liveSet cfg.heap S.st.alloc).card lo g := by
    induction hrun with
    | refl =>
        obtain ⟨g, hg⟩ := hb.drawn h hk
        exact ⟨_, g, hg⟩
    | tail hrun hstep ih =>
        obtain ⟨lo, g, hg⟩ := ih
        obtain ⟨S₀, h0, hr₀⟩ := hT
        exact hg.step ⟨S₀, h0, hr₀.trans (Daemon.SoleRun.run hrun)⟩ hk hroom hstep
  have hreach : Daemon.Reachable cfg .kept S' := by
    obtain ⟨S₀, h0, hr₀⟩ := hT
    exact ⟨S₀, h0, hr₀.trans hrun.run⟩
  obtain ⟨lo, g, hg⟩ := hdrawn
  refine ⟨fun tag n hn => (hg.alloc hreach hk hroom hn).1, fun i r' err hn herr => ?_⟩
  obtain ⟨-, hreply⟩ := hreach.next_pre rfl hn
  have hverdict := hreply.verdict
  rw [herr] at hverdict
  split at hverdict
  · cases hverdict
  · -- a verdict of `ENOSPC` needs a failure that is not an I/O error
    unfold verdict at hverdict
    split at hverdict
    · cases hverdict
    · rename_i hno
      split at hverdict
      · cases hverdict
      · rename_i hne
        obtain ⟨f, hf⟩ := List.exists_mem_of_ne_nil _ hne
        exact hno ⟨f, hf, hg.faults f (List.mem_filter.mp hf).1⟩

/-- The action does not start a request. -/
def Op.goesOn : Op → Bool
  | .event (.begin _) => false
  | _ => true

/-- Whether a driven worker begins no request. -/
def Daemon.driveWithin (w : ℕ) : List Choice → Daemon cfg → Bool
  | [], _ => true
  | c :: cs, S =>
    match unfold (next cfg) (S.prog w) with
    | .ret _ => true
    | .act o k =>
      o.goesOn && match exec cfg w o c S.st with
      | none => true
      | some x => Daemon.driveWithin w cs ⟨x.2, Function.update S.prog w (k x.1)⟩

theorem Mode.kept_adm {o : Op} {c : Choice} (hc : c.fail = false) : Mode.kept.Adm cfg w o c s := by
  cases o with
  | htod _ _ _ _ => exact ⟨fun _ => hc, fun _ _ => hc⟩
  | sync | dtoh _ _ _ _ => exact fun _ => hc
  | slotAlloc _ _ => exact fun hno => absurd hno (by decide)
  | idxStore _ _ _ => exact fun _ hv => by cases hv
  | idxLoad why b =>
      cases why with
      | recheck i => exact ⟨fun _ hv => (by cases hv), fun hno => absurd hno (by decide)⟩
      | _ => trivial
  | event e =>
      cases e with
      | begin _ => exact fun hno => absurd hno (by decide)
      | _ => trivial
  | _ => trivial

/-- A worker that is driven without failures executes its request by itself. -/
theorem Daemon.drive_sole (cs : List Choice) (hcs : ∀ c ∈ cs, c.fail = false) (S : Daemon cfg)
    (hd : Daemon.driveWithin w cs S = true) : Daemon.SoleRun cfg w S (Daemon.drive w cs S) := by
  induction cs generalizing S with
  | nil => exact .refl
  | cons c cs ih =>
      rw [Daemon.driveWithin] at hd
      rw [Daemon.drive]
      split
      · exact .refl
      · rename_i o k hk
        simp only [hk, Bool.and_eq_true] at hd
        obtain ⟨hwithin, hrest⟩ := hd
        split
        · exact .refl
        · rename_i x he
          have hc := hcs c List.mem_cons_self
          have hsole : Sole cfg w w o c S.st := by
            refine ⟨Mode.kept_adm hc, ?_⟩
            cases o with
            | slotAlloc _ _ => exact ⟨rfl, hc⟩
            | slotFree _ | idxStore _ _ _ => exact rfl
            | event e =>
                cases e with
                | begin _ => cases hwithin
                | _ => trivial
            | _ => trivial
          simp only [he] at hrest
          exact .head (.act hk hsole he) (ih (fun c' hc' => hcs c' (List.mem_cons_of_mem _ hc')) _ hrest)

/-- A worker about to begin the WRITE of one byte on a fresh device of 1 GiB without a codec. -/
def Daemon.filling : Daemon fillConfig :=
  Daemon.drive 0 (.client byteWrite :: List.replicate 2 .plain) (Daemon.booted fillConfig)

/-- It has begun. -/
def Daemon.begun : Daemon fillConfig := Daemon.drive 0 [.plain] Daemon.filling

/-- It is about to answer. -/
def Daemon.filled : Daemon fillConfig := Daemon.drive 0 (List.replicate 22 .plain) Daemon.begun

set_option maxRecDepth 100000 in
theorem full_capacity_fill : ∃ i r err, Daemon.filled.Next 0 (.event (.reply i r err)) ∧
    err ≠ .enospc := by
  have hreach : Daemon.Reachable fillConfig .kept Daemon.filling :=
    ⟨_, ⟨State.boot_initial fillConfig, fun _ => .inr ⟨.blank, rfl⟩⟩,
      Daemon.drive_plain rfl rfl rfl _ (by decide) _ (by decide)⟩
  have hothers : ∀ v, v ≠ 0 → Quiet .kept v Daemon.filling.st := by
    intro v hv
    have hrest : ∃ ph, Daemon.filling.prog v = .ret ph :=
      ⟨_, (Daemon.drive_rest hv _ _).trans rfl⟩
    obtain ⟨ph, hp⟩ := hrest
    exact (hreach.quiet rfl hp).1
  have hbegins : ∃ r, r.cmd = .write ∧ Daemon.filling.Begins Daemon.begun 0 r :=
    ⟨_, rfl, _, .plain, _, rfl, rfl, rfl⟩
  obtain ⟨r, hr, hb⟩ := hbegins
  have hrun : Daemon.SoleRun fillConfig 0 Daemon.begun Daemon.filled :=
    Daemon.drive_sole _ (by decide) _ rfl
  have hreply : ∃ i r err, Daemon.filled.Next 0 (.event (.reply i r err)) := ⟨0, _, .ok, _, rfl⟩
  obtain ⟨i, r', err, hn⟩ := hreply
  have hfree : ∀ b, r.Touches b → entClen (Daemon.filling.st.index b) = 0 := by
    intro b _
    have hidx : Daemon.filling.st.index = fun _ => 0 := rfl
    rw [hidx]
    exact (by decide : entClen 0 = 0)
  exact ⟨i, r', err, hn, (full_capacity main_fill rfl hreach hothers hr hfree hb hrun).2 i r' err hn⟩

/-! ## What one request draws, in any company -/

/-- The block and the length for which the action asks for a slot. -/
def Op.draw : Op → List (Tag × ℕ)
  | .slotAlloc tag n => [(tag, n)]
  | _ => []

/-- A run in which worker `w` starts no request, and the slots that `w` asks for on the way. -/
inductive Daemon.Draws (cfg : Config) (md : Mode) (w : ℕ) :
    Daemon cfg → List (Tag × ℕ) → Daemon cfg → Prop
  | refl {S : Daemon cfg} : Daemon.Draws cfg md w S [] S
  | tau {S S' : Daemon cfg} {s' : State} {ds : List (Tag × ℕ)} : Tau S.st s' →
      Daemon.Draws cfg md w ⟨s', S.prog⟩ ds S' → Daemon.Draws cfg md w S ds S'
  | self {S S' : Daemon cfg} {o : Op} {k : o.Res → Prog sig Phase} {c : Choice} {x : o.Res}
      {s' : State} {ds : List (Tag × ℕ)} : unfold (next cfg) (S.prog w) = .act (σ := sig) o k →
      o.goesOn = true → md.Adm cfg w o c S.st → exec cfg w o c S.st = some (x, s') →
      Daemon.Draws cfg md w ⟨s', Function.update S.prog w (k x)⟩ ds S' →
      Daemon.Draws cfg md w S (o.draw ++ ds) S'
  | other {S S' : Daemon cfg} {v : ℕ} {o : Op} {k : o.Res → Prog sig Phase} {c : Choice} {x : o.Res}
      {s' : State} {ds : List (Tag × ℕ)} : v ≠ w →
      unfold (next cfg) (S.prog v) = .act (σ := sig) o k → md.Adm cfg v o c S.st →
      exec cfg v o c S.st = some (x, s') →
      Daemon.Draws cfg md w ⟨s', Function.update S.prog v (k x)⟩ ds S' →
      Daemon.Draws cfg md w S ds S'

/-- Every reachable daemon keeps the drawing discipline. -/
theorem Daemon.Reachable.obeys {md : Mode} {S : Daemon cfg} (h : Daemon.Reachable cfg md S) :
    ∃ g, S.Obeys (drawing cfg) (fun _ _ => True) g := by
  obtain ⟨S₀, ⟨-, hinit⟩, hrun⟩ := h
  have hstart : S₀.Obeys (drawing cfg) (fun _ _ => True) fun _ => none := by
    intro v
    rcases hinit v with hp | ⟨m, hp⟩ <;> rw [hp] <;> exact trivial
  exact hstart.run (fun _ ph g _ => next_keeps ph g) hrun

/-- What a worker may still draw for, while it starts no request. -/
theorem Daemon.Draws.ascending {md : Mode} {S S' : Daemon cfg} {ds : List (Tag × ℕ)}
    (h : Daemon.Draws cfg md w S ds S') {g : ℕ → Option (ℕ × ℕ)} {lo hi : ℕ}
    (hg : S.Obeys (drawing cfg) (fun _ _ => True) g) (hw : g w = some (lo, hi)) :
    ds.Pairwise (fun d d' => d.1.blk < d'.1.blk) ∧
    ∀ d ∈ ds, lo ≤ d.1.blk ∧ d.1.blk < hi ∧ ∃ p, d.2 = (cfg.codec.compBlock p).length := by
  induction h generalizing g lo with
  | refl => exact ⟨.nil, fun d hd => by cases hd⟩
  | tau _ _ ih => exact ih hg hw
  | @other S S' v o k c x s' ds hv hact _ _ _ ih =>
      obtain ⟨-, hnext⟩ := hg.act (fun _ ph g _ => next_keeps ph g) hact
      exact ih (hnext x s') ((Function.update_of_ne (Ne.symm hv) _ _).trans hw)
  | @self S S' o k c x s' ds hact hgo _ _ _ ih =>
      obtain ⟨hok, hnext⟩ := hg.act (fun _ ph g _ => next_keeps ph g) hact
      by_cases hdraw : ∃ tag n, o = .slotAlloc tag n
      · -- the blocks up to this one are behind
        obtain ⟨tag, n, rfl⟩ := hdraw
        obtain ⟨hcomp, hin⟩ := hok
        obtain ⟨hlo, hhi⟩ := hin _ hw
        have hstep : Function.update g w ((drawing cfg).next (g w) (.slotAlloc tag n) x) w =
            some (tag.blk + 1, hi) := by
          refine (Function.update_self ..).trans ?_
          show (g w).map _ = _
          rw [hw]
          rfl
        obtain ⟨hpair, hall⟩ := ih (hnext x s') hstep
        refine ⟨List.pairwise_cons.mpr ⟨fun d hd => (hall d hd).1, hpair⟩, fun d hd => ?_⟩
        rcases List.mem_cons.mp hd with rfl | hd
        · exact ⟨hlo, hhi, hcomp⟩
        · obtain ⟨h1, h2, h3⟩ := hall d hd
          exact ⟨hlo.trans (Nat.le_of_succ_le h1), h2, h3⟩
      · have hnone : o.draw = [] := by
          cases o with
          | slotAlloc tag n => exact absurd ⟨tag, n, rfl⟩ hdraw
          | _ => rfl
        have hstep : Function.update g w ((drawing cfg).next (g w) o x) w = some (lo, hi) := by
          refine (Function.update_self ..).trans (Eq.trans ?_ hw)
          cases o with
          | slotAlloc tag n => exact absurd ⟨tag, n, rfl⟩ hdraw
          | event e =>
              cases e with
              | begin reqs => cases hgo
              | _ => rfl
          | _ => rfl
        rw [hnone]
        exact ih (hnext x s') hstep

/-- **One slot for each block at most, in order.** In every run of the daemon, with any number of
workers, any codec and any failures: from the moment a worker begins to execute a request by itself
until it begins another, the blocks for which it asks `slot_alloc` ascend strictly and lie in the
range of the request, so that there are no more of them than it has blocks, and none at all if the
range is empty or beyond the device; and it always asks for the length `comp_block` gave. -/
theorem draws_ascending {md : Mode} {S T S' : Daemon cfg} {ds : List (Tag × ℕ)}
    (h : Daemon.Reachable cfg md S) (hb : S.Begins T w r) (hd : Daemon.Draws cfg md w T ds S') :
    ds.Pairwise (fun d d' => d.1.blk < d'.1.blk) ∧
    (∀ d ∈ ds, (r.span cfg).1 ≤ d.1.blk ∧ d.1.blk < (r.span cfg).2 ∧
      ∃ p, d.2 = (cfg.codec.compBlock p).length) ∧
    ds.length ≤ (r.span cfg).2 - (r.span cfg).1 := by
  obtain ⟨k, c, s', hw, he, rfl⟩ := hb
  obtain ⟨g, hg⟩ := h.obeys
  obtain ⟨-, hnext⟩ := hg.act (fun _ ph g _ => next_keeps ph g) hw
  obtain ⟨hpair, hall⟩ := hd.ascending (hnext () s') (Function.update_self ..)
  refine ⟨hpair, hall, ?_⟩
  have hnodup : (ds.map fun d => d.1.blk).Nodup :=
    List.pairwise_map.mpr (hpair.imp fun hlt => Nat.ne_of_lt hlt)
  have hsub : (ds.map fun d => d.1.blk).toFinset ⊆ Finset.Ico (r.span cfg).1 (r.span cfg).2 := by
    intro b hb
    obtain ⟨d, hd, rfl⟩ := List.mem_map.mp (List.mem_toFinset.mp hb)
    exact Finset.mem_Ico.mpr ⟨(hall d hd).1, (hall d hd).2.1⟩
  have hcard := Finset.card_le_card hsub
  rwa [List.toFinset_card_of_nodup hnodup, List.length_map, Nat.card_Ico] at hcard

/-- What worker `w` draws while it is driven. -/
def Daemon.drawn (w : ℕ) : List Choice → Daemon cfg → List (Tag × ℕ)
  | [], _ => []
  | c :: cs, S =>
    match unfold (next cfg) (S.prog w) with
    | .ret _ => []
    | .act o k =>
      match exec cfg w o c S.st with
      | none => []
      | some x => o.draw ++ Daemon.drawn w cs ⟨x.2, Function.update S.prog w (k x.1)⟩

theorem Daemon.drive_draws (cs : List Choice) (hcs : ∀ c ∈ cs, c.fail = false) (S : Daemon cfg)
    (hd : Daemon.driveWithin w cs S = true) :
    Daemon.Draws cfg .kept w S (Daemon.drawn w cs S) (Daemon.drive w cs S) := by
  induction cs generalizing S with
  | nil => exact .refl
  | cons c cs ih =>
      rw [Daemon.driveWithin] at hd
      rw [Daemon.drive, Daemon.drawn]
      cases hk : unfold (next cfg) (S.prog w) with
      | ret ph => exact .refl
      | act o k =>
          simp only [hk, Bool.and_eq_true] at hd
          obtain ⟨hgo, hrest⟩ := hd
          dsimp only
          cases he : exec cfg w o c S.st with
          | none => exact .refl
          | some x =>
              simp only [he] at hrest
              exact .self hk hgo (Mode.kept_adm (hcs c List.mem_cons_self)) he
                (ih (fun c' hc' => hcs c' (List.mem_cons_of_mem _ hc')) _ hrest)

set_option maxRecDepth 100000 in
/-- The WRITE of one byte draws one slot, for the first block. -/
theorem draws_ascending_begun : ∃ r : Req, r.cmd = .write ∧
    (Daemon.drawn 0 (List.replicate 22 .plain) Daemon.begun).length = 1 ∧
    ∀ d ∈ Daemon.drawn 0 (List.replicate 22 .plain) Daemon.begun,
      (r.span fillConfig).1 ≤ d.1.blk ∧ d.1.blk < (r.span fillConfig).2 := by
  have hreach : Daemon.Reachable fillConfig .kept Daemon.filling :=
    ⟨_, ⟨State.boot_initial fillConfig, fun _ => .inr ⟨.blank, rfl⟩⟩,
      Daemon.drive_plain rfl rfl rfl _ (by decide) _ (by decide)⟩
  have hbegins : ∃ r, r.cmd = .write ∧ Daemon.filling.Begins Daemon.begun 0 r :=
    ⟨_, rfl, _, .plain, _, rfl, rfl, rfl⟩
  obtain ⟨r, hr, hb⟩ := hbegins
  have hdraws := draws_ascending hreach hb (Daemon.drive_draws (List.replicate 22 .plain) (by decide) _ rfl)
  exact ⟨r, hr, rfl, fun d hd => ⟨(hdraws.2.1 d hd).1, (hdraws.2.1 d hd).2.1⟩⟩

end NbdVram
