import NbdVram.Alone

/-!
# A batch on a full heap

When `slot_alloc` refuses a slot to one block of a WRITE, `flush_batch` gives back
what the other blocks of that request have reserved and publishes none of them; the
other requests of the batch are not concerned.
-/

namespace NbdVram

open Interleave Span MutationLog Relation

variable {cfg : Config} {md : Mode} {w i j : ℕ} {x x₀ : Local} {m : Mem} {P : Plan} {b : Batch}
  {r : Req} {rs : List Req}

namespace Ran

/-- Where no copy is rejected, only refused allocations fail an op. -/
theorem op_err (hR : Ran cfg md w b P x₀ x m) (hm : md.Reads cfg) (hl : md.launch = true)
    (hj : j < b.nops) : (m.ops j).err = .ok ∨
      (m.ops j).cmd = .write ∧ (m.ops j).err = .enospc ∧ P.spare j := by
  rcases hR.ops.cmd _ hj with hc | hc
  · rcases hR.read _ hj hc with h | ⟨-, h⟩
    · exact .inl h
    · rw [h hm] at hl
      cases hl
  · rcases hR.write _ hj hc with h | h
    · exact .inl h.1.2.1
    · cases h with
      | refused he _ hlost => exact .inr ⟨hc, he, hR.lost j hj hlost⟩
      | rejected _ h _ =>
          rw [h] at hl
          cases hl
      | given he _ _ _ => exact .inl he

/-- Then all faults of a request are refused allocations, and a request that has one publishes
nothing. -/
theorem faults_refused (hR : Ran cfg md w b P x₀ x m) (hb : Holds cfg b rs) (h0 : x₀.priv.faults = [])
    (hr : rs[i]? = some r) (hm : md.Reads cfg) (hl : md.launch = true) {f : Fault}
    (hf : f ∈ x.priv.faultsOf i) :
    f.eio = false ∧ r.cmd = .write ∧ pubPieces m P (opStart cfg rs i) (r.nops cfg) = [] := by
  obtain ⟨hmem, htag⟩ := List.mem_filter.mp hf
  obtain ⟨k, hk, ht⟩ := (hR.blamed h0).1.tags f hmem
  have hreq : (m.ops k).req = i := by
    rw [← of_decide_eq_true htag, ht]
    rfl
  have hbad := (hR.blamed h0).1.err_ne_ok hmem hk ht
  rcases hR.op_err hm hl hk with h | ⟨hc, he, hsp⟩
  · exact absurd h hbad
  obtain ⟨h1, h2⟩ := hR.op_mem hb hr hk hreq
  obtain ⟨j, rfl⟩ := Nat.exists_eq_add_of_le h1
  have hj : j < r.nops cfg := by omega
  refine ⟨?_, (hR.op hb hr hj).1.symm.trans hc, ?_⟩
  · by_contra heio
    have heq : (m.ops (opStart cfg rs i + j)).err = .eio := by
      rw [(hR.blamed h0).1.err _ hk, verdict_eio]
      exact ⟨f, List.mem_filter.mpr ⟨hmem, decide_eq_true ht⟩, by simpa using heio⟩
    rw [he] at heq
    cases heq
  · -- the mark of the failed op spares all its siblings
    have hnil : (List.range (r.nops cfg)).filter
        (fun j => decide (m.ops (opStart cfg rs i + j)).Pub) = [] := by
      rw [List.filter_eq_nil_iff]
      intro j' hj' hpub
      have hlt : j' < r.nops cfg := List.mem_range.mp hj'
      have hle := op_lt hb hr
      have hj'' : opStart cfg rs i + j' < b.nops := by omega
      have hsp' := hR.spares _ hk _ hj'' (by rw [hreq, (hR.op hb hr hlt).2.1]) hsp
      have hpub := of_decide_eq_true hpub
      rcases hR.write _ hj'' hpub.1 with h | h
      · exact h.2 hsp'
      · cases h with
        | refused h _ _ =>
            rw [hpub.2.1] at h
            cases h
        | rejected h _ _ =>
            rw [hpub.2.1] at h
            cases h
        | given _ h _ _ => exact hpub.2.2 h
    rw [pubPieces, hnil, List.map_nil]

end Ran

/-- What a request of a batch publishes when no copy is rejected: all or nothing. -/
def Done.puts (cfg : Config) (md : Mode) (i : ℕ) (d : Done) : List (Item Disk Mut) :=
  if d.req.cmd = .write ∧ d.err = .ok then (chop d.req.off d.req.data).map (Piece.wrote cfg md i)
  else []

/-- What it leaves of the array. -/
def Done.leaves (d : Done) (D : Disk) : Disk :=
  if d.req.cmd = .write ∧ d.err = .ok then splice D d.req.off d.req.data else D

theorem Done.seq_puts {D D' : Disk} {d : Done} (hm : md.Stores cfg)
    (h : Seq Mut.who Mut.app w D (d.puts cfg md i) D') : D' = d.leaves D := by
  unfold Done.puts at h
  unfold Done.leaves
  split at h
  · rename_i hc
    rw [if_pos hc, seq_pieces hm h, overlay_chop]
  · rename_i hc
    rw [if_neg hc]
    exact h

theorem Ran.effAt_puts (hR : Ran cfg md w b P x₀ x m) (hb : Holds cfg b rs)
    (h0 : x₀.priv.faults = []) (hr : rs[i]? = some r) (hm : md.Reads cfg) (hl : md.launch = true) :
    effAt cfg md rs m P i = (m.doneAt i).puts cfg md i := by
  have hv := hR.verdict hb h0 hr
  rw [effAt_eq hr, hR.doneAt hb hr, Done.puts]
  dsimp only
  by_cases ho : r.Oob cfg
  · rw [Req.nops_oob ho, hv, if_pos ho, if_neg (by simp)]
    rfl
  rw [if_neg ho] at hv
  by_cases hc : r.cmd = .write
  · by_cases hf : x.priv.faultsOf i = []
    · rw [hf, verdict_ok.mpr rfl] at hv
      have hst := (hR.storedAs hb h0 hr hc ho).all (verdict_ok.mpr hf)
      rw [if_pos ⟨hc, hv⟩, hst]
    · obtain ⟨f, hmem⟩ := List.exists_mem_of_ne_nil _ hf
      rw [(hR.faults_refused hb h0 hr hm hl hmem).2.2, if_neg fun h => hf (verdict_ok.mp (hv ▸ h.2))]
      rfl
  · rw [hR.pubPieces_read hb hr hc, if_neg fun h => hc h.1]
    rfl

/-! ## The claim -/

/-- No synchronize has failed. -/
def Mode.synced : Mode := { Mode.any with sync := true }

/-- No CUDA call fails. -/
def Mode.cuda : Mode := { Mode.any with sync := true, launch := true, batch := true }

/-- Where the mutations of a script come from. -/
theorem Script.own_put {log log' : List Mut} {is : List (Item Disk Mut)} (h : Script w log is log')
    {mu : Mut} (hmu : mu ∈ log'.drop log.length) (hw : mu.who = w) : ∃ c D, .put c ∈ is ∧ c mu D := by
  obtain ⟨new, rfl, hlin⟩ := h
  rw [List.drop_left] at hmu
  obtain ⟨pre, post, rfl⟩ := List.append_of_mem hmu
  obtain ⟨c, hc, hcm⟩ := hlin.put_of_split hw
  exact ⟨c, _, hc, hcm⟩

theorem Script.put_own {log log' : List Mut} {is : List (Item Disk Mut)} (h : Script w log is log')
    {c : Mut → Disk → Prop} (hc : .put c ∈ is) : ∃ mu ∈ log'.drop log.length, ∃ D, c mu D := by
  obtain ⟨new, rfl, hlin⟩ := h
  obtain ⟨pre, mu, post, rfl, -, hcm⟩ := hlin.mem_put hc
  exact ⟨mu, by simp, _, hcm⟩

/-- The blocks of a WRITE are those of its pieces. -/
theorem Req.touches_iff (hlen : r.data.length = r.len) {blk : ℕ} :
    r.Touches blk ↔ ∃ p ∈ chop r.off r.data, Piece.blk p = blk := by
  constructor
  · rintro ⟨hpos, hlo, hhi⟩
    obtain ⟨k, hk, hblk⟩ : ∃ k < r.data.length, (r.off + k) / 4096 = blk := by
      by_cases hle : r.off ≤ blk * 4096
      · exact ⟨blk * 4096 - r.off, by omega, by omega⟩
      · exact ⟨0, by omega, by omega⟩
    obtain ⟨p, hp, h1, h2⟩ := @exists_mem_chop r.off _ _ hk
    have hin := (mem_chop hp).2.1
    refine ⟨p, hp, ?_⟩
    rw [Piece.blk]
    omega
  · rintro ⟨p, hp, rfl⟩
    have := blk_of_mem_chop hp
    rw [hlen] at this
    exact this

/-- What became of request `i` of a batch while the state went from `s` to `s'`. -/
structure Outcome (cfg : Config) (w : ℕ) (s s' : State) (i : ℕ) (d : Done) : Prop where
  oob : d.req.Oob cfg → d.err = .einval
  enospc : d.err = .enospc ↔ d.req.cmd = .write ∧
    ∃ f ∈ (s'.priv w).faultsOf i, f.eio = false ∧ d.req.Touches f.tag.blk
  ok : ¬ d.req.Oob cfg → d.err ≠ .enospc → d.err = .ok
  published : ∀ blk, (∃ mu ∈ s'.log.drop s.log.length, mu.req = i ∧ mu.blk = blk) ↔
    d.req.cmd = .write ∧ d.err = .ok ∧ d.req.Touches blk
  out : d.out = if d.req.cmd = .read ∧ d.err = .ok then slice (s.bytes cfg) d.req.off d.req.len else []

section Batch

variable {s s' : State}

/-- The blocks that request `i` has published. -/
theorem Ran.published_iff (hR : Ran cfg md w b P x₀ x m) (hb : Holds cfg b rs)
    (h0 : x₀.priv.faults = []) (hm : md.Reads cfg) (hl : md.launch = true)
    (hown : ∀ mu ∈ x.log.drop x₀.log.length, mu.who = w) (hr : rs[i]? = some r) {blk : ℕ} :
    (∃ mu ∈ x.log.drop x₀.log.length, mu.req = i ∧ mu.blk = blk) ↔
      r.cmd = .write ∧ (m.reqs i).error = .ok ∧ r.Touches blk := by
  have hsc := hR.did hb h0
  have hdone := hR.doneAt hb hr
  constructor
  · rintro ⟨mu, hmu, hreq, rfl⟩
    obtain ⟨c, D, hc, hcm⟩ := hsc.own_put hmu (hown mu hmu)
    rcases List.mem_cons.mp hc with hc | hc
    · cases hc
    obtain ⟨l, hl', hc⟩ := List.mem_flatten.mp hc
    obtain ⟨k, hk, rfl⟩ := List.mem_map.mp hl'
    rw [List.mem_range, hb.nreq] at hk
    rw [hR.effAt_puts hb h0 (List.getElem?_eq_getElem hk) hm hl, Done.puts] at hc
    split at hc
    · rename_i hw
      obtain ⟨p, hp, heq⟩ := List.mem_map.mp hc
      cases heq
      obtain rfl : k = i := hcm.1.symm.trans hreq
      rw [hdone] at hw hp
      refine ⟨hw.1, hw.2, (Req.touches_iff ?_).mpr ⟨p, hp, hcm.2.1.symm⟩⟩
      rw [(hb.fits r (List.mem_of_getElem? hr)).data, if_pos hw.1]
    · cases hc
  · rintro ⟨hc, he, ht⟩
    have hlen : r.data.length = r.len := by
      rw [(hb.fits r (List.mem_of_getElem? hr)).data, if_pos hc]
    obtain ⟨p, hp, rfl⟩ := (Req.touches_iff hlen).mp ht
    have hput : Piece.wrote cfg md i p ∈ effAt cfg md rs m P i := by
      rw [hR.effAt_puts hb h0 hr hm hl, hdone, Done.puts, if_pos ⟨hc, he⟩]
      exact List.mem_map_of_mem hp
    have hlt : i < b.nreq := by
      rw [hb.nreq]
      exact (List.getElem?_eq_some_iff.mp hr).1
    obtain ⟨mu, hmu, D, h1, h2, -⟩ := hsc.put_own (List.mem_cons_of_mem _
      (List.mem_flatten.mpr ⟨_, List.mem_map_of_mem (List.mem_range.mpr hlt), hput⟩))
    exact ⟨mu, hmu, h1, h2⟩

/-- A READ returns what was there before the batch. -/
theorem Ran.out_eq (hR : Ran cfg md w b P x₀ x m) (hb : Holds cfg b rs) (h0 : x₀.priv.faults = [])
    (hm : md.Reads cfg) (hown : ∀ mu ∈ x.log.drop x₀.log.length, mu.who = w)
    (hr : rs[i]? = some r) : (m.doneAt i).out = if r.cmd = .read ∧ (m.reqs i).error = .ok then
      slice (disk x₀.log) r.off r.len else [] := by
  have hdone := hR.doneAt hb hr
  have hlen := (hR.ok hb h0 hr).out
  have hlt : i < b.nreq := by
    rw [hb.nreq]
    exact (List.getElem?_eq_some_iff.mp hr).1
  have hreq : (m.doneAt i).req = r := by rw [hdone]
  have herr : (m.doneAt i).err = (m.reqs i).error := by rw [hdone]
  rw [hreq, herr] at hlen
  split
  · rename_i hc
    rw [if_pos hc] at hlen
    obtain ⟨hsaw, -⟩ := (hR.did hb h0).seq hown
    have hout := @Done.out_eq cfg md (disk x₀.log) (m.doneAt i) hm (fun Q hQ => hsaw Q
      (List.mem_flatMap.mpr ⟨_, List.mem_map_of_mem (List.mem_range.mpr hlt), hQ⟩))
      (by rw [hreq]; exact hc.1)
    rw [hlen, hreq] at hout
    exact hout.symm
  · rename_i hc
    rw [if_neg hc] at hlen
    exact List.length_eq_zero_iff.mp hlen

/-- The answer to one request. -/
theorem Ran.outcome (hR : Ran cfg md w b P x₀ x m) (hb : Holds cfg b rs) (h0 : x₀.priv.faults = [])
    (hm : md.Reads cfg) (hl : md.launch = true) (hi : Inv cfg md s) (hlog : x₀.log = s.log)
    (hlog' : x.log = s'.log) (hown : ∀ mu ∈ s'.log.drop s.log.length, mu.who = w)
    (hfaults : (s'.priv w).faults = x.priv.faults) (hr : rs[i]? = some r) :
    Outcome cfg w s s' i (m.doneAt i) := by
  have hv := hR.verdict hb h0 hr
  have hfs : (s'.priv w).faultsOf i = x.priv.faultsOf i := by rw [Priv.faultsOf, hfaults, Priv.faultsOf]
  have hnone : ∀ f ∈ x.priv.faultsOf i, f.eio = false := fun f hf =>
    (hR.faults_refused hb h0 hr hm hl hf).1
  rw [← hlog, ← hlog'] at hown
  have hout := hR.out_eq hb h0 hm hown hr
  rw [hlog, ← hi.bytes] at hout
  have hpub := fun blk => @Ran.published_iff _ _ _ i _ _ _ _ _ _ _ hR hb h0 hm hl hown hr blk
  rw [hlog, hlog'] at hpub
  have hdone := hR.doneAt hb hr
  have hreq : (m.doneAt i).req = r := by rw [hdone]
  have herr : (m.doneAt i).err = (m.reqs i).error := by rw [hdone]
  refine ⟨fun ho => ?_, ⟨fun he => ?_, fun h => ?_⟩, fun ho hne => ?_, by rwa [hreq, herr],
    by rwa [hreq, herr]⟩
  · rw [hreq] at ho
    rw [herr, hv, if_pos ho]
  · rw [herr, hv] at he
    rw [hreq, hfs]
    split at he
    · cases he
    · obtain ⟨f, hf⟩ := List.exists_mem_of_ne_nil _ (verdict_enospc.mp he).1
      exact ⟨(hR.faults_refused hb h0 hr hm hl hf).2.1, f, hf, hnone f hf,
        (hR.fault_touches hb h0 hr hf).2⟩
  · obtain ⟨-, f, hf, -⟩ := h
    rw [hfs] at hf
    rw [herr, hv, if_neg (hR.fault_touches hb h0 hr hf).1, verdict_enospc]
    exact ⟨List.ne_nil_of_mem hf, hnone⟩
  · rw [hreq] at ho
    rw [herr, hv, if_neg ho] at hne
    rw [herr, hv, if_neg ho, verdict_ok]
    by_contra hnil
    exact hne (verdict_enospc.mpr ⟨hnil, hnone⟩)

/-- What the batch leaves of the device. -/
theorem Ran.leaves (hR : Ran cfg md w b P x₀ x m) (hb : Holds cfg b rs) (h0 : x₀.priv.faults = [])
    (hm : md.Reads cfg) (hl : md.launch = true) (hown : ∀ mu ∈ x.log.drop x₀.log.length, mu.who = w) :
    disk x.log = ((List.range b.nreq).map m.doneAt).foldl (fun D d => d.leaves D) (disk x₀.log) := by
  obtain ⟨-, hseq⟩ := (hR.did hb h0).seq hown
  refine Seq.flatten ?_ hseq
  rw [List.forall₂_map_left_iff, List.forall₂_map_right_iff, List.forall₂_same]
  intro i hi D D' h
  rw [List.mem_range, hb.nreq] at hi
  rw [hR.effAt_puts hb h0 (List.getElem?_eq_getElem hi) hm hl] at h
  exact Done.seq_puts hm.1 h

end Batch

/-- What is known when a worker has flushed a batch alone: the batch was run from the log of the
first state to that of the last one, and nobody else has mutated the index. -/
structure FlushedAlone (cfg : Config) (md : Mode) (w : ℕ) (b : Batch) (s s' : State) (P : Plan)
    (x₀ x₁ : Local) (m : Mem) : Prop where
  ran : Ran cfg md w b P x₀ x₁ m
  clean : x₀.priv.faults = []
  log : x₀.log = s.log
  log' : x₁.log = s'.log
  own : ∀ mu ∈ s'.log.drop s.log.length, mu.who = w
  faults : (s'.priv w).faults = x₁.priv.faults

theorem Flushed.alone {s s' : State} {z : Bool × Mem} {x' : Local}
    (h : Flushed cfg (md.alone w s) w b rs (s.known cfg w) z x') (hi' : Inv cfg (md.alone w s) s')
    (hx' : Loc cfg w x' s') (hr' : x'.Rest (md.alone w s)) : ∃ x₀ x₁ P gout alive,
      FlushedAlone cfg (md.alone w s) w b s s' P x₀ x₁ z.2 ∧
      (s'.priv w).net.out = (s.priv w).net.out ++ gout ∧
      Sent ((List.range b.nreq).map z.2.doneAt) gout alive ∧
      (alive = false → (s'.priv w).net.down = true) ∧
      z.1 = decide (alive = true ∧ ∀ i < b.nreq, (z.2.reqs i).error ≠ .eio) := by
  obtain ⟨x₀, x₁, P, gout, alive, hR, h0, ⟨new, hnew, hx₀⟩, -, hx'eq, htk, hsent, hdn, hz⟩ := h
  have hnet : (s'.priv w).net = x'.priv.net := by rw [hx'.priv]
  have hown : ∀ mu ∈ s'.log.drop s.log.length, mu.who = w := hi'.solo w rfl
  have hlog' : x₁.log = s'.log := by
    rw [hx'.log_eq hi' rfl hr'.since, hx'eq]
    rfl
  have hlog : x₀.log = s.log := by
    obtain ⟨new', hx₁, -⟩ := hR.script
    have hdrop := hown
    rw [← hlog', hx₁, hx₀, List.append_assoc] at hdrop
    have hnil : new = [] := hnew.nil_of_solo fun mu hmu => hdrop mu (by
      rw [show (s.known cfg w).log = s.log from rfl, List.drop_left]
      exact List.mem_append_left _ hmu)
    rw [hx₀, hnil, List.append_nil]
    rfl
  have hfaults : (s'.priv w).faults = x₁.priv.faults := by
    rw [hx'.priv, hx'eq]
    rfl
  refine ⟨x₀, x₁, P, gout, alive, ⟨hR, h0, hlog, hlog', hown, hfaults⟩, ?_, hsent, ?_, hz⟩
  · rw [hnet, htk.out]
    rfl
  · rwa [hnet]

/-- **ENOSPC is all or nothing.** From any reachable state in which no synchronize has failed, an
idle worker that flushes a batch, while no CUDA call fails and no other worker steps, comes to the
end if no mutex is held. A WRITE is answered `ENOSPC` exactly when `slot_alloc` refused one of its
blocks, and then none of its blocks is published; every other request on the device is answered
0, its WRITEs are published in order, and READs return what was there before. Afterwards all slots
reserved on the way are free or named by an entry, and unless a send fails the connection is kept
and all answers were sent. -/
theorem enospc_all_or_nothing {S : Daemon cfg} (hcodec : cfg.codec.RoundTrip)
    (h : Daemon.Reachable cfg .synced S) (hw : S.st.Idle w) (hb : Holds cfg b rs) :
    ((∀ m, S.st.lock m = none) → ∃ z s', RunsAlone cfg .cuda w (flushBatch cfg b) S.st z s') ∧
    ∀ z s', RunsAlone cfg .cuda w (flushBatch cfg b) S.st z s' → ∃ ds : List Done,
      ds.map Done.req = rs ∧ (∀ i d, ds[i]? = some d → Outcome cfg w S.st s' i d) ∧
      s'.bytes cfg = ds.foldl (fun D d => d.leaves D) (S.st.bytes cfg) ∧
      (∀ g, Alloc.Live cfg.heap s'.alloc g →
        (∃ blk, entClen (s'.index blk) ≠ 0 ∧ entGrain (s'.index blk) = g) ∨
          ∃ v, g ∈ S.st.resv v ∨ g ∈ S.st.disp v) ∧
      ∃ gout, (s'.priv w).net.out = (S.st.priv w).net.out ++ gout ∧ gout <+: ds.flatMap Done.reply ∧
        ((s'.priv w).net.down = false → gout = ds.flatMap Done.reply ∧ z.1 = true) := by
  have hi : Inv cfg (Mode.cuda.alone w S.st) S.st := (h.inv rfl).alone fun hs => ⟨rfl, hs.2⟩
  have hm : (Mode.cuda.alone w S.st).Reads cfg := ⟨⟨rfl, hcodec⟩, .inr (by simp [Mode.alone])⟩
  have hwp := flushBatch_spec hi hw.loc hw.rest hb
  refine ⟨fun hl => ?_, fun z s' hrun => ?_⟩
  · obtain ⟨z, s', hrun⟩ := wp_ends ⟨rfl, rfl, rfl⟩ (fun v hv => Option.some.inj hv) hi
      (fun m v hv => by rw [hl m] at hv; cases hv) hwp
    exact ⟨z, s', hrun.mono fun o c s hadm => hadm.of_alone rfl⟩
  have hrun' : RunsAlone cfg (Mode.cuda.alone w S.st) w (flushBatch cfg b) S.st z s' :=
    hrun.mono fun o c s hadm => hadm.alone
  obtain ⟨hi', ⟨x', hx', hr', hfl⟩, hothers⟩ := wp_loc_alone hi hwp hrun'
  obtain ⟨x₀, x₁, P, gout, alive, ⟨hR, h0, hlog, hlog', hown, hfaults⟩, hsend, ⟨tail, hgout, halive⟩,
    hdn, hz⟩ := hfl.alone hi' hx' hr'
  have hout : ∀ i d, ((List.range b.nreq).map z.2.doneAt)[i]? = some d →
      Outcome cfg w S.st s' i d := by
    intro i d hd
    rw [List.getElem?_map, Option.map_eq_some_iff] at hd
    obtain ⟨k, hk, rfl⟩ := hd
    rw [List.getElem?_eq_some_iff] at hk
    obtain ⟨hlt, rfl⟩ := hk
    rw [List.length_range, hb.nreq] at hlt
    rw [List.getElem_range]
    exact hR.outcome hb h0 hm rfl hi hlog hlog' hown hfaults (List.getElem?_eq_getElem hlt)
  refine ⟨(List.range b.nreq).map z.2.doneAt, hR.map_req hb, hout, ?_, fun g hg => ?_, gout, ?_,
    ⟨tail, hgout.symm⟩, fun hd => ?_⟩
  · rw [hi'.bytes, hi.bytes, ← hlog, ← hlog']
    exact hR.leaves hb h0 hm rfl (by rwa [hlog, hlog'])
  · refine (hx'.live_cases hi' hr' rfl hothers hg).imp_right ?_
    rintro (hg | ⟨v, -, hg⟩)
    · exact ⟨w, .inl hg⟩
    · exact ⟨v, hg⟩
  · exact hsend
  · have htrue : alive = true := by
      cases ha : alive with
      | true => rfl
      | false =>
          rw [hdn ha] at hd
          cases hd
    rw [halive.mp htrue, List.append_nil] at hgout
    refine ⟨hgout.symm, ?_⟩
    rw [hz, decide_eq_true_eq]
    refine ⟨htrue, fun i hi heio => ?_⟩
    have hoc := hout i (z.2.doneAt i) (by rw [List.getElem?_map, List.getElem?_range hi]; rfl)
    have herr : (z.2.doneAt i).err = .eio := heio
    by_cases ho : (z.2.doneAt i).req.Oob cfg
    · rw [hoc.oob ho] at herr
      cases herr
    · rw [hoc.ok ho (by rw [herr]; simp)] at herr
      cases herr

/-- A WRITE of one block, as the only request of a batch. -/
def blockWrite : Req := ⟨.write, [], 0, 4096, List.replicate 4096 7⟩

def writeBatch : Batch where
  nreq := 1
  nops := 1
  mem := ((Mem.blank.setReq 0 ⟨[], 0, 4096, .write, .ok, slotPtr 0, 0, 1⟩).setOps 0 1 0 .write
    (slotPtr 0) 0).write (slotPtr 0) blockWrite.data

theorem writeBatch_holds : Holds smallConfig writeBatch [blockWrite] := by
  have hn : blockWrite.nops smallConfig = 1 := by decide
  have hf : blockWrite.Fits := ⟨.inr rfl, by decide, by decide, by decide, by decide,
    List.length_replicate⟩
  have h0 : Holds smallConfig ⟨0, 0, Mem.blank⟩ [] := Holds.empty _
  have hh := h0.snoc (m := writeBatch.mem) hf (by decide) (by rw [hn]; decide) ?_ ?_
    (fun i hi => absurd hi (Nat.not_lt_zero i)) ?_
  · rwa [hn] at hh
  · rw [hn]
    rfl
  · rw [hn]
    rfl
  · intro _
    have hlen : blockWrite.data.length = blockWrite.len := List.length_replicate
    simp only [writeBatch, Mem.read, Mem.write, Function.update_self]
    exact slice_splice_self hlen

theorem enospc_all_or_nothing_write : ∃ z s', RunsAlone smallConfig .cuda 0
    (flushBatch smallConfig writeBatch) (State.boot smallConfig) z s' ∧
      ∃ d, d.req = blockWrite ∧ Outcome smallConfig 0 (State.boot smallConfig) s' 0 d := by
  have hinit : Daemon.Initial smallConfig (Daemon.booted smallConfig) :=
    ⟨State.boot_initial _, fun _ => .inr ⟨.blank, rfl⟩⟩
  obtain ⟨h1, h2⟩ := enospc_all_or_nothing (fun h => absurd rfl h) ⟨_, hinit, .refl⟩
    (⟨fun _ => by simp [Daemon.booted, State.boot], rfl, rfl, rfl⟩ : State.Idle _ 0) writeBatch_holds
  obtain ⟨z, s', hrun⟩ := h1 fun _ => rfl
  obtain ⟨ds, hreq, hout, -⟩ := h2 z s' hrun
  obtain ⟨d, rfl, hd⟩ := List.map_eq_singleton_iff.mp hreq
  exact ⟨z, s', hrun, d, hd, hout 0 d rfl⟩

end NbdVram
