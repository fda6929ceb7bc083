import NbdVram.Request

/-!
# Batches

A batch is a list of admitted requests; the ops of request `i` are those from
`opStart` on, and its data is in slot `i` of `ubuf`. `flush_batch` prepares all ops,
gives up the WRITEs of a request one of whose allocations was refused, runs
`do_blocks` once over the whole set and replies in order.
-/

namespace NbdVram

open Interleave Span MutationLog

variable {cfg : Config} {md : Mode} {s s' : State} {w n i j k : ℕ} {x x' x₀ : Local} {m m' : Mem}
  {b : Batch} {r : Req} {rs : List Req} {h : Hdr}

/-! ## The layout of a batch -/

/-- The number of block ops of a request. -/
def Req.nops (cfg : Config) (r : Req) : ℕ := if oob cfg r.off r.len then 0 else r.len / 4096

/-- The first op of request `i`. -/
def opStart (cfg : Config) (rs : List Req) (i : ℕ) : ℕ := ((rs.take i).map (Req.nops cfg)).sum

/-- Slot `i` of `ubuf`. -/
def slotPtr (i : ℕ) : Ptr := ⟨.ubuf, i * 65536⟩

/-- `batch_admit` takes aligned READs and WRITEs of one block up to a whole slot. -/
structure Req.Fits (r : Req) : Prop where
  cmd : r.cmd = .read ∨ r.cmd = .write
  pos : 0 < r.len
  le : r.len ≤ 65536
  off : 4096 ∣ r.off
  len : 4096 ∣ r.len
  data : r.data.length = if r.cmd = .write then r.len else 0

/-- The batch holds the requests `rs`. -/
structure Holds (cfg : Config) (b : Batch) (rs : List Req) : Prop where
  nreq : b.nreq = rs.length
  depth : b.nreq ≤ cfg.batchDepth
  max : b.nops ≤ cfg.maxops
  nops : b.nops = opStart cfg rs rs.length
  fits : ∀ r ∈ rs, r.Fits
  req : ∀ i r, rs[i]? = some r → b.mem.reqs i = ⟨r.handle, r.off, r.len, r.cmd,
    if oob cfg r.off r.len then .einval else .ok, slotPtr i, opStart cfg rs i, r.nops cfg⟩
  data : ∀ i r, rs[i]? = some r → r.cmd = .write → b.mem.read (slotPtr i) r.len = r.data
  ops : ∀ i r, rs[i]? = some r → ∀ j < r.nops cfg, b.mem.ops (opStart cfg rs i + j) =
    blkopSet (opStart cfg rs i + j) (r.off / 4096 + j) r.cmd ((slotPtr i).add (j * 4096)) i

theorem opStart_succ (hr : rs[i]? = some r) :
    opStart cfg rs (i + 1) = opStart cfg rs i + r.nops cfg := by
  rw [opStart, List.take_add_one, hr, List.map_append, List.sum_append]
  simp [opStart]

theorem opStart_append {rs' : List Req} (hi : i ≤ rs.length) :
    opStart cfg (rs ++ rs') i = opStart cfg rs i := by
  rw [opStart, List.take_append_of_le_length hi, opStart]

theorem opStart_mono {i' : ℕ} (hi : i ≤ i') : opStart cfg rs i ≤ opStart cfg rs i' := by
  induction i', hi using Nat.le_induction with
  | base => exact le_rfl
  | succ i' _ ih =>
      cases hr : rs[i']? with
      | none =>
          refine ih.trans (le_of_eq ?_)
          rw [opStart, opStart, List.take_add_one, hr, Option.toList_none, List.append_nil]
      | some r =>
          rw [opStart_succ hr]
          omega

/-- Every op belongs to a request. -/
theorem exists_op (hn : n ≤ rs.length) (hk : k < opStart cfg rs n) :
    ∃ i r j, i < n ∧ rs[i]? = some r ∧ j < r.nops cfg ∧ k = opStart cfg rs i + j := by
  induction n with
  | zero => simp [opStart] at hk
  | succ n ih =>
      have hr : rs[n]? = some rs[n] := List.getElem?_eq_getElem (by omega)
      by_cases hlt : k < opStart cfg rs n
      · obtain ⟨i, r, j, h1, h2⟩ := ih (by omega) hlt
        exact ⟨i, r, j, by omega, h2⟩
      · rw [opStart_succ hr] at hk
        exact ⟨n, _, k - opStart cfg rs n, by omega, hr, by omega, by omega⟩

/-- And to only one. -/
theorem op_unique {i' j' : ℕ} {r' : Req} (hr : rs[i]? = some r) (hr' : rs[i']? = some r')
    (hj : j < r.nops cfg) (hj' : j' < r'.nops cfg)
    (heq : opStart cfg rs i + j = opStart cfg rs i' + j') : i = i' ∧ j = j' := by
  have key : ∀ {a c : ℕ} {q : Req} {p : ℕ}, rs[a]? = some q → p < q.nops cfg → a < c →
      opStart cfg rs a + p < opStart cfg rs c := by
    intro a c q p hq hp hlt
    have : opStart cfg rs (a + 1) ≤ opStart cfg rs c := opStart_mono hlt
    rw [opStart_succ hq] at this
    omega
  rcases Nat.lt_trichotomy i i' with hlt | rfl | hlt
  · have := key hr hj hlt
    omega
  · exact ⟨rfl, by omega⟩
  · have := key hr' hj' hlt
    omega

theorem op_lt (hr : rs[i]? = some r) (hj : j < r.nops cfg) :
    opStart cfg rs i + j < opStart cfg rs rs.length := by
  have hlt : i + 1 ≤ rs.length := by
    obtain ⟨h, -⟩ := List.getElem?_eq_some_iff.mp hr
    exact h
  have : opStart cfg rs (i + 1) ≤ opStart cfg rs rs.length := opStart_mono hlt
  rw [opStart_succ hr] at this
  omega

theorem Req.nops_le (hf : r.Fits) (hj : j < r.nops cfg) :
    j < 16 ∧ r.off + r.len ≤ cfg.diskSize ∧ r.off / 4096 + j < cfg.nblocks := by
  have h1 := hf.le
  have h2 := hf.off
  have h3 := hf.len
  have h4 := cfg.disk_blocks
  unfold Req.nops at hj
  split at hj
  · omega
  · rename_i ho
    rw [oob_iff] at ho
    unfold Config.nblocks
    omega

namespace Holds

theorem empty (m : Mem) : Holds cfg ⟨0, 0, m⟩ [] :=
  ⟨rfl, Nat.zero_le _, Nat.zero_le _, by simp [opStart], by simp, by simp, by simp, by simp⟩

theorem op_ok (hb : Holds cfg b rs) : OpsOk cfg b.nops b.mem := by
  have hlen : ∀ {k}, k < b.nops → k < opStart cfg rs rs.length := fun hk => by rwa [hb.nops] at hk
  refine ⟨hb.max, fun k hk => ?_, fun k hk => ?_, fun k hk => ?_, fun k hk k' hk' hne => ?_,
    fun k hk k' hk' hne hreq => ?_⟩
  · obtain ⟨i, r, j, -, hr, hj, rfl⟩ := exists_op le_rfl (hlen hk)
    rw [hb.ops i r hr j hj]
    rfl
  · obtain ⟨i, r, j, -, hr, hj, rfl⟩ := exists_op le_rfl (hlen hk)
    rw [hb.ops i r hr j hj]
    exact (Req.nops_le (hb.fits r (List.mem_of_getElem? hr)) hj).2.2
  · obtain ⟨i, r, j, -, hr, hj, rfl⟩ := exists_op le_rfl (hlen hk)
    rw [hb.ops i r hr j hj]
    exact (hb.fits r (List.mem_of_getElem? hr)).cmd
  · obtain ⟨i, r, j, -, hr, hj, rfl⟩ := exists_op le_rfl (hlen hk)
    obtain ⟨i', r', j', -, hr', hj', rfl⟩ := exists_op le_rfl (hlen hk')
    have h1 := (Req.nops_le (hb.fits r (List.mem_of_getElem? hr)) hj).1
    have h2 := (Req.nops_le (hb.fits r' (List.mem_of_getElem? hr')) hj').1
    rw [hb.ops i r hr j hj, hb.ops i' r' hr' j' hj']
    simp only [blkopSet, Ptr.Apart, Ptr.add, slotPtr]
    right
    by_cases hii : i = i'
    · subst hii
      have : j ≠ j' := fun h => hne (by rw [h])
      omega
    · omega
  · obtain ⟨i, r, j, -, hr, hj, rfl⟩ := exists_op le_rfl (hlen hk)
    obtain ⟨i', r', j', -, hr', hj', rfl⟩ := exists_op le_rfl (hlen hk')
    rw [hb.ops i r hr j hj, hb.ops i' r' hr' j' hj'] at hreq ⊢
    simp only [blkopSet] at hreq ⊢
    subst hreq
    rw [hr, Option.some.injEq] at hr'
    subst hr'
    intro h
    exact hne (by omega)

/-- The batch as `flush_batch` reads it is the list of admitted requests. -/
theorem reqAt (hb : Holds cfg b rs) (hr : rs[i]? = some r) : b.mem.reqAt i = r := by
  have hf := hb.fits r (List.mem_of_getElem? hr)
  unfold Mem.reqAt
  rw [hb.req i r hr]
  dsimp only
  split
  · rename_i hc
    rw [hb.data i r hr hc]
  · rename_i hc
    have hnil := hf.data
    rw [if_neg hc, List.length_eq_zero_iff] at hnil
    rw [← hnil]

theorem map_reqAt (hb : Holds cfg b rs) : (List.range b.nreq).map b.mem.reqAt = rs := by
  apply List.ext_getElem?
  intro i
  rw [List.getElem?_map, hb.nreq]
  by_cases hi : i < rs.length
  · have hr : rs[i]? = some rs[i] := List.getElem?_eq_getElem hi
    rw [List.getElem?_range hi, hr, Option.map_some, hb.reqAt hr]
  · rw [List.getElem?_eq_none (by simpa using hi), List.getElem?_eq_none (by omega), Option.map_none]

end Holds

/-! ## Admitting -/

theorem aligned_of_and {a c : ℕ} (h : (a ||| c) &&& 4095 = 0) : 4096 ∣ a ∧ 4096 ∣ c := by
  rw [show 4095 = 2 ^ 12 - 1 from rfl, Nat.and_two_pow_sub_one_eq_mod, Nat.or_mod_two_pow,
    Nat.or_eq_zero_iff] at h
  omega

/-- One more request: its entry, its ops and, for a WRITE, its payload. -/
theorem Holds.snoc (hb : Holds cfg b rs) (hf : r.Fits) (hn : b.nreq < cfg.batchDepth)
    (ho : b.nops + r.nops cfg ≤ cfg.maxops)
    (hreqs : m.reqs = Function.update b.mem.reqs b.nreq ⟨r.handle, r.off, r.len, r.cmd,
      if oob cfg r.off r.len then .einval else .ok, slotPtr b.nreq, b.nops, r.nops cfg⟩)
    (hops : m.ops = (b.mem.setOps b.nops (r.nops cfg) (r.off / 4096) r.cmd
      (slotPtr b.nreq) b.nreq).ops)
    (hbuf : ∀ i < b.nreq, ∀ len ≤ 65536, m.read (slotPtr i) len = b.mem.read (slotPtr i) len)
    (hdata : r.cmd = .write → m.read (slotPtr b.nreq) r.len = r.data) :
    Holds cfg ⟨b.nreq + 1, b.nops + r.nops cfg, m⟩ (rs ++ [r]) := by
  have hlast : opStart cfg (rs ++ [r]) rs.length = b.nops := by
    rw [opStart_append le_rfl, hb.nops]
  -- a request of the longer list is an old one or the new one
  have hcases : ∀ {i q}, (rs ++ [r])[i]? = some q →
      i < rs.length ∧ rs[i]? = some q ∨ i = rs.length ∧ q = r := by
    intro i q hq
    rcases Nat.lt_trichotomy i rs.length with hlt | heq | hgt
    · rw [List.getElem?_append_left hlt] at hq
      exact .inl ⟨hlt, hq⟩
    · subst heq
      simp at hq
      exact .inr ⟨rfl, hq.symm⟩
    · rw [List.getElem?_eq_none (by simp; omega)] at hq
      cases hq
  refine ⟨by simp [hb.nreq], hn, ho, ?_, fun q hq => ?_, fun i q hq => ?_, fun i q hq hc => ?_,
    fun i q hq j hj => ?_⟩
  · rw [List.length_append, List.length_singleton, opStart_succ (r := r) (by simp), hlast]
  · rcases List.mem_append.mp hq with hq | hq
    · exact hb.fits q hq
    · rw [List.mem_singleton.mp hq]
      exact hf
  · rw [hreqs]
    rcases hcases hq with ⟨hlt, hq⟩ | ⟨rfl, rfl⟩
    · rw [Function.update_of_ne (by rw [hb.nreq]; omega), hb.req i q hq, opStart_append hlt.le]
    · rw [← hb.nreq, Function.update_self, hb.nreq, hlast]
  · rcases hcases hq with ⟨hlt, hq⟩ | ⟨rfl, rfl⟩
    · rw [hbuf i (by rw [hb.nreq]; omega) _ (hb.fits q (List.mem_of_getElem? hq)).le,
        hb.data i q hq hc]
    · rw [← hb.nreq]
      exact hdata hc
  · rw [hops]
    rcases hcases hq with ⟨hlt, hq⟩ | ⟨rfl, rfl⟩
    · have := op_lt hq hj
      rw [opStart_append hlt.le, ← hb.ops i q hq j hj]
      exact if_neg (by rw [hb.nops]; omega)
    · rw [hlast]
      refine (if_pos ⟨by omega, by omega⟩).trans ?_
      rw [Nat.add_sub_cancel_left, hb.nreq]

/-- How `batch_admit` ends, with `gin` received. -/
inductive Admitted (cfg : Config) (b : Batch) (rs : List Req) (h : Hdr) (gin : List UInt8) :
    Admit × Batch → Prop
  | drop (b' : Batch) : h.cmd = .write → gin.length < h.len → Admitted cfg b rs h gin (.drop, b')
  | single : gin = [] → Admitted cfg b rs h gin (.single, b)
  | batched {b' : Batch} : gin.length = h.payload → Holds cfg b' (rs ++ [h.req gin]) →
      Admitted cfg b rs h gin (.batched, b')

theorem Mem.read_write_slot {bs : List UInt8} {i' len : ℕ} (hi : i < i') (hl : len ≤ 65536) :
    (m.write (slotPtr i') bs).read (slotPtr i) len = m.read (slotPtr i) len := by
  simp only [Mem.read, Mem.write, slotPtr, Function.update_self]
  exact slice_splice_out (.inl (by omega))

theorem batchAdmit_spec (hi : Inv cfg md s) (hx : Loc cfg w x s) (hr : x.Rest md)
    (hb : Holds cfg b rs) (hm : h.magic = requestMagic) (hn : b.nreq < cfg.batchDepth)
    (ho : b.nops + 16 ≤ cfg.maxops) :
    wp (contract cfg md) w (batchAdmit cfg h b) (fun a s' => ∃ p' gin, Loc cfg w (x.online p') s' ∧
      Talked x.priv.net p' gin [] ∧ Admitted cfg b rs h gin a) s := by
  have hnop : (if (if oob cfg h.from' h.len then Err.einval else .ok) ≠ .ok then 0 else h.len / 4096) =
      (h.req []).nops cfg := by
    unfold Req.nops Hdr.req
    dsimp only
    by_cases ho : oob cfg h.from' h.len
    · simp [if_pos ho]
    · simp [if_neg ho]
  unfold batchAdmit
  rw [if_neg (not_not.mpr hm)]
  split
  · exact ⟨_, [], hx, .refl, .single rfl⟩
  split
  · exact ⟨_, [], hx, .refl, .single rfl⟩
  rename_i h1 h2
  obtain ⟨ha1, ha2⟩ := aligned_of_and (not_not.mp h2)
  obtain ⟨hcmd, hlen⟩ := not_or.mp h1
  obtain ⟨hpos, hle⟩ := not_or.mp hlen
  replace hcmd := not_not.mp hcmd
  replace hle := Nat.le_of_not_lt hle
  have hops : (h.req []).nops cfg * 4096 ≤ h.len := by
    unfold Req.nops Hdr.req
    split
    · simp
    · exact Nat.div_mul_le_self _ _
  refine wp_seq hi (access_spec hi hx hn) fun _ s hi hx => ?_
  refine wp_seq hi (oobAccess_spec hi hx) fun _ s hi hx => ?_
  dsimp only
  rw [hnop]
  have hin : (slotPtr b.nreq).off + 65536 ≤ cfg.bufSize (slotPtr b.nreq).buf := by
    simp only [slotPtr, Config.bufSize]
    rw [← Nat.succ_mul]
    exact Nat.mul_le_mul_right _ hn
  have hpg : (slotPtr b.nreq).off + (h.req []).nops cfg * 4096 ≤ cfg.bufSize (slotPtr b.nreq).buf :=
    (Nat.add_le_add_left (hops.trans hle) _).trans hin
  have hmax : b.nops + (h.req []).nops cfg ≤ cfg.maxops := by omega
  refine wp_seq hi (blkopSets_spec hi hx hmax hpg) fun _ s hi h => ?_
  obtain ⟨rfl, hx⟩ := h
  by_cases hc : h.cmd = .write
  · rw [if_pos hc]
    refine wp_seq hi (access_spec hi hx ((Nat.add_le_add_left hle _).trans hin)) fun _ s hi hx => ?_
    refine wp_seq hi (recvAll_spec hi hx hr) fun z s₁ _ hz => ?_
    obtain ⟨p', hx₁, ht, hbl, hlen⟩ := hz
    obtain ⟨ok, bs⟩ := z
    cases ok with
    | false =>
        exact ⟨p', bs, hx₁, ht, .drop _ hc (hbl.lt_of_ne fun h => absurd (hlen.mpr h) (by simp))⟩
    | true =>
        have hbs : bs.length = h.len := hlen.mp rfl
        have hfit : (h.req bs).Fits := ⟨hcmd, Nat.pos_of_ne_zero hpos, hle, ha1, ha2, by
          simp [Hdr.req, hc, hbs]⟩
        exact ⟨p', bs, hx₁, ht, .batched (by rw [Hdr.payload, if_pos hc, hbs]) (Holds.snoc hb hfit hn
          hmax rfl rfl (fun i hi len hl => Mem.read_write_slot hi hl) fun _ => Mem.read_write_self hbs)⟩
  · rw [if_neg hc]
    have hfit : (h.req []).Fits := ⟨hcmd, Nat.pos_of_ne_zero hpos, hle, ha1, ha2, by
      simp [Hdr.req, hc]⟩
    exact ⟨_, [], hx, .refl, .batched (by simp [Hdr.payload, hc]) (Holds.snoc hb hfit hn
      hmax rfl rfl (fun _ _ _ _ => rfl) fun h => absurd h hc)⟩

/-- Room for one more request of 16 blocks. -/
theorem copyCap_le (cfg : Config) : cfg.copyCap + 16 ≤ cfg.maxops := by
  have h := le_maxops cfg
  unfold Config.copyCap
  split <;> omega

/-- How the loop that drains the connection ends, with `gin` received. -/
inductive Gathered (cfg : Config) (rs : List Req) (gin : List UInt8) : Trailer × Batch → Prop
  | drop (b' : Batch) {rs' : List Req} {raw rest : List UInt8} : gin = raw ++ rest → Frames raw rs' →
      Stuck rest → Gathered cfg rs gin (.drop, b')
  | none {b' : Batch} {rs' : List Req} : Frames gin rs' → Holds cfg b' (rs ++ rs') →
      Gathered cfg rs gin (.none, b')
  | single {b' : Batch} {rs' : List Req} {raw hb : List UInt8} : gin = raw ++ hb → Frames raw rs' →
      Holds cfg b' (rs ++ rs') → hb.length = 28 → (parseHdr hb).magic = requestMagic →
      (parseHdr hb).cmd ≠ .disc → Gathered cfg rs gin (.single (parseHdr hb), b')
  | disc {b' : Batch} {rs' : List Req} {raw hb : List UInt8} : gin = raw ++ hb → Frames raw rs' →
      Holds cfg b' (rs ++ rs') → DiscHdr hb → Gathered cfg rs gin (.disc, b')

/-- One more frame in front. -/
theorem Gathered.cons {raw gin : List UInt8} {t : Trailer × Batch} (hf : Frame raw r)
    (hg : Gathered cfg (rs ++ [r]) gin t) : Gathered cfg rs (raw ++ gin) t := by
  have happ : ∀ rs' : List Req, rs ++ [r] ++ rs' = rs ++ ([r] ++ rs') := fun rs' => by simp
  cases hg with
  | drop b' h1 h2 h3 =>
      exact .drop b' (by rw [h1, List.append_assoc]) ((Frames.one hf).append h2) h3
  | none h1 h2 =>
      rw [happ] at h2
      exact .none ((Frames.one hf).append h1) h2
  | single h1 h2 h3 h4 h5 h6 =>
      rw [happ] at h3
      exact .single (by rw [h1, List.append_assoc]) ((Frames.one hf).append h2) h3 h4 h5 h6
  | disc h1 h2 h3 h4 =>
      rw [happ] at h3
      exact .disc (by rw [h1, List.append_assoc]) ((Frames.one hf).append h2) h3 h4

theorem gather_spec {fuel : ℕ} (hi : Inv cfg md s) (hx : Loc cfg w x s) (hr : x.Rest md)
    (hb : Holds cfg b rs) :
    wp (contract cfg md) w (gather cfg fuel b) (fun t s' => ∃ p' gin, Loc cfg w (x.online p') s' ∧
      Talked x.priv.net p' gin [] ∧ Gathered cfg rs gin t) s := by
  induction fuel generalizing x s b rs with
  | zero => exact ⟨_, [], hx, .refl, .none .nil (by rwa [List.append_nil])⟩
  | succ fuel ih =>
      unfold gather
      split
      · rename_i hroom
        have hcap : b.nops + 16 ≤ cfg.maxops := by
          have h1 := hroom.2
          have h2 := copyCap_le cfg
          omega
        refine wp_seq hi (recvHdrNb_spec hi hx hr) fun z s₁ hi₁ hz => ?_
        obtain ⟨p₁, hb₁, hx₁, ht₁, ⟨rfl, hlt⟩ | ⟨rfl, rfl⟩ | ⟨hlen, rfl⟩⟩ := hz
        · exact ⟨p₁, hb₁, hx₁, ht₁, .drop b (List.nil_append _).symm .nil (.short hlt)⟩
        · exact ⟨p₁, [], hx₁, ht₁, .none .nil (by rwa [List.append_nil])⟩
        dsimp only
        by_cases hmg : (parseHdr hb₁).magic ≠ requestMagic
        · rw [if_pos hmg]
          exact ⟨p₁, hb₁, hx₁, ht₁, .drop b (List.nil_append _).symm .nil (.magic hlen hmg)⟩
        rw [if_neg hmg]
        rw [not_not] at hmg
        by_cases hd : (parseHdr hb₁).cmd = .disc
        · rw [if_pos hd]
          exact ⟨p₁, hb₁, hx₁, ht₁, .disc (List.nil_append _).symm .nil (by rwa [List.append_nil]) ⟨hlen, hmg, hd⟩⟩
        rw [if_neg hd]
        refine wp_seq hi₁ (batchAdmit_spec hi₁ hx₁ (hr.online _) hb hmg hroom.1 hcap) fun a s₂ hi₂ ha => ?_
        obtain ⟨p₂, gin, hx₂, ht₂, hadm⟩ := ha
        have ht : Talked x.priv.net p₂ (hb₁ ++ gin) [] := ht₁.trans ht₂
        cases hadm with
        | drop b' h1 h2 =>
            exact ⟨p₂, _, hx₂, ht, .drop b' (List.nil_append _).symm .nil (.intro hlen h1 h2)⟩
        | single hn =>
            subst hn
            rw [List.append_nil] at ht
            exact ⟨p₂, _, hx₂, ht, .single (List.nil_append _).symm .nil (by rwa [List.append_nil]) hlen hmg hd⟩
        | batched hgl hh =>
            refine wp_mono hi₂ (ih hi₂ hx₂ (hr.online _) hh) fun t s₃ _ hg => ?_
            obtain ⟨p₃, gin', hx₃, ht₃, hg₃⟩ := hg
            exact ⟨p₃, _, hx₃, ht.trans ht₃, hg₃.cons (Frame.intro hlen hmg hd hgl)⟩
      · exact ⟨_, [], hx, .refl, .none .nil (by rwa [List.append_nil])⟩

end NbdVram
