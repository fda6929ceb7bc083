import NbdVram.Wire

/-!
# One request at a time

`handle_one` receives the payload of a WRITE, and sends the data of a READ, in
windows that end on block boundaries. What it comes to is the same as for a batch:
a `Done` request with its answer, and an `Effect` on the device that is cut at
block boundaries.
-/

namespace NbdVram

open Interleave Span MutationLog

variable {cfg : Config} {md : Mode} {s s' : State} {w n i j : ℕ} {x x' x₀ : Local} {m m' : Mem}

/-! ## Requests and their answers -/

theorem oob_iff {off len : ℕ} : oob cfg off len ↔ cfg.diskSize < off + len := by
  unfold oob
  omega

/-- A request with the answer it got. -/
structure Done where
  req : Req
  err : Err
  out : List UInt8

/-- The answer on the wire. -/
def Done.reply (d : Done) : List UInt8 := respHdr d.err d.req.handle ++ d.out

/-- What every answer is like: data follows exactly after a successful READ, and bad ranges are
refused; where nothing fails, everything else succeeds. -/
structure Done.Ok (cfg : Config) (md : Mode) (d : Done) : Prop where
  out : d.out.length = if d.req.cmd = .read ∧ d.err = .ok then d.req.len else 0
  oob : d.req.Oob cfg → d.err = .einval
  ok : md.Stores cfg → (d.req.cmd = .read → md.Reads cfg) → md.alloc = true → md.launch = true →
    ¬ d.req.Oob cfg → d.err = .ok

/-- What a READ has seen. -/
def Done.saw (cfg : Config) (md : Mode) (d : Done) : List (Disk → Prop) :=
  if d.req.cmd = .read then (chop d.req.off d.out).map (Piece.saw cfg md) else []

/-- The blocks that lie wholly inside a range. -/
def trimBlocks (cfg : Config) (off len : ℕ) : List ℕ :=
  (List.range ((trimBounds cfg off len).2 - (trimBounds cfg off len).1)).map
    ((trimBounds cfg off len).1 + ·)

/-- What serving a request has done to the device. -/
inductive Effect (cfg : Config) (md : Mode) (d : Done) : List (Item Disk Mut) → Prop
  | refused : d.req.Oob cfg → Effect cfg md d []
  | other : d.req.cmd ≠ .write → d.req.cmd ≠ .trim → Effect cfg md d []
  | wrote (i : ℕ) (sub : List Piece) : ¬ d.req.Oob cfg → d.req.cmd = .write →
      sub.Sublist (chop d.req.off d.req.data) → (d.err = .ok → sub = chop d.req.off d.req.data) →
      Effect cfg md d (sub.map (Piece.wrote cfg md i))
  | trimmed (its : List (Item Disk Mut)) : ¬ d.req.Oob cfg → d.req.cmd = .trim →
      List.Forall₂ (Trimmed cfg md) (trimBlocks cfg d.req.off d.req.len) its → Effect cfg md d its

theorem Effect.nil_of_read {d : Done} {is : List (Item Disk Mut)} (h : Effect cfg md d is)
    (hc : d.req.cmd = .read) : is = [] := by
  cases h with
  | refused _ | other _ _ => rfl
  | wrote i sub _ hw _ _ =>
      rw [hc] at hw
      cases hw
  | trimmed _ _ ht _ =>
      rw [hc] at ht
      cases ht

/-- Requests that were served together: all READs were done before the first mutation. -/
inductive Group (cfg : Config) (md : Mode) (ds : List Done) : List (Item Disk Mut) → Prop
  | intro {effs : List (List (Item Disk Mut))} : (∀ d ∈ ds, d.Ok cfg md) →
      (md.apart = true → Apart (ds.map Done.req)) → List.Forall₂ (Effect cfg md) ds effs →
      (1 < ds.length → ∀ d ∈ ds, d.req.cmd = .read ∨ d.req.cmd = .write) →
      Group cfg md ds (.sees (ds.flatMap (Done.saw cfg md)) :: effs.flatten)

/-! ## Serving -/

/-- From `x` to `x'` worker `w` has received `gin`, sent `gout`, done `is` to the device and met
the faults `fs`. -/
structure Served (w : ℕ) (x : Local) (gin gout : List UInt8) (is : List (Item Disk Mut))
    (fs : List Fault) (x' : Local) : Prop where
  script : Script w x.log is x'.log
  talked : Talked x.priv.net x'.priv.net gin gout
  start : x'.priv.start = x.priv.start
  faults : x'.priv.faults = fs ++ x.priv.faults

namespace Served

variable {x'' : Local} {gin gout gin' gout' : List UInt8} {is is' : List (Item Disk Mut)}
  {fs fs' : List Fault}

theorem refl : Served w x [] [] [] [] x := ⟨Script.refl, .refl, rfl, rfl⟩

theorem trans (h : Served w x gin gout is fs x') (h' : Served w x' gin' gout' is' fs' x'') :
    Served w x (gin ++ gin') (gout ++ gout') (is ++ is') (fs' ++ fs) x'' :=
  ⟨h.script.trans h'.script, h.talked.trans h'.talked, h'.start.trans h.start,
    by rw [h'.faults, h.faults, List.append_assoc]⟩

theorem of_did (h : Did w x is fs x') : Served w x [] [] is fs x' :=
  ⟨h.script, by rw [h.net]; exact .refl, h.start, h.faults⟩

theorem of_talked {p : Net} (h : Talked x.priv.net p gin gout) :
    Served w x gin gout [] [] (x.online p) := ⟨Script.refl, h, rfl, rfl⟩

/-- Work on the device after the request was received. -/
theorem then_did (h : Served w x gin gout is fs x') (h' : Did w x' is' fs' x'') :
    Served w x gin gout (is ++ is') (fs' ++ fs) x'' := by
  have := h.trans (of_did h')
  rwa [List.append_nil, List.append_nil] at this

theorem then_talked {p : Net} (h : Served w x gin gout is fs x')
    (h' : Talked x'.priv.net p gin' gout') :
    Served w x (gin ++ gin') (gout ++ gout') is fs (x'.online p) := by
  have := h.trans (of_talked h')
  rwa [List.append_nil, List.nil_append] at this

end Served

/-! ## Windows -/

/-- A window is not empty and ends on a block boundary, unless it is the last. Where the offset
wraps the request is out of bounds, and only the length counts. -/
theorem nextChunk_spec {voff remaining : ℕ} (hv : voff < 2 ^ 64) (hr : 0 < remaining) :
    0 < nextChunk voff remaining ∧ nextChunk voff remaining ≤ remaining ∧
      nextChunk voff remaining ≤ 262144 ∧ (voff + remaining < 2 ^ 64 →
        nextChunk voff remaining = remaining ∨ 4096 ∣ voff + nextChunk voff remaining) := by
  unfold nextChunk
  by_cases hbig : 262144 < remaining
  · simp only [if_pos hbig]
    by_cases hwrap : voff + 262144 < 2 ^ 64
    · rw [Nat.mod_eq_of_lt hwrap]
      have hlt : voff < (voff + 262144) / 4096 * 4096 := by omega
      rw [if_pos hlt, Nat.mod_eq_of_lt (by omega)]
      omega
    · have hmod : (voff + 262144) % 2 ^ 64 < voff := by omega
      rw [if_neg (by have := Nat.div_mul_le_self ((voff + 262144) % 2 ^ 64) 4096; omega)]
      omega
  · simp only [if_neg hbig, if_neg (Nat.lt_irrefl remaining)]
    exact ⟨hr, le_rfl, by omega, fun _ => .inl trivial⟩

theorem nextWindow_spec {voff remaining : ℕ} (hi : Inv cfg md s) (hx : Loc cfg w x s)
    (hv : voff < 2 ^ 64) (hr : 0 < remaining) :
    wp (contract cfg md) w (nextWindow voff remaining)
      (fun chunk s' => chunk = nextChunk voff remaining ∧ Loc cfg w x s') s := by
  obtain ⟨-, hle, hbuf, -⟩ := nextChunk_spec hv hr
  have hend : wp (contract cfg md) w (endAccess voff remaining) (fun _ s' => Loc cfg w x s') s := by
    unfold endAccess
    dsimp only
    generalize (voff + if 262144 < remaining then 262144 else remaining) % 2 ^ 64 / 4096 * 4096 = fin
    by_cases hc : (if 262144 < remaining then 262144 else remaining) < remaining ∧ voff < fin
    · rw [if_pos hc]
      exact access_spec hi hx hc.2.le
    · rw [if_neg hc]
      exact hx
  refine wp_seq hi hend fun _ s₁ hi₁ hx₁ => ?_
  refine wp_seq hi₁ (access_spec hi₁ hx₁ (by simpa [Access.Ok, Config.bufSize] using hbuf))
    fun _ s₂ hi₂ hx₂ => ?_
  exact wp_seq hi₂ (access_spec hi₂ hx₂ hle) fun _ s₃ _ hx₃ => ⟨rfl, hx₃⟩

/-- Offsets are 64-bit numbers. -/
theorem parseHdr_from_lt (bs : List UInt8) : (parseHdr bs).from' < 2 ^ 64 := by
  refine (be_lt _).trans_le ?_
  rw [List.length_take, show (2 : ℕ) ^ 64 = 256 ^ 8 from by norm_num]
  exact Nat.pow_le_pow_right (by decide) (Nat.min_le_left _ _)

/-! ## What the events of a request say -/

/-- A byte of a piece. -/
theorem mem_chop_getD {off k : ℕ} {data : List UInt8} {p : Piece} (h : p ∈ chop off data)
    (h1 : p.1 ≤ off + k) (h2 : off + k < p.1 + p.2.length) :
    p.2.getD (off + k - p.1) default = data.getD k default := by
  obtain ⟨-, -, h3, -, h5⟩ := mem_chop h
  rw [h5, List.getD_eq_getElem?_getD, List.getD_eq_getElem?_getD, List.getElem?_take_of_lt (by omega),
    List.getElem?_drop, show p.1 - off + (off + k - p.1) = k from by omega]

/-- Every byte that was seen was on the device at one instant. -/
theorem Script.seen {log log' : List Mut} {is : List (Item Disk Mut)} {l : List (Disk → Prop)}
    {off k : ℕ} {data : List UInt8} (h : Script w log is log') (hl : .sees l ∈ is)
    (hsaw : ∀ p ∈ chop off data, Piece.saw cfg md p ∈ l) (hm : md.Reads cfg) (hk : k < data.length) :
    ∃ t, log.length ≤ t ∧ t ≤ log'.length ∧ data.getD k default = disk (log'.take t) (off + k) := by
  obtain ⟨new, rfl, hlin⟩ := h
  obtain ⟨p, hp, h1, h2⟩ := @exists_mem_chop off _ _ hk
  obtain ⟨pre, ⟨post, rfl⟩, hP⟩ := hlin.mem_sees hl (hsaw p hp)
  refine ⟨log.length + pre.length, Nat.le_add_right _ _, by simp, ?_⟩
  have htake : (log ++ (pre ++ post)).take (log.length + pre.length) = log ++ pre := by
    rw [← List.append_assoc, ← List.length_append, List.take_left]
  obtain ⟨i, hi⟩ := Nat.exists_eq_add_of_le h1
  rw [← mem_chop_getD hp h1 h2, ← hP hm, htake, disk_append, hi, Nat.add_sub_cancel_left,
    slice_getD (by omega)]

/-- When the data of a READ may be sent. -/
theorem Script.deliverOk {log : List Mut} {is : List (Item Disk Mut)} {l : List (Disk → Prop)}
    {pos : ℕ} {r : Req} {data : List UInt8} (h : Script w log is x.log) (hl : .sees l ∈ is)
    (hsaw : ∀ p ∈ chop (r.off + pos) data, Piece.saw cfg md p ∈ l) (hx : Loc cfg w x s)
    (hr : x.Rest md) (hst : x.priv.start ≤ log.length) :
    EventOk cfg md w s (.deliver r pos data) := by
  refine ⟨hx.quiet hr, fun hm k hk => ?_⟩
  obtain ⟨t, h1, h2, h3⟩ := h.seen hl hsaw hm hk
  obtain ⟨new, hlog, -⟩ := hx.log
  refine ⟨t, by rw [hx.priv]; omega, ?_, ?_⟩
  · rw [hlog, List.length_append]
    omega
  · rw [hlog, List.take_append_of_le_length h2, h3]

/-- When request `i` may be answered: its error is the verdict on its faults, none of which `is`
has published, and a WRITE without error has published all of it. -/
theorem Script.replyOk {log : List Mut} {is : List (Item Disk Mut)} {r : Req} {err : Err}
    (h : Script w log is x.log) (hx : Loc cfg w x s) (hr : x.Rest md)
    (hst : x.priv.start = log.length)
    (hv : err = if r.Oob cfg then .einval else verdict (x.priv.faultsOf i))
    (hb : ∀ f ∈ x.priv.faultsOf i, r.Touches f.tag.blk)
    (hf : ∀ f ∈ x.priv.faultsOf i,
      ∀ c m d, .put c ∈ is → c m d → m.req = i → m.blk ≠ f.tag.blk)
    (hw : r.cmd = .write → err = .ok → r.data.length = r.len ∧
      ∀ p ∈ chop r.off r.data, Piece.wrote cfg md i p ∈ is) :
    EventOk cfg md w s (.reply i r err) := by
  obtain ⟨new, hnew, hlin⟩ := h
  obtain ⟨new', hlog, hal⟩ := hx.log
  have hdrop : s.log.drop (s.priv w).start = new ++ new' := by
    rw [hx.priv, hst, hlog, hnew, List.append_assoc, List.drop_left]
  refine ⟨hx.quiet hr, ⟨by rwa [hx.priv], by rwa [hx.priv], fun f hmem m hm hwho hreq => ?_,
    fun hc he k hk => ?_⟩⟩
  · rw [hx.priv] at hmem
    rw [hdrop] at hm
    have hm : m ∈ new := (List.mem_append.mp hm).resolve_right fun hm => hal m hm hwho
    obtain ⟨pre, post, rfl⟩ := List.append_of_mem hm
    obtain ⟨c, hc, hcm⟩ := hlin.put_of_split hwho
    exact hf f hmem c m _ hc hcm hreq
  · obtain ⟨hlen, hall⟩ := hw hc he
    obtain ⟨p, hp, h1, h2⟩ := @exists_mem_chop r.off _ _ (hlen ▸ hk)
    obtain ⟨pre, m, post, rfl, hwho, hreq, hblk, happ⟩ := hlin.mem_put (hall p hp)
    rw [hdrop]
    have hmod : p.1 / 4096 = (r.off + k) / 4096 := by
      have := (mem_chop hp).2.1
      omega
    refine ⟨m, by simp, hwho, hreq, by rw [hblk, hmod], fun hm => ?_⟩
    -- both sides are the byte that the mutation has put at this address
    have hin := Nat.div_add_mod' (r.off + k) 4096
    have hpg := m.page.length_eq
    have hmlt := Nat.mod_lt (r.off + k) (show 4096 > 0 by decide)
    rw [← mem_chop_getD hp h1 h2, ← splice_in h1 h2, ← happ hm, Mut.app,
      splice_in (by omega) (by omega), hblk, hmod]
    congr 1
    omega

/-! ## WRITE -/

/-- Once a WRITE has failed its payload is only received. -/
theorem drain_spec {fuel voff remaining : ℕ} {y : Written} (hi : Inv cfg md s) (hx : Loc cfg w x s)
    (hr : x.Rest md) (hf : remaining ≤ fuel) (hv : voff < 2 ^ 64) (he : y.error ≠ .ok)
    (hy : y.alive = true) :
    wp (contract cfg md) w (writeLoop cfg fuel voff remaining y) (fun y' s' => ∃ p' gin,
      Loc cfg w (x.online p') s' ∧ Talked x.priv.net p' gin [] ∧ y'.error = y.error ∧
      y'.data = y.data ++ gin ∧ gin.length ≤ remaining ∧
      (y'.alive = true ↔ gin.length = remaining)) s := by
  induction fuel generalizing x s voff remaining y with
  | zero => exact ⟨_, [], hx, .refl, rfl, by simp, by simp, iff_of_true hy (by simp; omega)⟩
  | succ fuel ih =>
      unfold writeLoop
      by_cases hz : remaining = 0
      · rw [if_pos hz]
        exact ⟨_, [], hx, .refl, rfl, by simp, by simp, iff_of_true hy (by simp [hz])⟩
      rw [if_neg hz]
      obtain ⟨hpos, hle, -⟩ := nextChunk_spec hv (Nat.pos_of_ne_zero hz)
      refine wp_seq hi (nextWindow_spec hi hx hv (Nat.pos_of_ne_zero hz)) fun chunk s hi h => ?_
      obtain ⟨hck, hx⟩ := h
      rw [← hck] at hpos hle
      refine wp_seq hi (recvAll_spec hi hx hr) fun r s₁ hi₁ h => ?_
      obtain ⟨p₁, hx₁, ht₁, hbs, hlen⟩ := h
      obtain ⟨ok, bs⟩ := r
      cases ok with
      | false =>
          have hlt : bs.length < chunk := hbs.lt_of_ne fun h => absurd (hlen.mpr h) (by simp)
          exact ⟨p₁, bs, hx₁, ht₁, rfl, rfl, by omega, iff_of_false (by simp) (by omega)⟩
      | true =>
          simp only [Bool.true_eq_false, if_false, if_neg he]
          refine wp_mono hi₁ (ih hi₁ hx₁ (hr.online _) (by omega) (Nat.mod_lt _ (by decide))
            (by simpa using he) rfl) fun y' s₂ _ h => ?_
          obtain ⟨p₂, gin, hx₂, ht₂, he₂, hd₂, hg₂, ha₂⟩ := h
          have hbl : bs.length = chunk := hlen.mp rfl
          refine ⟨p₂, bs ++ gin, hx₂, ht₁.trans ht₂, ?_, ?_, ?_, ?_⟩
          · rw [he₂]
            exact Err.merge_ok_right _
          · rw [hd₂, List.append_assoc]
          · rw [List.length_append]
            omega
          · rw [ha₂, List.length_append]
            omega

/-- The bytes `data` of a range of `len` bytes at `off` end where a window ends. -/
def Whole (off len : ℕ) (data : List UInt8) : Prop :=
  data = [] ∨ data.length = len ∨ 4096 ∣ off + data.length

/-- The window loop of a WRITE that lies on the device: what was received in whole windows is
stored as far as it can be; `part` is the rest, if the client did not complete it. -/
theorem writeLoop_spec {fuel voff remaining : ℕ} {y : Written} (hi : Inv cfg md s)
    (hx : Loc cfg w x s) (hr : x.Rest md) (hf : remaining ≤ fuel)
    (hv : voff + remaining ≤ cfg.diskSize) (he : y.error = .ok) (hy : y.alive = true) :
    wp (contract cfg md) w (writeLoop cfg fuel voff remaining y) (fun y' s' =>
      ∃ x' gin part sub fs, Loc cfg w x' s' ∧ x'.Rest md ∧
      Served w x (gin ++ part) [] (sub.map (Piece.wrote cfg md 0)) fs x' ∧
      StoredAs cfg md 0 (chop voff gin) sub y'.error fs ∧ y'.data = y.data ++ (gin ++ part) ∧
      gin.length ≤ remaining ∧ Whole voff remaining gin ∧
      (y'.alive = true → part = [] ∧ gin.length = remaining) ∧
      (y'.alive = false → (gin ++ part).length < remaining)) s := by
  induction fuel generalizing x s voff remaining y with
  | zero =>
      refine ⟨x, [], [], [], [], hx, hr, .refl, ?_, by simp, by simp, .inl rfl,
        fun _ => by simp; omega, fun h => by rw [hy] at h; cases h⟩
      rw [he, chop_nil]
      exact .nil
  | succ fuel ih =>
      unfold writeLoop
      by_cases hz : remaining = 0
      · rw [if_pos hz]
        refine ⟨x, [], [], [], [], hx, hr, .refl, ?_, by simp, by simp, .inl rfl,
          fun _ => by simp [hz], fun h => by rw [hy] at h; cases h⟩
        rw [he, chop_nil]
        exact .nil
      rw [if_neg hz]
      have hlt := cfg.disk_lt
      have hv' : voff < 2 ^ 64 := by omega
      obtain ⟨hpos, hle, hbuf, hal⟩ := nextChunk_spec hv' (Nat.pos_of_ne_zero hz)
      replace hal := hal (by omega)
      refine wp_seq hi (nextWindow_spec hi hx hv' (Nat.pos_of_ne_zero hz)) fun chunk s hi h => ?_
      obtain ⟨hck, hx⟩ := h
      rw [← hck] at hpos hle hbuf hal
      refine wp_seq hi (recvAll_spec hi hx hr) fun r s₁ hi₁ h => ?_
      obtain ⟨p₁, hx₁, ht₁, hbl, hlen⟩ := h
      obtain ⟨ok, bs⟩ := r
      cases ok with
      | false =>
          have hlt : bs.length < chunk := hbl.lt_of_ne fun h => absurd (hlen.mpr h) (by simp)
          refine ⟨_, [], bs, [], [], hx₁, hr.online _, .of_talked ht₁, ?_, rfl, by simp, .inl rfl,
            (by simp), fun _ => ?_⟩
          · simp only [he, chop_nil]
            exact .nil
          · rw [List.nil_append]
            omega
      | true =>
          simp only [Bool.true_eq_false, if_false, if_pos he]
          have hbs : bs.length = chunk := hlen.mp rfl
          refine wp_seq hi₁ (storeRange_spec hi₁ hx₁ (hr.online _) (by omega) hpos (by simp)
            (by simpa [Config.bufSize] using hbuf))
            fun z s₂ hi₂ h => ?_
          obtain ⟨x₂, fs, sub, hx₂, hr₂, -, hput⟩ := h
          rw [Mem.read_write_self hbs] at hput
          have hsv := (Served.of_talked (w := w) ht₁).then_did hput.did
          rw [List.nil_append, List.append_nil] at hsv
          rw [he, Err.merge_ok_left, Nat.mod_eq_of_lt (by omega)]
          -- the next window starts where this one ends, on a block boundary
          have hchop : ∀ g : List UInt8, g.length ≤ remaining - chunk →
              chop voff (bs ++ g) = chop voff bs ++ chop (voff + chunk) g ∧
              ∀ p ∈ chop voff bs, ∀ q ∈ chop (voff + chunk) g, Piece.blk p ≠ Piece.blk q := by
            intro g hg
            rcases hal with hal | hal
            · have hnil : g = [] := List.length_eq_zero_iff.mp (by omega)
              simp [hnil]
            · refine ⟨by rw [chop_append (by rwa [hbs]), hbs], chop_apart (by rw [hbs]) hal⟩
          by_cases hok : z.1 = .ok
          · refine wp_mono hi₂ (ih hi₂ hx₂ hr₂ (by omega) (by omega) hok rfl) fun y' s₃ _ h => ?_
            obtain ⟨x₃, gin, part, sub', fs', hx₃, hr₃, hsv₃, hst₃, hd₃, hg₃, hw₃, ha₃⟩ := h
            obtain ⟨hsplit, hapart⟩ := hchop gin hg₃
            have hst := hput.stored.append hst₃ hapart
            rw [hok, Err.merge_ok_left, ← hsplit] at hst
            have hlen' : (bs ++ gin).length = chunk + gin.length := by rw [List.length_append, hbs]
            refine ⟨x₃, bs ++ gin, part, sub ++ sub', fs' ++ fs, hx₃, hr₃, ?_, hst, ?_, by omega, ?_,
              fun h => ?_, fun h => ?_⟩
            · rw [List.map_append, List.append_assoc]
              exact hsv.trans hsv₃
            · rw [hd₃]
              simp only [List.append_assoc]
            · rcases hw₃ with rfl | hw₃ | hw₃
              · rw [List.append_nil, Whole, hbs]
                exact .inr hal
              · exact .inr (.inl (by omega))
              · rw [Nat.add_assoc, ← hlen'] at hw₃
                exact .inr (.inr hw₃)
            · obtain ⟨h1, h2⟩ := ha₃.1 h
              exact ⟨h1, by omega⟩
            · have := ha₃.2 h
              rw [List.append_assoc, List.length_append]
              omega
          · refine wp_mono hi₂ (drain_spec hi₂ hx₂ hr₂ (by omega) (by omega) hok rfl)
              fun y' s₃ _ h => ?_
            obtain ⟨p₃, gin, hx₃, ht₃, he₃, hd₃, hg₃, ha₃⟩ := h
            have hsv₃ := hsv.then_talked ht₃
            rw [List.append_assoc] at hd₃
            by_cases hy' : y'.alive = true
            · refine ⟨_, bs ++ gin, [], sub, fs, hx₃, hr₂.online _, ?_, ?_, ?_, ?_, .inr (.inl ?_),
                fun _ => ⟨rfl, ?_⟩, fun h => by rw [hy'] at h; cases h⟩
              · rw [List.append_nil]
                exact hsv₃
              · rw [(hchop gin hg₃).1, he₃]
                exact hput.stored.skip hok
              · rw [hd₃, List.append_nil]
              all_goals
                rw [List.length_append, ha₃.mp hy']
                omega
            · refine ⟨_, bs, gin, sub, fs, hx₃, hr₂.online _, hsv₃, ?_, hd₃, by omega, ?_,
                fun h => absurd h hy', fun _ => ?_⟩
              · rw [he₃]
                exact hput.stored
              · rw [Whole, hbs]
                exact .inr hal
              · rw [ha₃] at hy'
                rw [List.length_append]
                omega

/-! ## READ -/

theorem Loaded.served {off : ℕ} {data : List UInt8} {fs : List Fault} {l : List (Disk → Prop)}
    (h : Loaded cfg md w x (chop off data) .ok x' fs l) :
    Served w x [] [] [.sees ((chop off data).map (Piece.saw cfg md))] [] x' := by
  have hd := h.did
  rw [h.clean.mp rfl, h.ok rfl] at hd
  exact .of_did hd

theorem Served.merge {x'' : Local} {gout gout' : List UInt8} {l l' : List (Disk → Prop)}
    {fs : List Fault} (h : Served w x [] gout [.sees l] [] x')
    (h' : Served w x' [] gout' [.sees l'] fs x'') :
    Served w x [] (gout ++ gout') [.sees (l ++ l')] fs x'' := by
  have hs := h.trans h'
  exact ⟨h.script.merge h'.script, hs.talked, hs.start, by rw [h'.faults, h.faults, List.nil_append]⟩

theorem Served.sees_nil : Served w x [] [] [.sees []] [] x :=
  ⟨⟨[], by simp, Lin.sees Foreign.nil (by simp)⟩, .refl, rfl, rfl⟩

/-- A load that has failed has still not sent anything. -/
theorem Loaded.served_nil {ps : List Piece} {err : Err} {fs : List Fault} {l : List (Disk → Prop)}
    (h : Loaded cfg md w x ps err x' fs l) : Served w x [] [] [.sees []] fs x' := by
  have hs := Served.of_did h.did
  obtain ⟨new, hlog, hlin⟩ := hs.script
  exact ⟨⟨new, hlog, hlin.sees_mono (by simp)⟩, hs.talked, hs.start, hs.faults⟩

/-- The window loop of a READ: each window is loaded, then sent. `data` is what was loaded; all
of it was sent unless the connection failed, and never the whole range if the loop fails. -/
theorem readLoop_spec {fuel voff remaining : ℕ} {r : Req} (hi : Inv cfg md s) (hx : Loc cfg w x s)
    (hr : x.Rest md) (hf : remaining ≤ fuel) (hv : voff + remaining ≤ cfg.diskSize)
    (hle : remaining ≤ r.len) (hpos : voff = r.off + (r.len - remaining))
    (hst : x.priv.start ≤ x.log.length) :
    wp (contract cfg md) w (readLoop cfg r fuel voff remaining m) (fun z s' => ∃ x' gout data fs,
      Loc cfg w x' s' ∧ x'.Rest md ∧
      Served w x [] gout [.sees ((chop voff data).map (Piece.saw cfg md))] fs x' ∧
      gout <+: data ∧ data.length ≤ remaining ∧
      (z.1 = true → gout = data ∧ data.length = remaining ∧ fs = []) ∧
      (z.1 = false → gout.length < remaining ∧ (fs ≠ [] ∨ x'.priv.net.down = true))) s := by
  induction fuel generalizing x s voff remaining m with
  | zero =>
      exact ⟨x, [], [], [], hx, hr, by simpa using .sees_nil, List.nil_prefix, by simp,
        fun _ => ⟨rfl, by simp; omega, rfl⟩, (by simp)⟩
  | succ fuel ih =>
      unfold readLoop
      by_cases hz : remaining = 0
      · rw [if_pos hz]
        exact ⟨x, [], [], [], hx, hr, by simpa using .sees_nil, List.nil_prefix, by simp,
          fun _ => ⟨rfl, by simp [hz], rfl⟩, (by simp)⟩
      rw [if_neg hz]
      have hlt := cfg.disk_lt
      have hv' : voff < 2 ^ 64 := by omega
      obtain ⟨hcpos, hcle, hbuf, hal⟩ := nextChunk_spec hv' (Nat.pos_of_ne_zero hz)
      replace hal := hal (by omega)
      refine wp_seq hi (nextWindow_spec hi hx hv' (Nat.pos_of_ne_zero hz)) fun chunk s hi h => ?_
      obtain ⟨hck, hx⟩ := h
      rw [← hck] at hcpos hcle hbuf hal
      refine wp_seq hi (loadRange_spec hi hx hr (by omega) hcpos (by simp)
        (by simpa [Config.bufSize] using hbuf)) fun z s₁ hi₁ h => ?_
      obtain ⟨x₁, fs, l, hx₁, hr₁, hl⟩ := h
      obtain ⟨e, m₁⟩ := z
      by_cases he : e = .ok
      · subst he
        simp only [ne_eq, not_true_eq_false, if_false]
        have hdata : (m₁.read ⟨.iobuf, 0⟩ chunk).length = chunk := Mem.read_length _ _ _
        dsimp only at hl
        generalize m₁.read ⟨.iobuf, 0⟩ chunk = data at hl hdata ⊢
        have hsv := hl.served
        refine wp_seq hi₁ (deliver_spec hi₁ hx₁ fun s' _ hx' => ?_) fun _ s₂ hi₂ hx₂ => ?_
        · refine hsv.script.deliverOk List.mem_cons_self (fun p hp => List.mem_map_of_mem ?_) hx' hr₁ ?_
          · rwa [hpos]
          · rw [hsv.start]
            exact hst
        refine wp_seq hi₂ (sendAll_spec hi₂ hx₂ hr₁) fun ok s₃ hi₃ h => ?_
        obtain ⟨p₃, gout, rest, hx₃, ht₃, hout, hok, hdown⟩ := h
        have hsv₃ := hsv.then_talked ht₃
        rw [List.nil_append, List.nil_append] at hsv₃
        cases ok with
        | false =>
            have hne : rest ≠ [] := fun h => absurd (hok.mpr h) (by simp)
            have hpos' := List.length_pos_of_ne_nil hne
            have hlen : data.length = gout.length + rest.length := by rw [hout, List.length_append]
            exact ⟨_, gout, data, [], hx₃, hr₁.online _, hsv₃, ⟨rest, hout.symm⟩, by omega,
              (by simp), fun _ => ⟨by omega, .inr (hdown rfl)⟩⟩
        | true =>
            rw [hok.mp rfl, List.append_nil] at hout
            subst hout
            rw [if_neg (by simp), Nat.mod_eq_of_lt (by omega)]
            refine wp_mono hi₃ (ih hi₃ hx₃ (hr₁.online _) (by omega) (by omega) (by omega) (by omega) ?_)
              fun z s₄ _ h => ?_
            · rw [hsv₃.start]
              exact hst.trans hsv₃.script.length_le
            · obtain ⟨x₄, gout₄, data₄, fs₄, hx₄, hr₄, hsv₄, hpre, hlen, htrue, hfalse⟩ := h
              have hchop : chop voff (data ++ data₄) = chop voff data ++ chop (voff + chunk) data₄ := by
                rcases hal with hal | hal
                · have hnil : data₄ = [] := List.length_eq_zero_iff.mp (by omega)
                  simp [hnil]
                · rw [chop_append (by rwa [hdata]), hdata]
              refine ⟨x₄, data ++ gout₄, data ++ data₄, fs₄, hx₄, hr₄, ?_,
                (List.prefix_append_right_inj data).mpr hpre, ?_, fun h => ?_, fun h => ?_⟩
              · rw [hchop, List.map_append]
                exact hsv₃.merge hsv₄
              · rw [List.length_append]
                omega
              · obtain ⟨h1, h2, h3⟩ := htrue h
                exact ⟨by rw [h1], by rw [List.length_append]; omega, h3⟩
              · obtain ⟨h1, h2⟩ := hfalse h
                rw [List.length_append]
                exact ⟨by omega, h2⟩
      · simp only [ne_eq, he, not_false_eq_true, if_true]
        refine ⟨x₁, [], [], fs, hx₁, hr₁, by simpa using hl.served_nil, List.nil_prefix, by simp,
          (by simp), fun _ => ⟨by simpa using Nat.pos_of_ne_zero hz, .inl ?_⟩⟩
        exact fun h => he (hl.clean.mpr h)

/-! ## `handle_one` -/

/-- What a request has come to when its reply is sent. -/
structure Handled (cfg : Config) (md : Mode) (r : Req) (err : Err) (is : List (Item Disk Mut))
    (fs : List Fault) : Prop where
  verdict : err = if r.Oob cfg then .einval else verdict fs
  ok : md.Stores cfg → (r.cmd = .read → md.Reads cfg) → md.alloc = true → md.launch = true →
    ¬ r.Oob cfg → err = .ok
  tags : ∀ f ∈ fs, f.tag.req = 0 ∧ r.Touches f.tag.blk
  out : ∀ f ∈ fs, ∀ c m d, .put c ∈ is → c m d → m.blk ≠ f.tag.blk
  wrote : r.cmd = .write → err = .ok → r.data.length = r.len ∧
    ∀ p ∈ chop r.off r.data, Piece.wrote cfg md 0 p ∈ is
  effect : ∀ out, Effect cfg md ⟨r, err, out⟩ is

theorem Handled.oob {r : Req} {err : Err} {is : List (Item Disk Mut)} {fs : List Fault}
    (h : Handled cfg md r err is fs) (ho : r.Oob cfg) : err = .einval := by
  rw [h.verdict, if_pos ho]

/-- All faults of a single request are its own. -/
theorem Handled.faultsFor {r : Req} {err : Err} {is : List (Item Disk Mut)} {fs : List Fault}
    (h : Handled cfg md r err is fs) : faultsFor 0 fs = fs :=
  List.filter_eq_self.mpr fun f hf => decide_eq_true (h.tags f hf).1

/-- What is left of a WRITE at `off` of which `gin` was received, whatever became of the
connection: a bad range has changed nothing, and otherwise the whole windows were stored as far
as could be. -/
def Tried (cfg : Config) (md : Mode) (off len : ℕ) (gin : List UInt8) (is : List (Item Disk Mut))
    (fs : List Fault) : Prop :=
  ∃ data part sub err, gin = data ++ part ∧ Whole off len data ∧
    is = sub.map (Piece.wrote cfg md 0) ∧ (oob cfg off len ∧ sub = [] ∧ fs = [] ∨
      ¬ oob cfg off len ∧ StoredAs cfg md 0 (chop off data) sub err fs)

/-- Only the pieces of `sub` were put. -/
theorem blk_of_put {sub : List Piece} {c : Mut → Disk → Prop} {mu : Mut} {d : Disk}
    (hc : .put c ∈ sub.map (Piece.wrote cfg md i)) (hm : c mu d) :
    ∃ p ∈ sub, mu.blk = Piece.blk p := by
  obtain ⟨p, hp, heq⟩ := List.mem_map.mp hc
  cases heq
  exact ⟨p, hp, hm.2.1⟩

theorem StoredAs.handled {r : Req} {sub : List Piece} {err : Err} {fs : List Fault}
    (h : StoredAs cfg md 0 (chop r.off r.data) sub err fs) (hc : r.cmd = .write)
    (ho : ¬ r.Oob cfg) (hlen : r.data.length = r.len) :
    Handled cfg md r err (sub.map (Piece.wrote cfg md 0)) fs := by
  refine ⟨by rw [if_neg ho]; exact h.verdict, fun h1 _ h3 h4 _ => h.ok h1 h3 h4, fun f hf => ?_,
    fun f hf c mu d hput hmu => ?_, fun _ he => ⟨hlen, fun p hp => ?_⟩,
    fun _ => .wrote 0 sub ho hc h.sublist h.all⟩
  · obtain ⟨h1, p, hp, h2⟩ := h.tags f hf
    refine ⟨h1, ?_⟩
    rw [← h2, Req.Touches, ← hlen]
    exact blk_of_mem_chop hp
  · obtain ⟨p, hp, hb⟩ := blk_of_put hput hmu
    rw [hb]
    exact h.out f hf p hp
  · rw [h.all he]
    exact List.mem_map_of_mem hp

/-- A request that leaves the device alone. -/
theorem Handled.idle {r : Req} (hw : r.cmd = .write → r.Oob cfg) (ht : r.cmd = .trim → r.Oob cfg) :
    Handled cfg md r (if r.Oob cfg then .einval else .ok) [] [] := by
  refine ⟨by rw [verdict_ok.mpr rfl], fun _ _ _ _ h => if_neg h, by simp, by simp, fun hc he => ?_,
    fun _ => ?_⟩
  · rw [if_pos (hw hc)] at he
    cases he
  · by_cases hob : r.Oob cfg
    · exact .refused hob
    · exact .other (fun h => hob (hw h)) fun h => hob (ht h)

theorem sync_rest_spec (hi : Inv cfg md s) (hx : Loc cfg w x s) (hr : x.Rest md) :
    wp (contract cfg md) w sync (fun _ s' => Loc cfg w x s') s := by
  refine wp_mono hi (sync_spec hi hx) fun ok s' _ h => ?_
  have hslot : (fun sl => (x.slot sl).synced ok) = x.slot :=
    funext fun sl => SlotSt.synced_of_calm (hr.calm sl) ok
  rw [hslot] at h
  exact h.2

/-- The part of `handle_one` before the reply. -/
theorem handleBody_spec {h : Hdr} (hi : Inv cfg md s) (hx : Loc cfg w x s) (hr : x.Rest md)
    (hoff : h.from' < 2 ^ 64) :
    wp (contract cfg md) w (handleBody cfg h (if (h.req []).Oob cfg then .einval else .ok) m)
      (fun y s' => ∃ x' is fs, Loc cfg w x' s' ∧ x'.Rest md ∧ Served w x y.data [] is fs x' ∧
      (h.cmd = .write → Tried cfg md h.from' h.len y.data is fs) ∧
      (y.alive = true → y.data.length = h.payload ∧ Handled cfg md (h.req y.data) y.error is fs) ∧
      (y.alive = false → h.cmd = .write ∧ y.data.length < h.len)) s := by
  unfold handleBody
  cases hc : h.cmd with
  | write =>
      have hpay : h.payload = h.len := if_pos hc
      by_cases hob : (h.req []).Oob cfg
      · rw [if_pos hob]
        refine wp_mono hi (drain_spec hi hx hr le_rfl hoff (by simp) rfl) fun y s' _ hd => ?_
        obtain ⟨p', gin, hx', ht, hye, hyd, hle, hall⟩ := hd
        rw [List.nil_append] at hyd
        rw [← hyd] at ht hall hle
        refine ⟨_, [], [], hx', hr.online _, .of_talked ht, fun _ => ?_, fun ha => ⟨?_, ?_⟩,
          fun ha => ⟨rfl, ?_⟩⟩
        · exact ⟨[], _, [], .ok, rfl, .inl rfl, rfl, .inl ⟨hob.2, rfl, rfl⟩⟩
        · rw [hpay, hall.mp ha]
        · rw [show y.error = if (h.req y.data).Oob cfg then .einval else .ok from
            hye.trans (if_pos hob).symm]
          exact .idle (fun _ => hob) fun _ => hob
        · exact hle.lt_of_ne fun heq => by rw [hall.mpr heq] at ha; cases ha
      · have hno : ¬ oob cfg h.from' h.len := fun ho => hob ⟨.inr (.inl hc), ho⟩
        have hin : h.from' + h.len ≤ cfg.diskSize := by
          rw [oob_iff] at hno
          omega
        rw [if_neg hob]
        refine wp_mono hi (writeLoop_spec hi hx hr le_rfl hin rfl rfl) fun y s' _ hd => ?_
        obtain ⟨x', gin, part, sub, fs, hx', hr', hsv, hst, hyd, -, hwh, hall, hpart⟩ := hd
        rw [List.nil_append] at hyd
        rw [← hyd] at hsv hpart
        refine ⟨x', _, fs, hx', hr', hsv, fun _ => ⟨gin, part, sub, y.error, hyd, hwh, rfl,
          .inr ⟨hno, hst⟩⟩, fun ha => ?_, fun ha => ⟨rfl, hpart ha⟩⟩
        obtain ⟨rfl, hlen⟩ := hall ha
        rw [List.append_nil] at hyd
        rw [hyd, hpay]
        exact ⟨hlen, StoredAs.handled (r := h.req gin) hst hc hob hlen⟩
  | flush =>
      refine wp_seq hi (sync_rest_spec hi hx hr) fun _ s' _ hx' =>
        ⟨x, [], [], hx', hr, .refl, (by simp), fun _ => ⟨?_, ?_⟩, (by simp)⟩
      · simp [Hdr.payload, hc]
      · exact .idle (by simp [Hdr.req, hc]) (by simp [Hdr.req, hc])
  | trim =>
      by_cases hob : (h.req []).Oob cfg
      · rw [if_pos hob]
        refine ⟨x, [], [], hx, hr, .refl, (by simp), fun _ => ⟨?_, ?_⟩,
          (by simp)⟩
        · simp [Hdr.payload, hc]
        · have hidle : Handled cfg md (h.req []) (if (h.req []).Oob cfg then .einval else .ok) [] [] :=
            .idle (fun _ => hob) fun _ => hob
          rwa [if_pos hob] at hidle
      · rw [if_neg hob]
        refine wp_seq hi (trimRange_spec hi hx hr) fun _ s' _ hd => ?_
        obtain ⟨x', its, hx', hr', hdid, hits⟩ := hd
        refine ⟨x', its, [], hx', hr', .of_did hdid, (by simp), fun _ => ⟨?_, ?_⟩,
          (by simp)⟩
        · simp [Hdr.payload, hc]
        · exact ⟨by rw [if_neg hob, verdict_ok.mpr rfl], fun _ _ _ _ _ => rfl, by simp, by simp,
            by simp [Hdr.req, hc], fun _ => .trimmed its hob hc hits⟩
  | read | disc | other =>
      refine ⟨x, [], [], hx, hr, .refl, (by simp), fun _ => ⟨?_, ?_⟩,
        (by simp)⟩
      · simp [Hdr.payload, hc]
      · exact .idle (by simp [Hdr.req, hc]) (by simp [Hdr.req, hc])

/-- From `x` to `x'` the requests `ds` were carried out together; the error of each is the
verdict on the faults it has met. -/
structure Carried (cfg : Config) (md : Mode) (w : ℕ) (x : Local) (ds : List Done) (x' : Local) :
    Prop where
  script : ∃ is, Group cfg md ds is ∧ Script w x.log is x'.log
  errs : ∀ i (d : Done), ds[i]? = some d →
    d.err = if d.req.Oob cfg then .einval else verdict (x'.priv.faultsOf i)

/-- How `handle_one` gives up a connection after the header `h`, with `gin` received and `gout`
sent: the payload is incomplete; the reply is an `EIO`, or a send has failed; or a READ has sent
less than its range, as a block or a send has failed. -/
inductive CutOne (cfg : Config) (md : Mode) (w : ℕ) (x : Local) (h : Hdr) (gin gout : List UInt8)
    (x' : Local) : Prop
  | payload {is : List (Item Disk Mut)} : h.cmd = .write → gin.length < h.len → gout = [] →
      Script w x.log is x'.log → Tried cfg md h.from' h.len gin is x'.priv.faults →
      CutOne cfg md w x h gin gout x'
  | reply (d : Done) : d.req = h.req gin → gin.length = h.payload → Carried cfg md w x [d] x' →
      gout <+: d.reply → gout = d.reply ∧ d.err = .eio ∨ x'.priv.net.down = true →
      CutOne cfg md w x h gin gout x'
  | data (bs : List UInt8) : h.cmd = .read → gin = [] → ¬ (h.req []).Oob cfg →
      Script w x.log [.sees ((chop h.from' bs).map (Piece.saw cfg md))] x'.log →
      gout <+: respHdr .ok h.handle ++ bs → bs.length ≤ h.len →
      gout.length < (respHdr .ok h.handle).length + h.len →
      x'.priv.faults ≠ [] ∨ x'.priv.net.down = true → CutOne cfg md w x h gin gout x'

theorem Script.sees_intro {log log' : List Mut} {is : List (Item Disk Mut)}
    (h : Script w log is log') : Script w log (.sees [] :: is) log' := by
  obtain ⟨new, rfl, hlin⟩ := h
  exact ⟨new, rfl, [], new, rfl, Foreign.nil, by simp, hlin⟩

/-- One request is a group of its own. -/
theorem Group.one {d : Done} {is : List (Item Disk Mut)} (hd : d.Ok cfg md)
    (he : Effect cfg md d is) : Group cfg md [d] (.sees (d.saw cfg md) :: is) := by
  have hg : Group cfg md [d] (.sees ([d].flatMap (Done.saw cfg md)) :: [is].flatten) :=
    .intro (by simpa using hd) (fun _ => by simp [Apart]) (.cons he .nil) (by simp)
  simpa using hg

theorem errs_one {d : Done} {fs : List Fault}
    (h : d.err = if d.req.Oob cfg then .einval else verdict (faultsFor 0 fs)) :
    ∀ i (d' : Done), [d][i]? = some d' →
      d'.err = if d'.req.Oob cfg then .einval else verdict (faultsFor i fs) := by
  intro i d' hd
  cases i with
  | zero =>
      rw [List.getElem?_cons_zero, Option.some.injEq] at hd
      rwa [← hd]
  | succ i => simp at hd

/-- A request without data in its answer. -/
theorem Handled.carried {r : Req} {err : Err} {is : List (Item Disk Mut)} {fs : List Fault}
    (h : Handled cfg md r err is fs) (hs : Script w x.log is x'.log) (hf : x'.priv.faults = fs)
    (hr : r.cmd = .read → err ≠ .ok) : Carried cfg md w x [⟨r, err, []⟩] x' := by
  refine ⟨⟨_, Group.one ⟨?_, h.oob, h.ok⟩ (h.effect []), ?_⟩, ?_⟩
  · rw [if_neg fun hc => hr hc.1 hc.2]
    rfl
  · have hsaw : Done.saw cfg md ⟨r, err, []⟩ = [] := by simp [Done.saw]
    rw [hsaw]
    exact hs.sees_intro
  · refine errs_one ?_
    rw [hf, h.faultsFor]
    exact h.verdict

theorem oobAccess_spec {h : Hdr} (hi : Inv cfg md s) (hx : Loc cfg w x s) :
    wp (contract cfg md) w (oobAccess cfg h) (fun _ s' => Loc cfg w x s') s := by
  unfold oobAccess
  split
  · rename_i hc
    exact access_spec hi hx (Nat.le_of_not_lt hc.2)
  · exact hx

theorem countOne_spec {h : Hdr} (hi : Inv cfg md s) (hx : Loc cfg w x s) :
    wp (contract cfg md) w (countOne cfg h) (fun _ s' => Loc cfg w x s') s := by
  unfold countOne
  split
  · exact count_spec hi hx rfl
  · exact hx

/-- **`handle_one`.** -/
theorem handleOne_spec {h : Hdr} (hi : Inv cfg md s) (hx : Loc cfg w x s) (hr : x.Rest md)
    (hoff : h.from' < 2 ^ 64) :
    wp (contract cfg md) w (handleOne cfg h m) (fun r s' => ∃ x' gin gout, Loc cfg w x' s' ∧
      x'.Rest md ∧ Talked x.priv.net x'.priv.net gin gout ∧
      (h.cmd = .write → ∃ is, Script w x.log is x'.log ∧
        Tried cfg md h.from' h.len gin is x'.priv.faults) ∧
      (r.1 = true → gin.length = h.payload ∧ ∃ d, d.req = h.req gin ∧ Carried cfg md w x [d] x' ∧
        gout = d.reply ∧ d.err ≠ .eio) ∧
      (r.1 = false → CutOne cfg md w x h gin gout x')) s := by
  unfold handleOne
  refine wp_seq hi (begin_spec hi hx hr) fun _ s₁ hi₁ hb => ?_
  obtain ⟨new, hnew, -, hx₁⟩ := hb
  refine wp_seq hi₁ (countOne_spec hi₁ hx₁) fun _ s₂ hi₂ hx₂ => ?_
  refine wp_seq hi₂ (oobAccess_spec hi₂ hx₂) fun _ s₂ hi₂ hx₂ => ?_
  have hr₂ : Local.Rest md { x with
      log := x.log ++ new
      priv := { x.priv with
          start := (x.log ++ new).length, snap := fun _ => (x.log ++ new).length, faults := [] } } :=
    hr.after hr.locks hr.entry rfl rfl rfl hr.quiet (by simp)
  dsimp only
  refine wp_seq hi₂ (handleBody_spec hi₂ hx₂ hr₂ hoff) fun y s₃ hi₃ hb => ?_
  obtain ⟨x₃, is, fs, hx₃, hr₃, hsv, htried, halive, hdead⟩ := hb
  have hsc : Script w x.log is x₃.log := (Script.alien hnew).trans hsv.script
  have hfs : x₃.priv.faults = fs := by simpa using hsv.faults
  rw [← hfs] at htried
  have hwr : h.cmd = .write → ∃ is, Script w x.log is x₃.log ∧
      Tried cfg md h.from' h.len y.data is x₃.priv.faults := fun hc => ⟨is, hsc, htried hc⟩
  by_cases ha : y.alive = false
  · rw [if_pos ha]
    obtain ⟨h1, h2⟩ := hdead ha
    exact ⟨x₃, y.data, [], hx₃, hr₃, hsv.talked, hwr, (by simp),
      fun _ => .payload h1 h2 rfl hsc (htried h1)⟩
  rw [if_neg ha]
  obtain ⟨hlen, hh⟩ := halive (by simpa using ha)
  have hof : x₃.priv.faultsOf 0 = fs := by
    rw [← hh.faultsFor, ← hfs]
    rfl
  refine wp_seq hi₃ (reply_spec hi₃ hx₃ fun s' _ hx' => ?_) fun _ s₄ hi₄ hx₄ => ?_
  · refine hsv.script.replyOk hx' hr₃ hsv.start (by rw [hof]; exact hh.verdict) (fun f hf => ?_)
      (fun f hf c mu d hc hcm _ => ?_) fun hc he => hh.wrote hc he
    · rw [hof] at hf
      exact (hh.tags f hf).2
    · rw [hof] at hf
      exact hh.out f hf c mu d hc hcm
  refine wp_seq hi₄ (sendAll_spec hi₄ hx₄ hr₃) fun ok s₅ hi₅ hs => ?_
  obtain ⟨p₅, gout, rest, hx₅, ht₅, hout, hok, hdown⟩ := hs
  have ht : Talked x.priv.net p₅ y.data gout := by simpa using hsv.talked.trans ht₅
  -- an answer without data, as far as it was sent
  have hplain : (h.cmd = .read → y.error ≠ .ok) →
      Carried cfg md w x [⟨h.req y.data, y.error, []⟩] (x₃.online p₅) := fun hrd =>
    hh.carried hsc hfs hrd
  have hreply : Done.reply ⟨h.req y.data, y.error, []⟩ = gout ++ rest := by
    rw [← hout, Done.reply, List.append_nil]
    rfl
  -- a READ that succeeds so far
  have hread : h.cmd = .read → y.error = .ok → y.data = [] ∧ is = [] ∧ fs = [] ∧
      ¬ (h.req []).Oob cfg := by
    intro hrd hne
    have hnw : h.cmd ≠ .write := by simp [hrd]
    have hob : ¬ (h.req []).Oob cfg := fun hob => by
      rw [hh.oob hob] at hne
      cases hne
    have hv : y.error = verdict fs := hh.verdict.trans (if_neg hob)
    rw [hne] at hv
    exact ⟨List.length_eq_zero_iff.mp (by rw [hlen]; exact if_neg hnw),
      (hh.effect []).nil_of_read hrd, verdict_ok.mp hv.symm, hob⟩
  cases ok with
  | false =>
      rw [if_pos rfl]
      refine ⟨_, y.data, gout, hx₅, hr₃.online _, ht, hwr, (by simp), fun _ => ?_⟩
      have hne : rest ≠ [] := fun h => absurd (hok.mpr h) (by simp)
      by_cases hrd : h.cmd = .read ∧ y.error = .ok
      · obtain ⟨h1, h2, -, h4⟩ := hread hrd.1 hrd.2
        rw [hrd.2] at hout
        rw [h2] at hsc
        refine .data [] hrd.1 h1 h4 (by rw [chop_nil]; exact hsc.sees_intro) ⟨rest, ?_⟩ (by simp) ?_
          (.inr (hdown rfl))
        · rw [List.append_nil, ← hout]
        · have := List.length_pos_of_ne_nil hne
          rw [hout, List.length_append]
          omega
      · exact .reply _ rfl hlen (hplain fun h1 h2 => hrd ⟨h1, h2⟩) ⟨rest, hreply.symm⟩
          (.inr (hdown rfl))
  | true =>
      rw [if_neg (by simp)]
      obtain rfl := hok.mp rfl
      rw [List.append_nil] at hreply hout
      by_cases heio : y.error = .eio
      · rw [if_pos heio]
        exact ⟨_, y.data, gout, hx₅, hr₃.online _, ht, hwr, (by simp), fun _ =>
          .reply _ rfl hlen (hplain fun _ => by simp [heio]) (by rw [hreply])
            (.inl ⟨hreply.symm, heio⟩)⟩
      rw [if_neg heio]
      by_cases hne : y.error ≠ .ok
      · rw [if_pos hne]
        exact ⟨_, y.data, gout, hx₅, hr₃.online _, ht, hwr, fun _ => ⟨hlen, _, rfl, hplain fun _ => hne,
          hreply.symm, heio⟩, (by simp)⟩
      rw [if_neg hne]
      rw [not_not] at hne
      by_cases hrd : h.cmd = .read
      · rw [if_pos hrd]
        have hnw : h.cmd ≠ .write := by simp [hrd]
        obtain ⟨hnil, his, hfn, hob⟩ := hread hrd hne
        have hin : h.from' + h.len ≤ cfg.diskSize := by
          by_contra hlt
          exact hob ⟨.inl hrd, oob_iff.mpr (by simp only [Hdr.req]; omega)⟩
        have hst : x₃.priv.start ≤ x₃.log.length := by
          rw [hsv.start]
          exact hsv.script.length_le
        refine wp_mono hi₅ (readLoop_spec (r := h.req []) hi₅ hx₅ (hr₃.online _) le_rfl hin le_rfl
          (by simp [Hdr.req]) hst) fun z s₆ _ hz => ?_
        obtain ⟨x₆, gout₆, data, fs₆, hx₆, hr₆, hsv₆, hpre, hdl, htrue, hfalse⟩ := hz
        rw [his] at hsc
        have hsc₆ := hsc.trans hsv₆.script
        rw [List.nil_append] at hsc₆
        rw [hne] at hout
        refine ⟨x₆, y.data, gout ++ gout₆, hx₆, hr₆, by simpa using ht.trans hsv₆.talked,
          fun hw => absurd hw hnw, fun hz => ⟨hlen, ?_⟩, fun hz => ?_⟩
        · obtain ⟨rfl, h2, rfl⟩ := htrue hz
          refine ⟨⟨h.req y.data, .ok, gout₆⟩, rfl, ⟨⟨_, @Group.one cfg md _ []
            ⟨?_, fun h => absurd h hob, fun _ _ _ _ _ => rfl⟩ (.other hnw (by simp [Hdr.req, hrd])), ?_⟩,
            errs_one ?_⟩, ?_, by simp⟩
          · rw [if_pos ⟨hrd, rfl⟩]
            exact h2
          · have hsaw : Done.saw cfg md ⟨h.req y.data, .ok, gout₆⟩ =
                (chop h.from' gout₆).map (Piece.saw cfg md) := if_pos hrd
            rw [hsaw]
            exact hsc₆
          · have hnone : x₆.priv.faults = [] := by
              rw [hsv₆.faults]
              exact hfs.trans hfn
            rw [hnone]
            exact (if_neg hob).symm
          · rw [← hout]
            rfl
        · obtain ⟨hlt, hwhy⟩ := hfalse hz
          refine .data data hrd hnil hob hsc₆ ?_ hdl ?_ ?_
          · rw [hout]
            exact (List.prefix_append_right_inj gout).mpr hpre
          · rw [hout, List.length_append]
            exact Nat.add_lt_add_left hlt _
          · rw [hsv₆.faults]
            exact hwhy.imp_left fun h => by simp [h]
      · rw [if_neg hrd]
        exact ⟨_, y.data, gout, hx₅, hr₃.online _, ht, hwr, fun _ => ⟨hlen, _, rfl,
          hplain fun h => absurd h hrd, hreply.symm, heio⟩, (by simp)⟩

end NbdVram
