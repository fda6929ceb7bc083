import NbdVram.Alone
import NbdVram.Between
import NbdVram.Copies

/-!
# The device is a flat array

One client on one connection, and nothing fails. Then whichever way its requests
are cut into batches, and whichever path and codec serve them, the client gets the
answers of the flat array, request by request, from the array as the device showed
it when the client came.
-/

namespace NbdVram

open Interleave Span MutationLog

variable {cfg : Config} {md : Mode} {w : ℕ} {x x' x₀ : Local} {D : Disk} {hs : List Hap}
  {rs rs' : List Req} {ds : List Done} {raw rest gin gout : List UInt8}

/-! ## One step of a connection -/

/-- The mode in which nothing fails, only worker `w` has a client, and no READ is batched behind a
WRITE to an overlapping block. -/
def Mode.flat (w : ℕ) : Mode :=
  { Mode.any with
    sync := true
    launch := true
    batch := true
    alloc := true
    apart := true
    solo := some w }

/-- What a mode has to promise for this. -/
structure Mode.Serves (cfg : Config) (md : Mode) : Prop where
  reads : md.Reads cfg
  alloc : md.alloc = true
  launch : md.launch = true
  apart : md.apart = true

/-- A group of requests is answered like the array answers them in order. -/
theorem Carried.flat (h : Carried cfg md w x ds x') (hm : md.Serves cfg)
    (hd : ∀ r ∈ ds.map Done.req, r.cmd = .write → r.data.length = r.len)
    (hown : ∀ m ∈ x'.log, m.who = w) :
    ds = NbdVram.flat cfg (disk x.log) (ds.map Done.req) ∧
      disk x'.log = applyReqs cfg (disk x.log) (ds.map Done.req) := by
  obtain ⟨is, hg, hsc⟩ := h.script
  have hseq := hsc.seq fun m hmem => hown m (List.mem_of_mem_drop hmem)
  obtain ⟨h1, h2⟩ := hg.flat hm.reads hm.alloc hm.launch hseq
  refine ⟨h1.trans ?_, h2⟩
  cases hg with
  | intro _ hap _ hrw =>
      refine (hap hm.apart).flat hd ?_
      rw [List.length_map]
      rcases Nat.lt_or_ge 1 ds.length with hlt | hge
      · right
        intro r hr
        obtain ⟨d, hd, rfl⟩ := List.mem_map.mp hr
        exact hrw hlt d hd
      · exact .inl hge

/-! ## A whole connection -/

/-- Between two requests: those received are `rs`, and the array `D` has answered them. -/
structure Mirrors (cfg : Config) (D : Disk) (x : Local) (rs : List Req) : Prop where
  frames : Frames x.priv.net.got rs
  out : x.priv.net.out = (flat cfg D rs).flatMap Done.reply
  disk : disk x.log = applyReqs cfg D rs

/-- What was sent is what the array `D` answers to the requests received, as far as it goes. -/
def Told (cfg : Config) (D : Disk) (p : Net) : Prop :=
  p.out <+: (flat cfg D (parse p.got).1).flatMap Done.reply

theorem Mirrors.group (h : Mirrors cfg D x rs) (hc : Carried cfg md w x ds x') (hm : md.Serves cfg)
    (hf : Frames raw (ds.map Done.req)) (hown : ∀ m ∈ x'.log, m.who = w)
    (htk : Talked x.priv.net x'.priv.net raw (ds.flatMap Done.reply)) :
    Mirrors cfg D x' (rs ++ ds.map Done.req) := by
  obtain ⟨h1, h2⟩ := hc.flat hm hf.data hown
  refine ⟨?_, ?_, ?_⟩
  · rw [htk.got]
    exact h.frames.append hf
  · rw [htk.out, h.out, flat_append, List.flatMap_append, ← h.disk, ← h1]
  · rw [h2, h.disk, applyReqs_append]

/-- A connection may stop within the answers to the requests `rs'`. -/
theorem Mirrors.told {p : Net} (h : Mirrors cfg D x rs) (hf : Frames raw rs')
    (htk : Talked x.priv.net p (raw ++ rest) gout)
    (hout : gout <+: (flat cfg (NbdVram.disk x.log) rs').flatMap Done.reply) : Told cfg D p := by
  have hparse : (parse p.got).1 = rs ++ (rs' ++ (parse rest).1) := by
    rw [htk.got, h.frames.parse, hf.parse]
  rw [Told, hparse, htk.out, h.out, flat_append, flat_append, List.flatMap_append,
    List.flatMap_append, ← h.disk, List.prefix_append_right_inj]
  exact hout.trans (List.prefix_append _ _)

/-- What a mutation log has in front of what a script adds. -/
theorem Script.own {log log' : List Mut} {is : List (Item Disk Mut)} (h : Script w log is log')
    (hown : ∀ m ∈ log', m.who = w) : ∀ m ∈ log, m.who = w := by
  obtain ⟨new, rfl, -⟩ := h
  exact fun m hm => hown m (List.mem_append_left _ hm)

/-- A READ whose data breaks off has sent a part of the answer. -/
theorem Mirrors.told_data {h : Hdr} {p : Net} {bs : List UInt8} (hM : Mirrors cfg D x rs)
    (hm : md.Serves cfg) (hown : ∀ m ∈ x'.log, m.who = w) (hf : Frame raw (h.req []))
    (htk : Talked x.priv.net p raw gout) (hc : h.cmd = .read) (ho : ¬ (h.req []).Oob cfg)
    (hsc : Script w x.log [.sees ((chop h.from' bs).map (Piece.saw cfg md))] x'.log)
    (hpre : gout <+: respHdr .ok h.handle ++ bs) (hlen : bs.length ≤ h.len) : Told cfg D p := by
  obtain ⟨hsaw, -⟩ := hsc.seq fun m hmem => hown m (List.mem_of_mem_drop hmem)
  have hbs : slice (NbdVram.disk x.log) h.from' bs.length = bs :=
    slice_of_chop fun q hq => hsaw _ (List.mem_map_of_mem hq) hm.reads
  have hans : flat cfg (NbdVram.disk x.log) [h.req []] =
      [⟨h.req [], .ok, slice (NbdVram.disk x.log) h.from' h.len⟩] := by
    rw [flat, flat, Req.answer, if_neg ho, if_pos ⟨hc, ho⟩]
    rfl
  have htk' : Talked x.priv.net p (raw ++ []) gout := by rwa [List.append_nil]
  refine hM.told (Frames.one hf) htk' ?_
  rw [hans, List.flatMap_singleton, Done.reply]
  refine hpre.trans ((List.prefix_append_right_inj _).mpr ?_)
  have htake : (slice (NbdVram.disk x.log) h.from' h.len).take bs.length = bs := by
    rw [take_slice hlen, hbs]
  rw [← htake]
  exact List.take_prefix _ _

/-- Where a connection is given up, a part of the answers was sent. -/
theorem Mirrors.cut (h : Mirrors cfg D x rs) (hm : md.Serves cfg) (hown : ∀ m ∈ x'.log, m.who = w)
    (htk : Talked x.priv.net x'.priv.net gin gout) (hc : Cut cfg md w x gin gout x') :
    Told cfg D x'.priv.net := by
  cases hc with
  | silent hg hf _ hout _ =>
      subst hg hout
      exact h.told hf htk List.nil_prefix
  | @one hb gin' hg hlen hmg hd hone =>
      subst hg
      cases hone with
      | payload _ _ hout _ _ =>
          subst hout
          exact h.told .nil (by rwa [List.nil_append]) List.nil_prefix
      | reply d hreq hl hcar hpre _ =>
          have hf : Frame (hb ++ gin') d.req := hreq ▸ Frame.intro hlen hmg hd hl
          obtain ⟨h1, -⟩ := hcar.flat hm (Frames.one hf).data hown
          have htk' : Talked x.priv.net x'.priv.net (hb ++ gin' ++ []) gout := by
            rwa [List.append_nil]
          refine h.told (Frames.one hf) htk' ?_
          rw [show [d.req] = [d].map Done.req from rfl, ← h1, List.flatMap_singleton]
          exact hpre
      | data bs hcmd hnil ho hsc hpre hle _ _ =>
          subst hnil
          have hf : Frame (hb ++ []) ((parseHdr hb).req []) :=
            Frame.intro hlen hmg hd (by rw [Hdr.payload, hcmd]; rfl)
          exact h.told_data hm hown hf htk hcmd ho hsc hpre hle
  | batch ds hg _ hf hcar hpre _ =>
      subst hg
      obtain ⟨h1, -⟩ := hcar.flat hm hf.data hown
      rw [h1] at hpre
      exact h.told hf htk hpre

theorem Cut.own (hc : Cut cfg md w x gin gout x') (hown : ∀ m ∈ x'.log, m.who = w) :
    ∀ m ∈ x.log, m.who = w := by
  cases hc with
  | silent _ _ _ _ hlog => rwa [← hlog]
  | one _ _ _ _ hone =>
      cases hone with
      | payload _ _ _ hsc _ => exact hsc.own hown
      | reply _ _ _ hcar _ _ =>
          obtain ⟨is, -, hsc⟩ := hcar.script
          exact hsc.own hown
      | data _ _ _ _ hsc _ _ _ _ => exact hsc.own hown
  | batch _ _ _ _ hcar _ _ =>
      obtain ⟨is, -, hsc⟩ := hcar.script
      exact hsc.own hown

/-- A connection that was not given up: all requests received have been answered by the array `D`,
and it shows what the device shows. -/
structure Heard (cfg : Config) (D : Disk) (x : Local) : Prop where
  out : x.priv.net.out = (flat cfg D (parse x.priv.net.got).1).flatMap Done.reply
  disk : disk x.log = applyReqs cfg D (parse x.priv.net.got).1

/-- Behind the requests there is nothing, or a header that is not answered. -/
theorem Mirrors.heard (h : Mirrors cfg D x rs) {p : Net} (htk : Talked x.priv.net p rest [])
    (hrest : (parse rest).1 = []) : Heard cfg D (x.online p) := by
  have hparse : (parse (x.online p).priv.net.got).1 = rs := by
    rw [online_net, htk.got, h.frames.parse, hrest, List.append_nil]
  refine ⟨?_, ?_⟩
  · rw [hparse, online_net, htk.out, List.append_nil, h.out]
  · rw [hparse]
    exact h.disk

/-- The first connection of a worker: before it nothing has happened, between its requests the array
mirrors the device, and at any time a part of the array's answers was sent. -/
structure First (cfg : Config) (x₀ : Local) (hs : List Hap) (x : Local) : Prop where
  conn : x₀.priv.net.conn ≤ x.priv.net.conn
  before : x.priv.net.conn = x₀.priv.net.conn → hs.foldl Hap.open false = false ∧ x.log = x₀.log
  mirrors : x.priv.net.conn = x₀.priv.net.conn + 1 → hs.foldl Hap.open false = true →
    ∃ rs, Mirrors cfg (disk x₀.log) x rs
  heard : x.priv.net.conn = x₀.priv.net.conn + 1 → (∀ hs', hs ≠ hs' ++ [.cut]) →
    Heard cfg (disk x₀.log) x
  told : x.priv.net.conn = x₀.priv.net.conn + 1 → Told cfg (disk x₀.log) x.priv.net

theorem Heard.told (h : Heard cfg D x) : Told cfg D x.priv.net := by
  rw [Told, h.out]

theorem Mirrors.rests (h : Mirrors cfg D x rs) : Heard cfg D x :=
  h.heard Talked.refl (congrArg Prod.fst parse_nil)

theorem Trace.first (h : Trace cfg md w false x₀ hs x) (hm : md.Serves cfg)
    (hown : ∀ m ∈ x.log, m.who = w) : First cfg x₀ hs x := by
  induction h with
  | nil =>
      refine ⟨le_rfl, fun _ => ⟨rfl, rfl⟩, fun hk => ?_, fun hk => ?_, fun hk => ?_⟩ <;> omega
  | @accept hs x inp eof _ ih =>
      have ih := ih hown
      have hle := ih.conn
      have hM : x.priv.net.conn + 1 = x₀.priv.net.conn + 1 → Mirrors cfg (disk x₀.log)
          { x with priv := { x.priv with
            net := ⟨inp, eof, [], [], x.priv.net.conn + 1, false⟩, faults := [] } } [] := by
        intro hk
        refine ⟨.nil, rfl, ?_⟩
        show disk x.log = _
        rw [(ih.before (Nat.succ.inj hk)).2]
        rfl
      refine ⟨Nat.le_succ_of_le hle, fun hk => ?_, fun hk _ => ⟨[], hM hk⟩,
        fun hk _ => (hM hk).rests, fun hk => (hM hk).rests.told⟩
      replace hk : x.priv.net.conn + 1 = x₀.priv.net.conn := hk
      omega
  | @group hs x x' raw ds ht hon hf hc _ htk ih =>
      obtain ⟨is, -, hsc⟩ := hc.script
      have ih := ih (hsc.own hown)
      have hM : x'.priv.net.conn = x₀.priv.net.conn + 1 →
          ∃ rs, Mirrors cfg (disk x₀.log) x' rs := by
        intro hk
        obtain ⟨rs, hM⟩ := ih.mirrors (htk.conn ▸ hk) hon
        exact ⟨_, hM.group hc hm hf hown htk⟩
      refine ⟨htk.conn ▸ ih.conn, fun hk => ?_, fun hk _ => hM hk, fun hk _ => ?_, fun hk => ?_⟩
      · rw [(ih.before (htk.conn ▸ hk)).1] at hon
        cases hon
      · obtain ⟨rs, hM⟩ := hM hk
        exact hM.rests
      · obtain ⟨rs, hM⟩ := hM hk
        exact hM.rests.told
  | @disc hs x p raw ht hon hd htk ih =>
      have ih := ih hown
      have hconn : (x.online p).priv.net.conn = x.priv.net.conn := by rw [online_net, htk.conn]
      have hH : x.priv.net.conn = x₀.priv.net.conn + 1 → Heard cfg (disk x₀.log) (x.online p) := by
        intro hk
        obtain ⟨rs, hM⟩ := ih.mirrors hk hon
        refine hM.heard htk ?_
        rw [hd.parse]
      refine ⟨hconn ▸ ih.conn, fun hk => ?_, fun _ ho => ?_, fun hk _ => hH (hconn ▸ hk),
        fun hk => (hH (hconn ▸ hk)).told⟩
      · rw [(ih.before (hconn ▸ hk)).1] at hon
        cases hon
      · rw [List.foldl_append] at ho
        cases ho
  | @cut hs x x' gin gout ht hon htk hc ih =>
      have ih := ih (hc.own hown)
      refine ⟨htk.conn ▸ ih.conn, fun hk => ?_, fun _ ho => ?_, fun _ hno => absurd rfl (hno hs),
        fun hk => ?_⟩
      · rw [(ih.before (htk.conn ▸ hk)).1] at hon
        cases hon
      · rw [List.foldl_append] at ho
        cases ho
      · obtain ⟨rs, hM⟩ := ih.mirrors (htk.conn ▸ hk) hon
        exact hM.cut hm hown htk hc

/-! ## The device -/

/-- What the worker `w` of a daemon that has just started has gone through. -/
theorem Daemon.Run.first {S₀ S : Daemon cfg} (hcodec : cfg.codec.RoundTrip)
    (h0 : Daemon.Initial cfg S₀) (hrun : Daemon.Run cfg (.flat w) S₀ S) {ph : Phase}
    (hw : S.prog w = .ret ph) : ∃ hs x, First cfg (S₀.st.known cfg w) hs x ∧
      x.priv = S.st.priv w ∧ x.log = S.st.log ∧ Phase.Fits (S₀.phase w) hs ph := by
  have hserves : (Mode.flat w).Serves cfg :=
    ⟨⟨⟨rfl, hcodec⟩, .inr (Option.some_ne_none w)⟩, rfl, rfl, rfl⟩
  have hbase : Safe (contract cfg (.flat w)) (Post cfg (.flat w) (S₀.st.known cfg) S₀.phase) S₀ :=
    h0.safe rfl
  have hsafe := hbase.run (Daemon.rounds cfg _ _ _) hrun
  obtain ⟨hs, x, hx, -, ht, hfit⟩ := hsafe.post hw
  have hstart : (S₀.phase w).open = false := by
    rcases h0.2 w with hq | ⟨m, hq⟩ <;> rw [Daemon.phase_eq hq] <;> rfl
  rw [hstart] at ht
  have hlog : S.st.log = x.log := hx.log_eq hsafe.1 rfl (Nat.zero_le _)
  have hown : ∀ m ∈ x.log, m.who = w := fun m hm => hsafe.1.solo w rfl m (hlog ▸ hm)
  exact ⟨hs, x, ht.first hserves hown, hx.priv.symm, hlog.symm, hfit⟩

/-- The array is the same for every heap, codec and batch depth. -/
theorem Req.oob_congr {cfg' : Config} (h : cfg'.diskSize = cfg.diskSize) (r : Req) :
    r.Oob cfg' ↔ r.Oob cfg := by
  rw [Req.Oob, Req.Oob, oob, oob, h]

theorem Req.apply_congr {cfg' : Config} (h : cfg'.diskSize = cfg.diskSize) (r : Req) :
    r.apply cfg' = r.apply cfg := by
  funext D
  simp only [Req.apply, Req.oob_congr h]

theorem applyReqs_congr {cfg' : Config} (h : cfg'.diskSize = cfg.diskSize) (D : Disk) (rs : List Req) :
    applyReqs cfg' D rs = applyReqs cfg D rs := by
  induction rs generalizing D with
  | nil => rfl
  | cons r rs ih =>
      rw [applyReqs, applyReqs, List.foldl_cons, List.foldl_cons, Req.apply_congr h]
      exact ih _

theorem flat_congr {cfg' : Config} (h : cfg'.diskSize = cfg.diskSize) (D : Disk) (rs : List Req) :
    flat cfg' D rs = flat cfg D rs := by
  induction rs generalizing D with
  | nil => rfl
  | cons r rs ih =>
      rw [flat, flat, ih, Req.apply_congr h]
      simp only [Req.answer, Req.oob_congr h]

theorem Daemon.Run.flat {S₀ S : Daemon cfg} (hcodec : cfg.codec.RoundTrip)
    (h0 : Daemon.Initial cfg S₀) (hrun : Daemon.Run cfg (.flat w) S₀ S) {ph : Phase}
    (hw : S.prog w = .ret ph) (hk : (S.st.priv w).net.conn = (S₀.st.priv w).net.conn + 1) :
    Told cfg (fun _ => 0) (S.st.priv w).net ∧
    (ph.Kept → (S.st.priv w).net.out =
        (NbdVram.flat cfg (fun _ => 0) (parse (S.st.priv w).net.got).1).flatMap Done.reply ∧
      S.st.bytes cfg = applyReqs cfg (fun _ => 0) (parse (S.st.priv w).net.got).1) := by
  obtain ⟨hs, x, hf, hx, hlog, hfit⟩ := hrun.first hcodec h0 hw
  have hinv : Inv cfg (.flat w) S.st := Daemon.Reachable.inv ⟨S₀, h0, hrun⟩ rfl
  have hzero : disk (S₀.st.known cfg w).log = fun _ => 0 := by
    show disk S₀.st.log = _
    rw [h0.1.log]
    rfl
  have hconn : x.priv.net.conn = (S₀.st.known cfg w).priv.net.conn + 1 := by rw [hx]; exact hk
  refine ⟨?_, fun hkept => ?_⟩
  · have htold := hf.told hconn
    rwa [hzero, hx] at htold
  · have hheard := hf.heard hconn (hfit.not_cut hkept)
    rw [hzero] at hheard
    refine ⟨?_, ?_⟩
    · rw [← hx]
      exact hheard.out
    · rw [hinv.bytes, ← hlog, ← hx]
      exact hheard.disk

end NbdVram
