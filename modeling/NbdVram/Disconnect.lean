import NbdVram.Device

/-!
# When a connection breaks

A connection can break in a header, in a payload, while a batch is being gathered, between two
replies or within one. The requests that were received are executed group by group, in order, and
a group is executed as a whole: what is left on the device is what the groups make of it, whether
their answers have come through or not, and nothing of a batch that was still being gathered. Only a
WRITE whose payload breaks off is executed in part, and that part ends where a block ends.
-/

namespace NbdVram

open Interleave Span MutationLog

variable {cfg : Config} {md : Mode} {w k : ℕ} {x x' x₀ : Local} {D D' : Disk} {hs : List Hap}
  {rs : List Req} {ds : List Done} {raw rest gin gout g : List UInt8} {gs : List (List Req)}

/-- The mode in which nothing fails and only worker `w` has a client. -/
def Mode.single (w : ℕ) : Mode :=
  { Mode.any with
    sync := true
    launch := true
    batch := true
    alloc := true
    solo := some w }

/-- What a mode has to promise for this. -/
structure Mode.Flawless (cfg : Config) (md : Mode) : Prop where
  reads : md.Reads cfg
  alloc : md.alloc = true
  launch : md.launch = true

/-! ## Groups -/

/-- The answers of the array to requests that come in groups: the READs of a group are answered
before its mutations. -/
def grouped (cfg : Config) : Disk → List (List Req) → List Done
  | _, [] => []
  | D, rs :: gs => rs.map (Req.answer cfg D) ++ grouped cfg (applyReqs cfg D rs) gs

theorem grouped_concat : grouped cfg D (gs ++ [rs]) =
    grouped cfg D gs ++ rs.map (Req.answer cfg (applyReqs cfg D gs.flatten)) := by
  induction gs generalizing D with
  | nil => simp [grouped, applyReqs]
  | cons rs' gs ih =>
      rw [List.cons_append, grouped, grouped, ih, List.append_assoc, List.flatten_cons,
        applyReqs_append]

/-- What is known of the requests of a group. -/
structure Together (md : Mode) (rs : List Req) : Prop where
  apart : md.apart = true → Apart rs
  plain : rs.length ≤ 1 ∨ ∀ r ∈ rs, r.cmd = .read ∨ r.cmd = .write
  data : ∀ r ∈ rs, r.cmd = .write → r.data.length = r.len

theorem Carried.together (h : Carried cfg md w x ds x') (hf : Frames raw (ds.map Done.req)) :
    Together md (ds.map Done.req) := by
  obtain ⟨is, hg, -⟩ := h.script
  cases hg with
  | intro _ hap _ hrw =>
      refine ⟨hap, ?_, hf.data⟩
      rw [List.length_map]
      rcases Nat.lt_or_ge 1 ds.length with hlt | hge
      · right
        intro r hr
        obtain ⟨d, hd, rfl⟩ := List.mem_map.mp hr
        exact hrw hlt d hd
      · exact .inl hge

theorem Together.one {r : Req} (hf : Frames raw [r]) : Together md [r] :=
  ⟨fun _ => List.pairwise_singleton _ r, .inl le_rfl, hf.data⟩

/-- Where no READ is grouped behind a WRITE to its blocks, the grouping makes no difference. -/
theorem grouped_flat (hap : md.apart = true) (h : ∀ g ∈ gs, Together md g) :
    grouped cfg D gs = flat cfg D gs.flatten := by
  induction gs generalizing D with
  | nil => rfl
  | cons rs gs ih =>
      have hrs := h rs List.mem_cons_self
      rw [grouped, List.flatten_cons, flat_append, (hrs.apart hap).flat hrs.data hrs.plain,
        ih fun g hg => h g (List.mem_cons_of_mem _ hg)]

/-- A group that was carried out is a group of the array. -/
theorem Carried.grouped (h : Carried cfg md w x ds x') (hm : md.Flawless cfg)
    (hown : ∀ m ∈ x'.log, m.who = w) :
    ds = (ds.map Done.req).map (Req.answer cfg (disk x.log)) ∧
      disk x'.log = applyReqs cfg (disk x.log) (ds.map Done.req) := by
  obtain ⟨is, hg, hsc⟩ := h.script
  exact hg.flat hm.reads hm.alloc hm.launch (hsc.seq fun m hm => hown m (List.mem_of_mem_drop hm))

/-! ## A WRITE that breaks off -/

/-- The WRITE in whose payload a byte stream ends, with what there is of the payload. -/
def torn (rest : List UInt8) : Option Req :=
  let h := parseHdr (rest.take 28)
  if 28 ≤ rest.length ∧ h.magic = requestMagic ∧ h.cmd = .write then some (h.req (rest.drop 28))
  else none

theorem torn_intro {hb data : List UInt8} (h1 : hb.length = 28)
    (h2 : (parseHdr hb).magic = requestMagic) (h3 : (parseHdr hb).cmd = .write) :
    torn (hb ++ data) = some ((parseHdr hb).req data) := by
  have ht : (hb ++ data).take 28 = hb := List.take_left' h1
  have hd : (hb ++ data).drop 28 = data := List.drop_left' h1
  have hlen : 28 ≤ (hb ++ data).length := by
    rw [List.length_append]
    omega
  rw [torn, ht, hd, if_pos ⟨hlen, h2, h3⟩]

/-- The array with the first `k` bytes of this WRITE. -/
def leave (t : Option Req) (k : ℕ) (D : Disk) : Disk :=
  match t with
  | none => D
  | some r => splice D r.off (r.data.take k)

@[simp] theorem leave_zero (t : Option Req) : leave t 0 D = D := by
  cases t with
  | none => rfl
  | some r => rw [leave, List.take_zero, splice_nil]

/-- Of a WRITE that breaks off whole windows are stored, and a window ends where a block ends. -/
theorem Tried.left {h : Hdr} {is : List (Item Disk Mut)} {fs : List Fault}
    (ht : Tried cfg md h.from' h.len gin is fs) (hlt : gin.length < h.len)
    (hseq : Seq Mut.who Mut.app w D is D') (hm : md.Flawless cfg) :
    ∃ k, D' = leave (some (h.req gin)) k D ∧
      (k = 0 ∨ ¬ (h.req gin).Oob cfg ∧ k ≤ gin.length ∧ 4096 ∣ h.from' + k) := by
  obtain ⟨data, part, sub, err, rfl, hwh, rfl, hst⟩ := ht
  have hD := seq_pieces hm.reads.1 hseq
  rcases hst with ⟨-, rfl, -⟩ | ⟨ho, hst⟩
  · exact ⟨0, by rw [leave_zero, hD]; rfl, .inl rfl⟩
  · obtain rfl := hst.all (hst.ok hm.reads.1 hm.alloc hm.launch)
    refine ⟨data.length, ?_, ?_⟩
    · rw [hD, overlay_chop, leave]
      show _ = splice D h.from' ((data ++ part).take data.length)
      rw [List.take_left]
    · rw [List.length_append] at hlt ⊢
      rcases hwh with rfl | heq | hdvd
      · exact .inl rfl
      · omega
      · exact .inr ⟨fun hob => ho hob.2, Nat.le_add_right _ _, hdvd⟩

theorem Req.apply_read {r : Req} (hc : r.cmd = .read) : r.apply cfg D = D := by
  rw [Req.apply, hc]
  split <;> rfl

/-- A READ whose data breaks off has sent a part of the answer. -/
theorem Req.answer_prefix {r : Req} {bs : List UInt8} (hc : r.cmd = .read) (ho : ¬ r.Oob cfg)
    (hbs : slice D r.off bs.length = bs) (hlen : bs.length ≤ r.len)
    (h : gout <+: respHdr .ok r.handle ++ bs) : gout <+: (r.answer cfg D).reply := by
  rw [Req.answer, if_neg ho, if_pos ⟨hc, ho⟩, Done.reply]
  refine h.trans ((List.prefix_append_right_inj _).mpr ?_)
  rw [← hbs, ← take_slice hlen]
  exact List.take_prefix _ _

/-! ## How a connection ends -/

/-- What a connection that found the array `D` and has received `gin` has sent and left: the groups
`gs` were executed and all but the last of them answered, the requests `idle` were not executed, and
of a WRITE that broke off `k` bytes are stored. -/
structure Parted (cfg : Config) (md : Mode) (D D' : Disk) (gin gout : List UInt8) (gs : List (List Req))
    (idle : List Req) (k : ℕ) : Prop where
  together : ∀ g ∈ gs, Together md g
  received : (parse gin).1 = gs.flatten ++ idle
  sent : gout <+: (grouped cfg D gs).flatMap Done.reply
  answered : (grouped cfg D gs.dropLast).flatMap Done.reply <+: gout
  disk : D' = leave (torn (parse gin).2) k (applyReqs cfg D gs.flatten)
  whole : k = 0 ∨ idle = [] ∧ ∃ r, torn (parse gin).2 = some r ∧ ¬ r.Oob cfg ∧
    k ≤ r.data.length ∧ 4096 ∣ r.off + k

theorem pageOf_congr {b : ℕ} (h : ∀ a, a / 4096 = b → D a = D' a) : pageOf D b = pageOf D' b := by
  rw [Page.ext_iff, pageOf, pageOf, Page.read_bytes, Page.read_bytes]
  exact slice_congr fun k hk => h _ (by omega)

/-- **Block by block**: each is what the executed groups have made of it, or in addition a WRITE that
broke off has put all its bytes there, which have all come. -/
theorem Parted.block {idle : List Req} (h : Parted cfg md D D' gin gout gs idle k) (b : ℕ) :
    pageOf D' b = pageOf (applyReqs cfg D gs.flatten) b ∨
    ∃ r, torn (parse gin).2 = some r ∧
      (∀ a, a / 4096 = b → r.off ≤ a → a < r.off + r.len → a < r.off + r.data.length) ∧
      pageOf D' b = pageOf (splice (applyReqs cfg D gs.flatten) r.off r.data) b := by
  rcases h.whole with rfl | ⟨-, r, hr, -, hk, hdvd⟩
  · left
    rw [h.disk, leave_zero]
  have hlen : (r.data.take k).length = k := List.length_take_of_le hk
  have hdisk := h.disk
  rw [hr, leave] at hdisk
  by_cases hb : b < (r.off + k) / 4096
  · refine .inr ⟨r, hr, fun a ha _ _ => by omega, ?_⟩
    rw [hdisk]
    refine pageOf_congr fun a ha => ?_
    by_cases hoff : r.off ≤ a
    · obtain ⟨i, rfl⟩ := Nat.exists_eq_add_of_le hoff
      have hi : i < k := by omega
      rw [splice_at (by omega), splice_at (by omega), List.getD_eq_getElem?_getD,
        List.getD_eq_getElem?_getD, List.getElem?_take_of_lt hi]
    · rw [splice_out (by omega), splice_out (by omega)]
  · left
    rw [hdisk]
    exact pageOf_congr fun a ha => splice_out (by omega)

/-- Between two groups. -/
structure Grouped (cfg : Config) (md : Mode) (x₀ x : Local) (gs : List (List Req)) : Prop where
  together : ∀ g ∈ gs, Together md g
  talk : ∃ raw, Frames raw gs.flatten ∧
    Talked x₀.priv.net x.priv.net raw ((grouped cfg (disk x₀.log) gs).flatMap Done.reply)
  disk : disk x.log = applyReqs cfg (disk x₀.log) gs.flatten

theorem Grouped.nil : Grouped cfg md x₀ x₀ [] :=
  ⟨fun _ hg => absurd hg List.not_mem_nil, ⟨[], .nil, .refl⟩, rfl⟩

theorem Grouped.snoc_together (h : Grouped cfg md x₀ x gs) (hg : Together md rs) :
    ∀ g ∈ gs ++ [rs], Together md g := by
  intro g hmem
  rcases List.mem_append.mp hmem with hmem | hmem
  · exact h.together g hmem
  · rwa [List.mem_singleton.mp hmem]

/-- One more group. -/
theorem Grouped.group (h : Grouped cfg md x₀ x gs) (hc : Carried cfg md w x ds x')
    (hm : md.Flawless cfg) (hown : ∀ m ∈ x'.log, m.who = w) (hf : Frames raw (ds.map Done.req))
    (htk : Talked x.priv.net x'.priv.net raw (ds.flatMap Done.reply)) :
    Grouped cfg md x₀ x' (gs ++ [ds.map Done.req]) := by
  obtain ⟨raw₀, hf₀, htk₀⟩ := h.talk
  obtain ⟨hans, hdisk⟩ := hc.grouped hm hown
  have hflat : (gs ++ [ds.map Done.req]).flatten = gs.flatten ++ ds.map Done.req := by simp
  refine ⟨h.snoc_together (hc.together hf), ⟨raw₀ ++ raw, ?_, ?_⟩, ?_⟩
  · rw [hflat]
    exact hf₀.append hf
  · rw [grouped_concat, List.flatMap_append, ← h.disk, ← hans]
    exact htk₀.trans htk
  · rw [hflat, applyReqs_append, ← h.disk, hdisk]

/-- A connection that ends between two groups, after `g` was received. -/
theorem Grouped.ends (h : Grouped cfg md x₀ x gs) (htk : Talked x.priv.net x'.priv.net g [])
    (hdisk : NbdVram.disk x'.log = leave (torn (parse g).2) k (NbdVram.disk x.log))
    (hk : k = 0 ∨ (parse g).1 = [] ∧ ∃ r, torn (parse g).2 = some r ∧ ¬ r.Oob cfg ∧
      k ≤ r.data.length ∧ 4096 ∣ r.off + k) :
    ∃ gin, Talked x₀.priv.net x'.priv.net gin
        ((grouped cfg (NbdVram.disk x₀.log) gs).flatMap Done.reply) ∧
      Parted cfg md (NbdVram.disk x₀.log) (NbdVram.disk x'.log) gin
        ((grouped cfg (NbdVram.disk x₀.log) gs).flatMap Done.reply) gs (parse g).1 k := by
  obtain ⟨raw, hf, htk₀⟩ := h.talk
  have htalk := htk₀.trans htk
  rw [List.append_nil] at htalk
  refine ⟨raw ++ g, htalk, h.together, ?_, List.prefix_rfl, ?_, ?_, ?_⟩
  · rw [hf.parse]
  · rcases List.eq_nil_or_concat' gs with rfl | ⟨gs', rs, rfl⟩
    · exact List.prefix_rfl
    · rw [List.dropLast_concat, grouped_concat, List.flatMap_append]
      exact List.prefix_append _ _
  · rw [hf.parse, hdisk, h.disk]
  · rw [hf.parse]
    exact hk

/-- A connection that ends within the answers to a group. -/
theorem Grouped.breaks (h : Grouped cfg md x₀ x gs) (hg : Together md rs) (hf : Frames raw rs)
    (htk : Talked x.priv.net x'.priv.net (raw ++ rest) gout)
    (hout : gout <+: (rs.map (Req.answer cfg (NbdVram.disk x.log))).flatMap Done.reply)
    (hdisk : NbdVram.disk x'.log = applyReqs cfg (NbdVram.disk x.log) rs) :
    ∃ gin gout, Talked x₀.priv.net x'.priv.net gin gout ∧
      Parted cfg md (NbdVram.disk x₀.log) (NbdVram.disk x'.log) gin gout (gs ++ [rs])
        (parse rest).1 0 := by
  obtain ⟨raw₀, hf₀, htk₀⟩ := h.talk
  have hflat : (gs ++ [rs]).flatten = gs.flatten ++ rs := by simp
  have hparse : parse (raw₀ ++ (raw ++ rest)) =
      (gs.flatten ++ (rs ++ (parse rest).1), (parse rest).2) := by
    rw [hf₀.parse, hf.parse]
  refine ⟨_, _, htk₀.trans htk, h.snoc_together hg, ?_, ?_, ?_, ?_, .inl rfl⟩
  · rw [hparse, hflat, List.append_assoc]
  · rw [grouped_concat, List.flatMap_append, ← h.disk, List.prefix_append_right_inj]
    exact hout
  · rw [List.dropLast_concat]
    exact List.prefix_append _ _
  · rw [leave_zero, hflat, applyReqs_append, ← h.disk, hdisk]

/-- **Wherever it is given up.** -/
theorem Grouped.cut (h : Grouped cfg md x₀ x gs) (hm : md.Flawless cfg)
    (hown : ∀ m ∈ x'.log, m.who = w) (htk : Talked x.priv.net x'.priv.net gin gout)
    (hc : Cut cfg md w x gin gout x') : ∃ gs idle k gin gout,
      Talked x₀.priv.net x'.priv.net gin gout ∧
      Parted cfg md (NbdVram.disk x₀.log) (NbdVram.disk x'.log) gin gout gs idle k := by
  have hseq : ∀ {is}, Script w x.log is x'.log →
      Seq Mut.who Mut.app w (NbdVram.disk x.log) is (NbdVram.disk x'.log) := fun hsc =>
    hsc.seq fun m hmem => hown m (List.mem_of_mem_drop hmem)
  cases hc with
  | @silent rs raw rest hg hf hst hout hlog =>
      subst hout
      obtain ⟨gin, htalk, hp⟩ := h.ends htk (k := 0) (by rw [leave_zero, hlog]) (.inl rfl)
      exact ⟨gs, _, 0, gin, _, htalk, hp⟩
  | @one hb gin' hg hlen hmg hd hone =>
      subst hg
      cases hone with
      | payload hcmd hlt hout hsc htr =>
          subst hout
          obtain ⟨k, hD, hk⟩ := htr.left hlt (hseq hsc) hm
          have hparse := (Stuck.intro hlen hcmd hlt).parse
          have htorn : torn (parse (hb ++ gin')).2 = some ((parseHdr hb).req gin') := by
            rw [hparse]
            exact torn_intro hlen hmg hcmd
          rw [← htorn] at hD
          obtain ⟨gin, htalk, hp⟩ := h.ends htk hD (hk.imp_right fun hk =>
            ⟨by rw [hparse], _, htorn, hk⟩)
          exact ⟨gs, _, k, gin, _, htalk, hp⟩
      | reply d hreq hl hcar hpre _ =>
          have hf : Frame (hb ++ gin') d.req := hreq ▸ Frame.intro hlen hmg hd hl
          obtain ⟨hans, hdisk⟩ := hcar.grouped hm hown
          have htk' : Talked x.priv.net x'.priv.net (hb ++ gin' ++ []) gout := by
            rwa [List.append_nil]
          have hout : gout <+: (([d].map Done.req).map
              (Req.answer cfg (NbdVram.disk x.log))).flatMap Done.reply := by
            rw [← hans, List.flatMap_singleton]
            exact hpre
          obtain ⟨gin, gout', htalk, hp⟩ := h.breaks (hcar.together (Frames.one hf)) (Frames.one hf) htk' hout hdisk
          exact ⟨_, _, 0, gin, gout', htalk, hp⟩
      | data bs hcmd hnil ho hsc hpre hle _ _ =>
          subst hnil
          have hf : Frame (hb ++ []) ((parseHdr hb).req []) :=
            Frame.intro hlen hmg hd (by rw [Hdr.payload, hcmd]; rfl)
          obtain ⟨hsaw, hD⟩ := hseq hsc
          have hbs : slice (NbdVram.disk x.log) (parseHdr hb).from' bs.length = bs :=
            slice_of_chop fun q hq => hsaw _ (List.mem_map_of_mem hq) hm.reads
          have htk' : Talked x.priv.net x'.priv.net (hb ++ [] ++ []) gout := by
            rwa [List.append_nil]
          have hout : gout <+: ([(parseHdr hb).req []].map
              (Req.answer cfg (NbdVram.disk x.log))).flatMap Done.reply := by
            rw [List.map_singleton, List.flatMap_singleton]
            exact Req.answer_prefix hcmd ho hbs hle hpre
          have hdisk : NbdVram.disk x'.log =
              applyReqs cfg (NbdVram.disk x.log) [(parseHdr hb).req []] :=
            Eq.trans hD (Req.apply_read hcmd).symm
          obtain ⟨gin, gout', htalk, hp⟩ :=
            h.breaks (Together.one (Frames.one hf)) (Frames.one hf) htk' hout hdisk
          exact ⟨_, _, 0, gin, gout', htalk, hp⟩
  | batch ds hg _ hf hcar hpre _ =>
      subst hg
      obtain ⟨hans, hdisk⟩ := hcar.grouped hm hown
      rw [hans] at hpre
      obtain ⟨gin, gout', htalk, hp⟩ := h.breaks (hcar.together hf) hf htk hpre hdisk
      exact ⟨_, _, 0, gin, gout', htalk, hp⟩

/-! ## One connection -/

/-- A connection that is still open. -/
theorem Trace.grouped (h : Trace cfg md w true x₀ hs x) (hm : md.Flawless cfg)
    (hown : ∀ m ∈ x.log, m.who = w) (hc : x.priv.net.conn = x₀.priv.net.conn)
    (ho : hs.foldl Hap.open true = true) : ∃ gs, Grouped cfg md x₀ x gs := by
  induction h with
  | nil => exact ⟨[], .nil⟩
  | accept _ _ ht _ =>
      have hle := ht.conn_le
      have heq : _ + 1 = _ := hc
      omega
  | group _ hon hf hcar _ htk ih =>
      obtain ⟨is, -, hsc⟩ := hcar.script
      obtain ⟨gs, hg⟩ := ih (hsc.own hown) (htk.conn ▸ hc) hon
      exact ⟨_, hg.group hcar hm hown hf htk⟩
  | disc _ _ _ _ _ | cut _ _ _ _ _ =>
      rw [List.foldl_append] at ho
      cases ho

/-- **One connection**, wherever it stands. -/
theorem Trace.parted (h : Trace cfg md w true x₀ hs x) (hm : md.Flawless cfg)
    (hown : ∀ m ∈ x.log, m.who = w) (hc : x.priv.net.conn = x₀.priv.net.conn) :
    ∃ gs idle k gin gout, Talked x₀.priv.net x.priv.net gin gout ∧
      Parted cfg md (disk x₀.log) (disk x.log) gin gout gs idle k ∧
      ((∀ hs', hs ≠ hs' ++ [.cut]) → idle = [] ∧ k = 0 ∧
        gout = (NbdVram.grouped cfg (disk x₀.log) gs).flatMap Done.reply) := by
  have hrests : ∀ {x gs}, Grouped cfg md x₀ x gs → ∀ {p g}, Talked x.priv.net p g [] →
      (parse g).1 = [] → ∃ gs idle k gin gout, Talked x₀.priv.net p gin gout ∧
        Parted cfg md (disk x₀.log) (disk x.log) gin gout gs idle k ∧ (idle = [] ∧ k = 0 ∧
          gout = (NbdVram.grouped cfg (disk x₀.log) gs).flatMap Done.reply) := by
    intro x gs hg p g htk hg₀
    have hdisk : disk (x.online p).log = leave (torn (parse g).2) 0 (disk x.log) := by
      rw [leave_zero]
      rfl
    obtain ⟨gin, htalk, hp⟩ := hg.ends htk hdisk (.inl rfl)
    rw [hg₀] at hp
    exact ⟨gs, [], 0, gin, _, htalk, hp, rfl, rfl, rfl⟩
  cases h with
  | nil =>
      obtain ⟨gs, idle, k, gin, gout, htalk, hp, hkeep⟩ :=
        hrests .nil .refl (congrArg Prod.fst parse_nil)
      exact ⟨gs, idle, k, gin, gout, htalk, hp, fun _ => hkeep⟩
  | accept _ _ ht =>
      have hle := ht.conn_le
      have heq : _ + 1 = _ := hc
      omega
  | group ht hon hf hcar _ htk =>
      obtain ⟨is, -, hsc⟩ := hcar.script
      obtain ⟨gs, hg⟩ := ht.grouped hm (hsc.own hown) (htk.conn ▸ hc) hon
      obtain ⟨gs, idle, k, gin, gout, htalk, hp, hkeep⟩ :=
        hrests (hg.group hcar hm hown hf htk) .refl (congrArg Prod.fst parse_nil)
      exact ⟨gs, idle, k, gin, gout, htalk, hp, fun _ => hkeep⟩
  | disc ht hon hd htk =>
      obtain ⟨gs, hg⟩ := ht.grouped hm hown (htk.conn ▸ hc) hon
      obtain ⟨gs, idle, k, gin, gout, htalk, hp, hkeep⟩ := hrests hg htk (congrArg Prod.fst hd.parse)
      exact ⟨gs, idle, k, gin, gout, htalk, hp, fun _ => hkeep⟩
  | cut ht hon htk hcut =>
      obtain ⟨gs, hg⟩ := ht.grouped hm (hcut.own hown) (htk.conn ▸ hc) hon
      obtain ⟨gs, idle, k, gin, gout, htalk, hp⟩ := hg.cut hm hown htk hcut
      exact ⟨gs, idle, k, gin, gout, htalk, hp, fun hno => absurd rfl (hno _)⟩

/-- Between two rests of a worker on one connection. -/
theorem Daemon.Reachable.parted {S S' : Daemon cfg} (h : Daemon.Reachable cfg md S)
    (hs : md.since = 0) (hsolo : md.solo = some w) (hm : md.Flawless cfg) {ph ph' : Phase}
    (hw : S.prog w = .ret ph) (ho : ph.open = true) (hrun : Daemon.Run cfg md S S')
    (hw' : S'.prog w = .ret ph') (hc : (S'.st.priv w).net.conn = (S.st.priv w).net.conn) :
    ∃ gs idle k gin gout, Talked (S.st.priv w).net (S'.st.priv w).net gin gout ∧
      Parted cfg md (S.st.bytes cfg) (S'.st.bytes cfg) gin gout gs idle k ∧
      (ph'.Kept → idle = [] ∧ k = 0 ∧
        gout = (NbdVram.grouped cfg (S.st.bytes cfg) gs).flatMap Done.reply) := by
  have hi := h.inv hs
  have hi' : Inv cfg md S'.st := by
    obtain ⟨S₀, h0, hrun₀⟩ := h
    exact Daemon.Reachable.inv ⟨S₀, h0, hrun₀.trans hrun⟩ hs
  obtain ⟨hs', x, hx, hr, ht, hfit⟩ := h.trace hs hw hrun hw'
  have hlog : S'.st.log = x.log := hx.log_eq hi' hsolo hr.since
  have hown : ∀ m ∈ x.log, m.who = w := fun m hm => hi'.solo w hsolo m (by rwa [hlog, hs])
  rw [ho] at ht
  obtain ⟨gs, idle, k, gin, gout, htalk, hp, hkeep⟩ := ht.parted hm hown (by rwa [hx.priv] at hc)
  have hD : disk (S.st.known cfg w).log = S.st.bytes cfg := hi.bytes.symm
  have hD' : disk x.log = S'.st.bytes cfg := by rw [hi'.bytes, hlog]
  rw [hD, hD'] at hp
  rw [hD] at hkeep
  rw [← hx.priv] at htalk
  exact ⟨gs, idle, k, gin, gout, htalk, hp, fun hk => hkeep (hfit.not_cut hk)⟩

/-- A client has come that will send a WRITE of one byte and the header of another. -/
def Daemon.greeted : Daemon smallConfig :=
  Daemon.drive 0 [.client (byteWrite ++ byteWrite.take 28), .plain] (Daemon.booted smallConfig)

/-- It has been served and given up. -/
def Daemon.dropped : Daemon smallConfig :=
  Daemon.drive 0 (List.replicate 33 .plain) Daemon.greeted

theorem Daemon.booted_calm (hgen : md.gen = false) (hso : ∀ v, md.solo = some v → 0 = v)
    {cs : List Choice} (h : Daemon.calm 0 cs (Daemon.booted smallConfig) = true) :
    Daemon.Reachable smallConfig md (Daemon.drive 0 cs (Daemon.booted smallConfig)) :=
  ⟨_, ⟨State.boot_initial smallConfig, fun _ => .inr ⟨.blank, rfl⟩⟩,
    Daemon.drive_calm hgen hso _ _ h⟩

theorem Talked.unique {p p' : Net} {gin' gout' : List UInt8} (h : Talked p p' gin gout)
    (h' : Talked p p' gin' gout') : gin = gin' ∧ gout = gout' :=
  ⟨List.append_cancel_left (h.got.symm.trans h'.got), List.append_cancel_left (h.out.symm.trans h'.out)⟩

/-- From `S` to `S'` worker `w` has served a client, has received `gin` and sent `gout`. -/
structure Daemon.Client (md : Mode) (w : ℕ) (S S' : Daemon cfg) (gin gout : List UInt8) : Prop where
  reach : Daemon.Reachable cfg md S
  rests : ∃ ph, S.prog w = .ret ph ∧ ph.open = true
  run : Daemon.Run cfg md S S'
  rests' : ∃ ph, S'.prog w = .ret ph
  talked : Talked (S.st.priv w).net (S'.st.priv w).net gin gout

theorem Parted.flat {idle : List Req} (h : Parted cfg md D D' gin gout gs idle k)
    (hap : md.apart = true) : gout <+: (flat cfg D (parse gin).1).flatMap Done.reply := by
  have hsent := h.sent
  rw [grouped_flat hap h.together] at hsent
  rw [h.received, flat_append, List.flatMap_append]
  exact hsent.trans (List.prefix_append _ _)

/-- What a client gets, from the array as it has found it. -/
theorem Daemon.Client.flat {S S' : Daemon cfg} (h : Daemon.Client (.flat w) w S S' gin gout)
    (hcodec : cfg.codec.RoundTrip) :
    gout <+: (NbdVram.flat cfg (S.st.bytes cfg) (parse gin).1).flatMap Done.reply ∧
    ((S'.phase w).Kept →
      gout = (NbdVram.flat cfg (S.st.bytes cfg) (parse gin).1).flatMap Done.reply ∧
      S'.st.bytes cfg = applyReqs cfg (S.st.bytes cfg) (parse gin).1) := by
  obtain ⟨ph, hw, ho⟩ := h.rests
  obtain ⟨ph', hw'⟩ := h.rests'
  obtain ⟨gs, idle, k, gin', gout', htalk, hp, hkeep⟩ := h.reach.parted rfl rfl
    ⟨⟨⟨rfl, hcodec⟩, .inr (Option.some_ne_none w)⟩, rfl, rfl⟩ hw ho h.run hw' h.talked.conn
  obtain ⟨rfl, rfl⟩ := h.talked.unique htalk
  refine ⟨hp.flat rfl, fun hk => ?_⟩
  rw [Daemon.phase_eq hw'] at hk
  obtain ⟨rfl, rfl, hout⟩ := hkeep hk
  have hall := hp.received
  rw [List.append_nil] at hall
  refine ⟨?_, ?_⟩
  · rw [hout, grouped_flat rfl hp.together, hall]
  · rw [hp.disk, leave_zero, hall]

/-- **Nothing of a client is left for the next.** Take two daemons, of devices of one size, that show
the same bytes; whatever clients they have had, however these were served and cut off, and whatever
is left of them in the memory of the workers. Of two clients that now send the same, one gets what
the other gets, as far as both connections go; and where neither is given up they get the same and
leave the same. This is with no failures, no other client at the same time and no READ batched
behind a WRITE to its blocks. -/
theorem next_client_same {cfg' : Config} (hcodec : cfg.codec.RoundTrip)
    (hcodec' : cfg'.codec.RoundTrip) (hsize : cfg'.diskSize = cfg.diskSize) {v : ℕ}
    {S S' : Daemon cfg} {T T' : Daemon cfg'} {gout' : List UInt8}
    (hS : Daemon.Client (.flat w) w S S' gin gout) (hT : Daemon.Client (.flat v) v T T' gin gout')
    (hbytes : T.st.bytes cfg' = S.st.bytes cfg) :
    (gout <+: gout' ∨ gout' <+: gout) ∧
    ((S'.phase w).Kept → (T'.phase v).Kept →
      gout' = gout ∧ T'.st.bytes cfg' = S'.st.bytes cfg) := by
  obtain ⟨hout, hkept⟩ := hS.flat hcodec
  obtain ⟨hout', hkept'⟩ := hT.flat hcodec'
  rw [hbytes, flat_congr hsize] at hout' hkept'
  rw [applyReqs_congr hsize] at hkept'
  refine ⟨List.prefix_or_prefix_of_prefix hout hout', fun hk hk' => ?_⟩
  obtain ⟨h1, h2⟩ := hkept hk
  obtain ⟨h1', h2'⟩ := hkept' hk'
  exact ⟨h1'.trans h1.symm, h2'.trans h2.symm⟩

/-- The first client of a daemon, which will send a WRITE of one byte. -/
def Daemon.first : Daemon smallConfig :=
  Daemon.drive 0 [.client byteWrite, .plain] (Daemon.booted smallConfig)

/-- The same client, after one that has sent the header of a WRITE only. -/
def Daemon.second : Daemon smallConfig :=
  Daemon.drive 0 (.client (byteWrite.take 28) :: List.replicate 8 .plain ++ [.client byteWrite, .plain])
    (Daemon.booted smallConfig)

set_option maxRecDepth 100000 in
theorem next_client_same_second :
    (Daemon.drive 0 (List.replicate 27 .plain) Daemon.second).st.bytes smallConfig =
      (Daemon.drive 0 (List.replicate 27 .plain) Daemon.first).st.bytes smallConfig := by
  have hclient : ∀ S : Daemon smallConfig, Daemon.Reachable smallConfig (.flat 0) S →
      S.resting 0 = true → (S.phase 0).open = true →
      Daemon.calm 0 (List.replicate 27 .plain) S = true →
      (Daemon.drive 0 (List.replicate 27 .plain) S).resting 0 = true →
      Talked (S.st.priv 0).net ((Daemon.drive 0 (List.replicate 27 .plain) S).st.priv 0).net byteWrite
        (respHdr .ok [0, 0, 0, 0, 0, 0, 0, 1]) →
      Daemon.Client (.flat 0) 0 S (Daemon.drive 0 (List.replicate 27 .plain) S) byteWrite
        (respHdr .ok [0, 0, 0, 0, 0, 0, 0, 1]) := by
    intro S h hrest hopen hcalm hrest' htalk
    obtain ⟨ph, hp⟩ := Daemon.resting_iff.mp hrest
    rw [Daemon.phase_eq hp] at hopen
    exact ⟨h, ⟨ph, hp, hopen⟩, Daemon.drive_calm rfl (fun _ hv => Option.some.inj hv) _ _ hcalm,
      Daemon.resting_iff.mp hrest', htalk⟩
  have hfirst : Daemon.Reachable smallConfig (.flat 0) Daemon.first :=
    Daemon.booted_calm rfl (fun _ hv => Option.some.inj hv) (by decide)
  have hsecond : Daemon.Reachable smallConfig (.flat 0) Daemon.second :=
    Daemon.booted_calm rfl (fun _ hv => Option.some.inj hv) (by decide)
  have hbytes : Daemon.second.st.bytes smallConfig = Daemon.first.st.bytes smallConfig := by
    rw [(hsecond.inv rfl).bytes, (hfirst.inv rfl).bytes]
    rfl
  have hsame := next_client_same (fun h => absurd rfl h) (fun h => absurd rfl h) rfl
    (hclient Daemon.first hfirst rfl rfl (by decide) rfl ⟨rfl, rfl, rfl, rfl, rfl⟩)
    (hclient Daemon.second hsecond rfl rfl (by decide) rfl ⟨rfl, rfl, rfl, rfl, rfl⟩) hbytes
  exact (hsame.2 (.inl rfl) (.inl rfl)).2

end NbdVram
