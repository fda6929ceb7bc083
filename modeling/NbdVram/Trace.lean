import NbdVram.Flush

/-!
# What has happened on a worker's connections

A worker's past is a list of happenings: connections accepted, groups of requests
answered, DISCs, and connections given up. A `Trace` relates such a list to what
the worker knows: what was received since the last `accept` is the requests
answered, what was sent is their replies, and the log holds what the groups have
done. `Post` is the loop invariant of all threads, so every reachable state is
`Safe`, and every worker at rest has its trace.
-/

namespace NbdVram

open Interleave Span MutationLog

variable {cfg : Config} {md : Mode} {s s' : State} {w : ℕ} {x x' x₀ : Local} {m : Mem}

/-! ## A worker at rest -/

/-- What is known of a worker between requests. -/
def State.known (cfg : Config) (s : State) (w : ℕ) : Local where
  locks := []
  entry := none
  resv := fun g => if g ∈ s.resv w then some (Alloc.slotSize cfg.heap s.alloc g) else none
  disp := []
  slot := fun _ => .idle
  log := s.log
  priv := s.priv w

theorem Quiet.loc (hq : Quiet md w s) : Loc cfg w (s.known cfg w) s := by
  refine ⟨fun m => ?_, fun _ _ _ h => (nomatch h), fun g sz => ?_, hq.disp, fun sl => ?_,
    fun _ _ _ h => (nomatch h), fun _ _ _ _ _ h => (nomatch h), ⟨[], by simp [State.known],
    Foreign.nil⟩, rfl⟩
  · simpa [State.known] using hq.lock m
  · simp only [State.known]
    split <;> simp [*]
  · show NoMove w sl s
    simp [NoMove, hq.pend]

theorem Quiet.rest (hq : Quiet md w s) (hb : (s.priv w).busy = false)
    (hs : md.since ≤ s.log.length) : (s.known cfg w).Rest md := by
  refine ⟨rfl, rfl, rfl, fun _ => trivial, fun _ => rfl, fun h g hg => hq.resv h g ?_, hb, hs⟩
  by_contra hne
  exact hg (if_neg hne)

/-! ## Happenings -/

/-- One happening; a group of requests comes with the faults they have met. -/
inductive Hap
  | accept
  | group (ds : List Done) (fs : List Fault)
  | disc
  | cut

/-- Whether a connection is open after a happening. -/
def Hap.open : Bool → Hap → Bool
  | _, .accept => true
  | on, .group _ _ => on
  | _, .disc => false
  | _, .cut => false

/-- How a connection is given up, with `gin` received since the last reply and `gout` sent: the
requests `rs` were received and nothing was done about them; a single request came to an end; or
the replies of a batch, behind which the header `rest` had been received. -/
inductive Cut (cfg : Config) (md : Mode) (w : ℕ) (x : Local) (gin gout : List UInt8) (x' : Local) :
    Prop
  | silent {rs : List Req} {raw rest : List UInt8} : gin = raw ++ rest → Frames raw rs →
      Stuck rest → gout = [] → x'.log = x.log → Cut cfg md w x gin gout x'
  | one {hb gin' : List UInt8} : gin = hb ++ gin' → hb.length = 28 →
      (parseHdr hb).magic = requestMagic → (parseHdr hb).cmd ≠ .disc →
      CutOne cfg md w x (parseHdr hb) gin' gout x' → Cut cfg md w x gin gout x'
  | batch {raw rest : List UInt8} (ds : List Done) : gin = raw ++ rest → rest.length ≤ 28 →
      Frames raw (ds.map Done.req) → Carried cfg md w x ds x' → gout <+: ds.flatMap Done.reply →
      (gout = ds.flatMap Done.reply ∧ ∃ d ∈ ds, d.err = .eio) ∨ x'.priv.net.down = true →
      Cut cfg md w x gin gout x'

/-- From `x₀` on, where a connection was open or not, the happenings `hs` have led to `x`. -/
inductive Trace (cfg : Config) (md : Mode) (w : ℕ) (on : Bool) (x₀ : Local) : List Hap → Local → Prop
  | nil : Trace cfg md w on x₀ [] x₀
  | accept {hs : List Hap} {x : Local} (inp : List UInt8) (eof : Bool) : Trace cfg md w on x₀ hs x →
      Trace cfg md w on x₀ (hs ++ [.accept]) { x with priv := { x.priv with
        net := ⟨inp, eof, [], [], x.priv.net.conn + 1, false⟩, faults := [] } }
  | group {hs : List Hap} {x x' : Local} {raw : List UInt8} {ds : List Done} :
      Trace cfg md w on x₀ hs x → hs.foldl Hap.open on = true → Frames raw (ds.map Done.req) →
      Carried cfg md w x ds x' → (∀ d ∈ ds, d.err ≠ .eio) →
      Talked x.priv.net x'.priv.net raw (ds.flatMap Done.reply) →
      Trace cfg md w on x₀ (hs ++ [.group ds x'.priv.faults]) x'
  | disc {hs : List Hap} {x : Local} {p : Net} {raw : List UInt8} : Trace cfg md w on x₀ hs x →
      hs.foldl Hap.open on = true → DiscHdr raw → Talked x.priv.net p raw [] →
      Trace cfg md w on x₀ (hs ++ [.disc]) (x.online p)
  | cut {hs : List Hap} {x x' : Local} {gin gout : List UInt8} : Trace cfg md w on x₀ hs x →
      hs.foldl Hap.open on = true → Talked x.priv.net x'.priv.net gin gout →
      Cut cfg md w x gin gout x' → Trace cfg md w on x₀ (hs ++ [.cut]) x'

/-- Whether a connection is open in a phase. -/
def Phase.open : Phase → Bool
  | .serving _ | .ended .stop _ => true
  | _ => false

/-- What a worker's phase tells about the happenings since the phase `start`. -/
def Phase.Fits (start : Phase) (hs : List Hap) : Phase → Prop
  | .serving _ | .ended .stop _ => hs.foldl Hap.open start.open = true
  | .ended .disc _ => (∃ hs', hs = hs' ++ [.disc]) ∨ hs = [] ∧ ∃ m, start = .ended .disc m
  | .ended .drop _ => (∃ hs', hs = hs' ++ [.cut]) ∨ hs = [] ∧ ∃ m, start = .ended .drop m
  | .logging | .waiting _ | .stopped _ => True

theorem Phase.fits_nil (ph : Phase) : Phase.Fits ph [] ph := by
  cases ph with
  | ended why m =>
      cases why with
      | stop => rfl
      | disc | drop => exact .inr ⟨rfl, m, rfl⟩
  | serving m => rfl
  | logging | waiting m | stopped m => trivial

/-- The loop invariant of every thread, from what was known of it at the start. -/
def Post (cfg : Config) (md : Mode) (base : ℕ → Local) (start : ℕ → Phase) (w : ℕ) (ph : Phase)
    (s : State) : Prop :=
  ∃ hs x, Loc cfg w x s ∧ x.Rest md ∧ Trace cfg md w (start w).open (base w) hs x ∧ Phase.Fits (start w) hs ph

/-! ## One round -/

section Round

variable {on : Bool} {hs : List Hap} {p : Net} {b : Batch} {rs : List Req} {hb raw rest : List UInt8}

/-- How the happenings end after a round of `handle_client`. -/
def Turn.Fits (on : Bool) (hs : List Hap) : Turn → Prop
  | .go => hs.foldl Hap.open on = true
  | .drop => ∃ hs', hs = hs' ++ [.cut]
  | .disc => ∃ hs', hs = hs' ++ [.disc]

theorem CutOne.of_online {h : Hdr} {gin gout : List UInt8}
    (hc : CutOne cfg md w (x.online p) h gin gout x') : CutOne cfg md w x h gin gout x' := by
  cases hc with
  | payload h1 h2 h3 h4 h5 => exact .payload h1 h2 h3 h4 h5
  | reply d h1 h2 h3 h4 h5 => exact .reply d h1 h2 ⟨h3.script, h3.errs⟩ h4 h5
  | data bs h1 h2 h3 h4 h5 h6 h7 h8 => exact .data bs h1 h2 h3 h4 h5 h6 h7 h8

/-- The per-request path, after the header `hb`. -/
theorem handleOne_turn (hi : Inv cfg md s) (hx : Loc cfg w (x.online p) s) (hr : x.Rest md)
    (ht : Trace cfg md w on x₀ hs x) (hon : hs.foldl Hap.open on = true)
    (htk : Talked x.priv.net p hb []) (hlen : hb.length = 28)
    (hmg : (parseHdr hb).magic = requestMagic) (hd : (parseHdr hb).cmd ≠ .disc) :
    wp (contract cfg md) w (handleOne cfg (parseHdr hb) m) (fun r s' => ∃ hs' x', Loc cfg w x' s' ∧
      x'.Rest md ∧ Trace cfg md w on x₀ hs' x' ∧ (turnOf r).1.Fits on hs') s := by
  refine wp_mono hi (handleOne_spec hi hx (hr.online p) (parseHdr_from_lt hb)) fun r s' _ h => ?_
  obtain ⟨x', gin, gout, hx', hr', htk', -, htrue, hfalse⟩ := h
  have htalk : Talked x.priv.net x'.priv.net (hb ++ gin) gout := htk.trans htk'
  obtain ⟨ok, m'⟩ := r
  cases ok with
  | true =>
      obtain ⟨hgl, d, hreq, hc, rfl, hne⟩ := htrue rfl
      have hf : Frame (hb ++ gin) d.req := hreq ▸ Frame.intro hlen hmg hd hgl
      refine ⟨hs ++ [.group [d] x'.priv.faults], x', hx', hr', .group ht hon (Frames.one hf) ⟨hc.script, hc.errs⟩
        (by simpa using hne) (by simpa using htalk), ?_⟩
      show (hs ++ [Hap.group [d] x'.priv.faults]).foldl Hap.open on = true
      rwa [List.foldl_append]
  | false =>
      exact ⟨hs ++ [.cut], x', hx', hr', .cut ht hon htalk (.one rfl hlen hmg hd (hfalse rfl).of_online),
        hs, rfl⟩

/-- What was received can be split where a request ends. -/
theorem Talked.split {p' : Net} {g g' gout : List UInt8} (h : Talked p p' (g ++ g') gout) :
    ∃ q, Talked p q g gout ∧ Talked q p' g' [] ∧ q.down = p'.down := by
  refine ⟨⟨g' ++ p'.inp, p.eof, p.got ++ g, p.out ++ gout, p.conn, p'.down⟩, ⟨rfl, rfl, ?_, rfl, rfl⟩,
    ⟨?_, ?_, rfl, h.eof, h.conn⟩, rfl⟩
  · rw [h.inp, List.append_assoc]
  · rw [h.got, List.append_assoc]
  · rw [h.out, List.append_nil]

theorem Ran.carried {P : Plan} {x₁ : Local} (hR : Ran cfg md w b P x₀ x₁ m) (hb : Holds cfg b rs)
    (h0 : x₀.priv.faults = []) (hlog : ∃ new, Alien w new ∧ x₀.log = x.log ++ new)
    (hap : md.apart = true → Apart rs) : Carried cfg md w x ((List.range b.nreq).map m.doneAt) x₁ := by
  obtain ⟨new, hnew, hl⟩ := hlog
  refine ⟨⟨_, hR.group hb h0 hap, ?_⟩, fun i d hd => ?_⟩
  · have hal : Script w x.log [] x₀.log := by
      rw [hl]
      exact .alien hnew
    have hsc := hal.trans (hR.did hb h0)
    simpa using hsc
  · rw [List.getElem?_map, Option.map_eq_some_iff] at hd
    obtain ⟨j, hj, rfl⟩ := hd
    rw [List.getElem?_eq_some_iff] at hj
    obtain ⟨hlt, rfl⟩ := hj
    rw [List.length_range, hb.nreq] at hlt
    have hri : rs[i]? = some rs[i] := List.getElem?_eq_getElem hlt
    rw [List.getElem_range, hR.doneAt hb hri]
    exact hR.verdict hb h0 hri

/-- The batched path, after the requests of the batch and a trailing header, if any. -/
theorem flushBatch_turn (hi : Inv cfg md s) (hx : Loc cfg w (x.online p) s) (hr : x.Rest md)
    (ht : Trace cfg md w on x₀ hs x) (hon : hs.foldl Hap.open on = true)
    (htk : Talked x.priv.net p (raw ++ rest) [])
    (hf : Frames raw rs) (hrest : rest.length ≤ 28) (hb : Holds cfg b rs) :
    wp (contract cfg md) w (flushBatch cfg b) (fun z s' => ∃ x', Loc cfg w x' s' ∧ x'.Rest md ∧
      (z.1 = false → Trace cfg md w on x₀ (hs ++ [.cut]) x') ∧
      (z.1 = true → ∃ ds fs x'' p', x''.Rest md ∧ Trace cfg md w on x₀ (hs ++ [.group ds fs]) x'' ∧
        x' = x''.online p' ∧ Talked x''.priv.net p' rest [] ∧ x''.priv.net.down = p'.down)) s := by
  refine wp_mono hi (flushBatch_spec hi hx (hr.online p) hb) fun z s' _ h => ?_
  obtain ⟨x', hx', hr', y₀, y₁, P, gout, alive, hR, h0, hlog, hap, hx'eq, htk', hsent, hdn, hz⟩ := h
  have htalk : Talked x.priv.net x'.priv.net (raw ++ rest) gout := by
    have := htk.trans htk'
    rwa [List.append_nil] at this
  have hcar : Carried cfg md w x ((List.range b.nreq).map z.2.doneAt) y₁ := hR.carried hb h0 hlog hap
  have hfr : Frames raw (((List.range b.nreq).map z.2.doneAt).map Done.req) := by
    rwa [hR.map_req hb]
  obtain ⟨tail, hgout, hall⟩ := hsent
  refine ⟨x', hx', hr', fun hfalse => ?_, fun htrue => ?_⟩
  · rw [hfalse] at hz
    have hno := of_decide_eq_false hz.symm
    rw [hx'eq] at htalk hdn ⊢
    refine .cut ht hon htalk (.batch _ rfl hrest hfr ⟨hcar.script, hcar.errs⟩ ⟨tail, hgout.symm⟩ ?_)
    cases alive with
    | false => exact .inr (hdn rfl)
    | true =>
        rw [hall.mp rfl, List.append_nil] at hgout
        refine .inl ⟨hgout.symm, ?_⟩
        by_contra hne
        refine hno ⟨rfl, fun i hi he => hne ⟨z.2.doneAt i, ?_, he⟩⟩
        exact List.mem_map_of_mem (List.mem_range.mpr hi)
  · rw [htrue] at hz
    obtain ⟨halive, hne⟩ := of_decide_eq_true hz.symm
    rw [hall.mp halive, List.append_nil] at hgout
    rw [← hgout] at htalk
    obtain ⟨q, h1, h2, h3⟩ := htalk.split
    refine ⟨_, _, y₁.online q, x'.priv.net, hR.rest.online q, .group ht hon hfr ⟨hcar.script, hcar.errs⟩
      (fun d hd => ?_) h1, by rw [hx'eq]; rfl, h2, h3⟩
    obtain ⟨i, hi, rfl⟩ := List.mem_map.mp hd
    exact hne i (List.mem_range.mp hi)

theorem Trace.silent {gin : List UInt8} (ht : Trace cfg md w on x₀ hs x)
    (hon : hs.foldl Hap.open on = true)
    (htk : Talked x.priv.net p gin []) (hg : gin = raw ++ rest) (hf : Frames raw rs)
    (hst : Stuck rest) : Trace cfg md w on x₀ (hs ++ [.cut]) (x.online p) := by
  refine .cut ht hon htk (.silent hg hf hst rfl ?_)
  rfl

theorem open_group {ds : List Done} {fs : List Fault} (hon : hs.foldl Hap.open on = true) :
    (hs ++ [Hap.group ds fs]).foldl Hap.open on = true := by
  rwa [List.foldl_append]

/-- One round of `handle_client` from a good header that is not DISC. -/
theorem serveHdr_turn (hi : Inv cfg md s) (hx : Loc cfg w (x.online p) s) (hr : x.Rest md)
    (ht : Trace cfg md w on x₀ hs x) (hon : hs.foldl Hap.open on = true)
    (htk : Talked x.priv.net p hb []) (hlen : hb.length = 28)
    (hmg : (parseHdr hb).magic = requestMagic) (hd : (parseHdr hb).cmd ≠ .disc) :
    wp (contract cfg md) w (serveHdr cfg (parseHdr hb) m) (fun t s' => ∃ hs' x', Loc cfg w x' s' ∧
      x'.Rest md ∧ Trace cfg md w on x₀ hs' x' ∧ t.1.Fits on hs') s := by
  unfold serveHdr
  split
  · exact wp_seq hi (handleOne_turn hi hx hr ht hon htk hlen hmg hd) fun r s' _ h => h
  have hmax := le_maxops cfg
  refine wp_seq hi (batchAdmit_spec hi hx (hr.online p) (Holds.empty m) hmg cfg.depth_pos
    (show 0 + 16 ≤ cfg.maxops by omega)) fun a s₁ hi₁ ha => ?_
  obtain ⟨p₁, gin, hx₁, htk₁, hadm⟩ := ha
  rw [online_online] at hx₁
  have htalk : Talked x.priv.net p₁ (hb ++ gin) [] := htk.trans htk₁
  cases hadm with
  | drop b' h1 h2 =>
      exact ⟨hs ++ [.cut], x.online p₁, hx₁, hr.online p₁,
        ht.silent hon htalk (List.nil_append _).symm .nil (.intro hlen h1 h2), hs, rfl⟩
  | single hn =>
      subst hn
      rw [List.append_nil] at htalk
      exact wp_seq hi₁ (handleOne_turn hi₁ hx₁ hr ht hon htalk hlen hmg hd) fun r s' _ h => h
  | @batched b' hgl hh =>
      have hf : Frame (hb ++ gin) ((parseHdr hb).req gin) := Frame.intro hlen hmg hd hgl
      refine wp_seq hi₁ (access_spec hi₁ hx₁ (show 16 ≤ cfg.maxops by omega)) fun _ s₂ hi₂ hx₂ => ?_
      refine wp_seq hi₂ (gather_spec hi₂ hx₂ (hr.online p₁) hh) fun t s₃ hi₃ hg => ?_
      obtain ⟨p₃, gin₃, hx₃, htk₃, hgath⟩ := hg
      rw [online_online] at hx₃
      have htalk₃ : Talked x.priv.net p₃ (hb ++ gin ++ gin₃) [] := htalk.trans htk₃
      cases hgath with
      | @drop b₃ rs' raw rest h1 h2 h3 =>
          rw [h1, ← List.append_assoc] at htalk₃
          exact ⟨hs ++ [.cut], x.online p₃, hx₃, hr.online p₃,
            ht.silent hon htalk₃ rfl ((Frames.one hf).append h2) h3, hs, rfl⟩
      | @none b₃ rs' h1 h2 =>
          have hfr := (Frames.one hf).append h1
          rw [← List.append_nil (hb ++ gin ++ gin₃)] at htalk₃
          refine wp_seq hi₃ (flushBatch_turn hi₃ hx₃ hr ht hon htalk₃ hfr (Nat.zero_le _) h2)
            fun z s₄ hi₄ hz => ?_
          obtain ⟨x', hx', hr', hfalse, htrue⟩ := hz
          obtain ⟨ok, m'⟩ := z
          cases ok with
          | false => exact ⟨_, x', hx', hr', hfalse rfl, hs, rfl⟩
          | true =>
              obtain ⟨ds, fs, x'', p', hr'', ht'', rfl, htk', hdn⟩ := htrue rfl
              have hp : p' = x''.priv.net := by
                obtain ⟨h1, h2, h3, h4, h5⟩ := htk'
                cases p'
                cases hq : x''.priv.net
                simp_all
              subst hp
              exact ⟨_, x'', hx', hr'', ht'', open_group hon⟩
      | @single b₃ rs' raw hb₃ h1 h2 h3 h4 h5 h6 =>
          have hfr := (Frames.one hf).append h2
          rw [h1, ← List.append_assoc] at htalk₃
          refine wp_seq hi₃ (flushBatch_turn hi₃ hx₃ hr ht hon htalk₃ hfr h4.le h3) fun z s₄ hi₄ hz => ?_
          obtain ⟨x', hx', hr', hfalse, htrue⟩ := hz
          obtain ⟨ok, m'⟩ := z
          cases ok with
          | false => exact ⟨_, x', hx', hr', hfalse rfl, hs, rfl⟩
          | true =>
              obtain ⟨ds, fs, x'', p', hr'', ht'', rfl, htk', -⟩ := htrue rfl
              exact wp_seq hi₄ (handleOne_turn hi₄ hx' hr'' ht'' (open_group hon) htk' h4 h5 h6)
                fun r s' _ h => h
      | @disc b₃ rs' raw hb₃ h1 h2 h3 h4 =>
          have hfr := (Frames.one hf).append h2
          rw [h1, ← List.append_assoc] at htalk₃
          refine wp_seq hi₃ (flushBatch_turn hi₃ hx₃ hr ht hon htalk₃ hfr h4.len.le h3)
            fun z s₄ hi₄ hz => ?_
          obtain ⟨x', hx', hr', hfalse, htrue⟩ := hz
          obtain ⟨ok, m'⟩ := z
          cases ok with
          | false => exact ⟨_, x', hx', hr', hfalse rfl, hs, rfl⟩
          | true =>
              obtain ⟨ds, fs, x'', p', hr'', ht'', rfl, htk', -⟩ := htrue rfl
              exact ⟨_, _, hx', hr', .disc ht'' (open_group hon) h4 htk', _, rfl⟩

/-- **One round of `handle_client`.** -/
theorem serve_turn {ph₀ : Phase} (hi : Inv cfg md s) (hx : Loc cfg w x s) (hr : x.Rest md)
    (ht : Trace cfg md w ph₀.open x₀ hs x) (hon : hs.foldl Hap.open ph₀.open = true) :
    wp (contract cfg md) w (serve cfg m) (fun ph s' => ∃ hs' x', Loc cfg w x' s' ∧
      x'.Rest md ∧ Trace cfg md w ph₀.open x₀ hs' x' ∧ Phase.Fits ph₀ hs' ph) s := by
  unfold serve
  refine wp_seq hi (recvAll_spec hi hx hr) fun r s₁ hi₁ h => ?_
  obtain ⟨p, hx₁, htk, hle, hall⟩ := h
  obtain ⟨ok, bs⟩ := r
  have hcut : Stuck bs → Trace cfg md w ph₀.open x₀ (hs ++ [.cut]) (x.online p) := fun hst =>
    ht.silent hon htk (List.nil_append _).symm .nil hst
  cases ok with
  | false =>
      have hlt : bs.length < 28 := hle.lt_of_ne fun h => (nomatch hall.mpr h)
      exact ⟨_, _, hx₁, hr.online p, hcut (.short hlt), .inl ⟨hs, rfl⟩⟩
  | true =>
      have hlen : bs.length = 28 := hall.mp rfl
      rw [if_neg (by simp)]
      by_cases hmg : (parseHdr bs).magic ≠ requestMagic
      · rw [if_pos hmg]
        exact ⟨_, _, hx₁, hr.online p, hcut (.magic hlen hmg), .inl ⟨hs, rfl⟩⟩
      rw [if_neg hmg]
      rw [not_not] at hmg
      by_cases hd : (parseHdr bs).cmd = .disc
      · rw [if_pos hd]
        exact ⟨_, _, hx₁, hr.online p, .disc ht hon ⟨hlen, hmg, hd⟩ htk, .inl ⟨hs, rfl⟩⟩
      rw [if_neg hd]
      refine wp_seq hi₁ (serveHdr_turn hi₁ hx₁ hr ht hon htk hlen hmg hd) fun t s₂ hi₂ h => ?_
      obtain ⟨hs', x', hx', hr', ht', hfit⟩ := h
      obtain ⟨t, m'⟩ := t
      cases t with
      | drop | disc => exact ⟨hs', x', hx', hr', ht', .inl hfit⟩
      | go =>
          refine wp_seq hi₂ (running_spec hi₂ hx' hr') fun c s₃ _ hx₃ => ?_
          refine ⟨hs', x', hx₃, hr', ht', ?_⟩
          cases c with
          | true => exact hfit
          | false => exact hfit

end Round

/-! ## Reading a trace -/

section Reading

variable {on : Bool} {hs : List Hap}

/-- What is known of a request in a group that was answered. -/
structure Answered (cfg : Config) (fs : List Fault) (i : ℕ) (d : Done) : Prop where
  err : d.err = if d.req.Oob cfg then .einval else verdict (faultsFor i fs)
  eio : d.err ≠ .eio
  out : d.out.length = if d.req.cmd = .read ∧ d.err = .ok then d.req.len else 0

theorem Carried.out {ds : List Done} {i : ℕ} {d : Done} (h : Carried cfg md w x ds x')
    (hd : ds[i]? = some d) :
    d.out.length = if d.req.cmd = .read ∧ d.err = .ok then d.req.len else 0 := by
  obtain ⟨is, hg, -⟩ := h.script
  cases hg with
  | intro hok _ _ _ => exact (hok d (List.mem_of_getElem? hd)).out

theorem Trace.answered {ds : List Done} {fs : List Fault} (h : Trace cfg md w on x₀ hs x)
    (hg : .group ds fs ∈ hs) {i : ℕ} {d : Done} (hd : ds[i]? = some d) :
    Answered cfg fs i d := by
  induction h with
  | nil => cases hg
  | group ht hon hf hc hne htk ih =>
      rcases List.mem_append.mp hg with hg | hg
      · exact ih hg
      · cases List.mem_singleton.mp hg
        exact ⟨hc.errs i d hd, hne d (List.mem_of_getElem? hd), hc.out hd⟩
  | accept inp eof ht ih =>
      rcases List.mem_append.mp hg with hg | hg
      · exact ih hg
      · cases List.mem_singleton.mp hg
  | disc ht hon hd' htk ih =>
      rcases List.mem_append.mp hg with hg | hg
      · exact ih hg
      · cases List.mem_singleton.mp hg
  | cut ht hon htk hc ih =>
      rcases List.mem_append.mp hg with hg | hg
      · exact ih hg
      · cases List.mem_singleton.mp hg

end Reading

/-! ## All threads -/

section Daemon

variable {base : ℕ → Local} {start : ℕ → Phase}

theorem extentsLog_spec (hi : Inv cfg md s) (hx : Loc cfg w x s) (hr : x.Rest md) :
    wp (contract cfg md) w extentsLog (fun _ s' => Loc cfg w x s') s := by
  have hl := hr.locks
  unfold extentsLog
  refine wp_seq hi (lockAlloc_spec hi hx (by simp [hl])) fun _ s₁ hi₁ hx₁ => ?_
  exact unlockAlloc_spec hi₁ hx₁ (by simp [hl])

/-- **Every round of every thread keeps the loop invariant.** -/
theorem next_post {ph : Phase} (hi : Inv cfg md s) (h : Post cfg md base start w ph s) :
    wp (contract cfg md) w (next cfg ph) (Post cfg md base start w) s := by
  obtain ⟨hs, x, hx, hr, ht, hfit⟩ := h
  cases ph with
  | logging =>
      refine wp_seq hi (extentsLog_spec hi hx hr) fun _ s₁ _ hx₁ => ?_
      exact ⟨hs, x, hx₁, hr, ht, trivial⟩
  | serving m => exact serve_turn hi hx hr ht hfit
  | stopped m => exact ⟨hs, x, hx, hr, ht, trivial⟩
  | ended why m =>
      refine wp_seq hi (running_spec hi hx hr) fun c s₁ _ hx₁ => ?_
      refine ⟨hs, x, hx₁, hr, ht, ?_⟩
      cases c <;> exact trivial
  | waiting m =>
      refine wp_seq hi (accept_spec hi hx hr) fun c s₁ hi₁ h => ?_
      rcases h with ⟨rfl, hx₁⟩ | ⟨inp, eof, rfl, hx₁⟩
      · refine wp_seq hi₁ (running_spec hi₁ hx₁ hr) fun c s₂ _ hx₂ => ?_
        refine ⟨hs, x, hx₂, hr, ht, ?_⟩
        cases c <;> exact trivial
      · have hr₁ : Local.Rest md { x with priv := { x.priv with
            net := ⟨inp, eof, [], [], x.priv.net.conn + 1, false⟩, faults := [] } } :=
          hr.after hr.locks hr.entry rfl rfl rfl hr.quiet le_rfl
        refine wp_seq hi₁ (running_spec hi₁ hx₁ hr₁) fun c s₂ _ hx₂ => ?_
        refine ⟨_, _, hx₂, hr₁, .accept inp eof ht, ?_⟩
        have hopen : (hs ++ [Hap.accept]).foldl Hap.open (start w).open = true := by
          rw [List.foldl_append]
          rfl
        cases c <;> exact hopen

theorem Daemon.rounds (cfg : Config) (md : Mode) (base : ℕ → Local) (start : ℕ → Phase) :
    Rounds (contract cfg md) (fun _ => next cfg) (Post cfg md base start) := by
  refine ⟨fun w ph s s' he h => ?_, fun w ph s hi h => next_post hi h⟩
  obtain ⟨hs, x, hx, h⟩ := h
  exact ⟨hs, x, Loc.stable cfg md w x s s' he hx, h⟩

theorem State.Initial.quiet (h : s.Initial cfg) (w : ℕ) : Quiet md w s :=
  ⟨fun m => by simp [h.lock], h.pend w, h.disp w, fun _ g hg => by simp [h.resv w] at hg⟩

/-- The phase of a worker at rest. -/
def Daemon.phase (S : Daemon cfg) (w : ℕ) : Phase :=
  match S.prog w with
  | .ret ph => ph
  | .act _ _ => .logging

theorem Daemon.phase_eq {S : Daemon cfg} {ph : Phase} (h : S.prog w = .ret ph) :
    S.phase w = ph := by
  rw [Daemon.phase, h]

/-- The loop invariant of a worker that rests: its trace from here on is empty. -/
theorem Quiet.post {ph : Phase} (hq : Quiet md w s) (hb : (s.priv w).busy = false)
    (hs : md.since ≤ s.log.length) (hx : base w = s.known cfg w) (hp : start w = ph) :
    Post cfg md base start w ph s := by
  refine ⟨[], s.known cfg w, hq.loc, hq.rest hb hs, ?_, ?_⟩
  · rw [hx]
    exact .nil
  · rw [hp]
    exact ph.fits_nil

/-- The traces of a daemon that has just started. -/
theorem Daemon.Initial.safe {S : Daemon cfg} (h : Daemon.Initial cfg S) (hs : md.since = 0) :
    Safe (contract cfg md) (Post cfg md (S.st.known cfg) S.phase) S := by
  refine ⟨h.1.inv, fun w => ?_⟩
  obtain ⟨ph, hp⟩ : ∃ ph, S.prog w = .ret ph := (h.2 w).elim (fun hp => ⟨_, hp⟩) fun ⟨m, hp⟩ => ⟨_, hp⟩
  have hpost : Post cfg md (S.st.known cfg) S.phase w ph S.st :=
    (h.1.quiet w).post (h.1.busy w) (by rw [hs]; exact Nat.zero_le _) rfl (Daemon.phase_eq hp)
  rw [hp]
  exact hpost

/-- **Every reachable state is safe.** -/
theorem Daemon.Reachable.safe {S : Daemon cfg} (h : Daemon.Reachable cfg md S) (hs : md.since = 0) :
    ∃ S₀ : Daemon cfg, Daemon.Initial cfg S₀ ∧
      Safe (contract cfg md) (Post cfg md (S₀.st.known cfg) S₀.phase) S := by
  obtain ⟨S₀, h0, hrun⟩ := h
  exact ⟨S₀, h0, (h0.safe hs).run (Daemon.rounds cfg md _ _) hrun⟩

theorem Daemon.Reachable.inv {S : Daemon cfg} (h : Daemon.Reachable cfg md S) (hs : md.since = 0) :
    Inv cfg md S.st := by
  obtain ⟨S₀, -, hsafe⟩ := h.safe hs
  exact hsafe.1

/-- Every next action meets its condition. -/
theorem Daemon.Reachable.pre {S : Daemon cfg} (h : Daemon.Reachable cfg md S) (hs : md.since = 0)
    {o : Op} {k : o.Res → Interleave.Prog sig Phase}
    (hw : unfold (next cfg) (S.prog w) = .act (σ := sig) o k) : Pre cfg md w o S.st := by
  obtain ⟨S₀, -, hsafe⟩ := h.safe hs
  exact hsafe.pre (Daemon.rounds cfg md _ _) hw

end Daemon

end NbdVram
