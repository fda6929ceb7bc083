import NbdVram.Range

/-!
# Talking to a client

`recv_all`, `send_all` and `recv_hdr_nb` move bytes between a worker and its
connection, in pieces of any size. A stream of requests is cut by a plain sequential
parser, header by header; a reply is a header that echoes the handle, followed by the
data of a READ.
-/

namespace NbdVram

open Interleave Span MutationLog

variable {cfg : Config} {md : Mode} {s s' : State} {w n : ℕ} {x : Local} {p p' : Net}

/-! ## Requests in a byte stream -/

/-- The bytes that follow a header. -/
def Hdr.payload (h : Hdr) : ℕ := if h.cmd = .write then h.len else 0

/-- The first request of a byte stream and what follows it; `none` where the stream goes on with
a broken or incomplete request, or with DISC. -/
def parseReq (bs : List UInt8) : Option (Req × List UInt8) :=
  let h := parseHdr (bs.take 28)
  if 28 ≤ bs.length ∧ h.magic = requestMagic ∧ h.cmd ≠ .disc ∧ 28 + h.payload ≤ bs.length then
    some (h.req ((bs.drop 28).take h.payload), bs.drop (28 + h.payload))
  else none

theorem parseReq_length {bs rest : List UInt8} {r : Req} (h : parseReq bs = some (r, rest)) :
    rest.length < bs.length := by
  simp only [parseReq] at h
  split at h
  · rename_i hc
    cases h
    rw [List.length_drop]
    omega
  · cases h

/-- The sequential parser: all requests of a byte stream, and what follows the last one. -/
def parse (bs : List UInt8) : List Req × List UInt8 :=
  match h : parseReq bs with
  | none => ([], bs)
  | some (r, rest) => (r :: (parse rest).1, (parse rest).2)
termination_by bs.length
decreasing_by all_goals exact parseReq_length h

/-- `raw` is request `r` on the wire: a header, and after a WRITE's header its payload. -/
structure Frame (raw : List UInt8) (r : Req) : Prop where
  len : 28 ≤ raw.length
  magic : (parseHdr (raw.take 28)).magic = requestMagic
  cmd : (parseHdr (raw.take 28)).cmd ≠ .disc
  payload : raw.length = 28 + (parseHdr (raw.take 28)).payload
  req : r = (parseHdr (raw.take 28)).req (raw.drop 28)

/-- A DISC header. -/
structure DiscHdr (raw : List UInt8) : Prop where
  len : raw.length = 28
  magic : (parseHdr raw).magic = requestMagic
  cmd : (parseHdr raw).cmd = .disc

variable {raw rest : List UInt8} {r : Req} {rs : List Req}

theorem Frame.intro {hb data : List UInt8} (h1 : hb.length = 28)
    (h2 : (parseHdr hb).magic = requestMagic) (h3 : (parseHdr hb).cmd ≠ .disc)
    (h4 : data.length = (parseHdr hb).payload) : Frame (hb ++ data) ((parseHdr hb).req data) := by
  have ht : (hb ++ data).take 28 = hb := List.take_left' h1
  refine ⟨?_, by rwa [ht], by rwa [ht], ?_, ?_⟩
  · rw [List.length_append]
    omega
  · rw [ht, List.length_append, h1, h4]
  · rw [ht, List.drop_left' h1]

theorem parse_frame (h : Frame raw r) :
    parse (raw ++ rest) = (r :: (parse rest).1, (parse rest).2) := by
  have ht : (raw ++ rest).take 28 = raw.take 28 := List.take_append_of_le_length h.len
  have hd : ((raw ++ rest).drop 28).take (parseHdr (raw.take 28)).payload = raw.drop 28 := by
    rw [List.drop_append_of_le_length h.len, List.take_left']
    rw [List.length_drop, h.payload, Nat.add_sub_cancel_left]
  have hone : parseReq (raw ++ rest) = some (r, rest) := by
    have hle : raw.length ≤ (raw ++ rest).length := by simp
    simp only [parseReq]
    rw [ht, hd, ← h.req, ← h.payload, List.drop_left]
    exact if_pos ⟨h.len.trans hle, h.magic, h.cmd, hle⟩
  rw [parse]
  split
  · rename_i h'
    rw [hone] at h'
    cases h'
  · rename_i h'
    rw [hone] at h'
    cases h'
    rfl

/-- The parser stops at DISC. -/
theorem parse_disc (h : DiscHdr raw) : parse (raw ++ rest) = ([], raw ++ rest) := by
  have ht : (raw ++ rest).take 28 = raw := List.take_left' h.len
  have hone : parseReq (raw ++ rest) = none := by
    simp only [parseReq]
    rw [ht, if_neg]
    exact fun hc => hc.2.2.1 h.cmd
  rw [parse]
  split
  · rfl
  · rename_i h'
    rw [hone] at h'
    cases h'

/-- What keeps a client from having its next request read: the header is incomplete or has a bad
magic number, or the payload of a WRITE is incomplete. -/
inductive Stuck (raw : List UInt8) : Prop
  | short : raw.length < 28 → Stuck raw
  | magic : raw.length = 28 → (parseHdr raw).magic ≠ requestMagic → Stuck raw
  | payload : 28 ≤ raw.length → (parseHdr (raw.take 28)).cmd = .write →
      raw.length < 28 + (parseHdr (raw.take 28)).len → Stuck raw

theorem Stuck.intro {hb data : List UInt8} (h1 : hb.length = 28) (h2 : (parseHdr hb).cmd = .write)
    (h3 : data.length < (parseHdr hb).len) : Stuck (hb ++ data) := by
  have ht : (hb ++ data).take 28 = hb := List.take_left' h1
  refine .payload ?_ (by rwa [ht]) ?_
  · rw [List.length_append]
    omega
  · rw [ht, List.length_append]
    omega

/-- The parser stops there too. -/
theorem Stuck.parse (h : Stuck raw) : parse raw = ([], raw) := by
  have hone : parseReq raw = none := by
    simp only [parseReq]
    rw [if_neg]
    rintro ⟨h1, h2, h3, h4⟩
    cases h with
    | short h => omega
    | magic h h' => exact h' (by rwa [List.take_of_length_le (by omega)] at h2)
    | payload h h' h'' =>
        rw [Hdr.payload, if_pos h'] at h4
        omega
  rw [NbdVram.parse]
  split
  · rfl
  · rename_i h'
    rw [hone] at h'
    cases h'

theorem parse_nil : parse [] = ([], []) := Stuck.parse (.short (by decide))

theorem DiscHdr.parse (h : DiscHdr raw) : parse raw = ([], raw) := by
  have hp : NbdVram.parse (raw ++ []) = ([], raw ++ []) := parse_disc h
  rwa [List.append_nil] at hp

/-- `raw` is the requests `rs`, one after the other. -/
inductive Frames : List UInt8 → List Req → Prop
  | nil : Frames [] []
  | snoc {raw raw' : List UInt8} {rs : List Req} {r : Req} : Frames raw rs → Frame raw' r →
      Frames (raw ++ raw') (rs ++ [r])

theorem Frames.append {raw' : List UInt8} {rs' : List Req} (h : Frames raw rs)
    (h' : Frames raw' rs') : Frames (raw ++ raw') (rs ++ rs') := by
  induction h' with
  | nil => simpa using h
  | snoc _ hf ih =>
      rw [← List.append_assoc, ← List.append_assoc]
      exact .snoc ih hf

theorem Frames.one (h : Frame raw r) : Frames raw [r] := .snoc .nil h

/-- A WRITE comes with its payload. -/
theorem Frame.data (h : Frame raw r) (hc : r.cmd = .write) : r.data.length = r.len := by
  have hlen := h.payload
  rw [h.req] at hc ⊢
  have hcmd : (parseHdr (raw.take 28)).cmd = .write := hc
  rw [Hdr.payload, if_pos hcmd] at hlen
  show (raw.drop 28).length = _
  rw [List.length_drop, hlen]
  exact Nat.add_sub_cancel_left ..

theorem Frames.data (h : Frames raw rs) : ∀ r ∈ rs, r.cmd = .write → r.data.length = r.len := by
  induction h with
  | nil => exact fun r hr => nomatch hr
  | snoc _ hf ih =>
      intro r hr hc
      rcases List.mem_append.mp hr with hr | hr
      · exact ih r hr hc
      · obtain rfl := List.mem_singleton.mp hr
        exact hf.data hc

/-- **What was cut from the stream frame by frame is what the sequential parser finds.** -/
theorem Frames.parse (h : Frames raw rs) :
    parse (raw ++ rest) = (rs ++ (NbdVram.parse rest).1, (NbdVram.parse rest).2) := by
  induction h generalizing rest with
  | nil => simp
  | snoc _ hf ih =>
      rw [List.append_assoc, ih, parse_frame hf]
      simp

/-! ## Progress of a connection -/

/-- `gin` was received and `gout` was sent. -/
structure Talked (p p' : Net) (gin gout : List UInt8) : Prop where
  got : p'.got = p.got ++ gin
  out : p'.out = p.out ++ gout
  inp : p.inp = gin ++ p'.inp
  eof : p'.eof = p.eof
  conn : p'.conn = p.conn

namespace Talked

variable {p'' : Net} {gin gout gin' gout' : List UInt8}

theorem refl : Talked p p [] [] := ⟨by simp, by simp, by simp, rfl, rfl⟩

theorem trans (h : Talked p p' gin gout) (h' : Talked p' p'' gin' gout') :
    Talked p p'' (gin ++ gin') (gout ++ gout') :=
  ⟨by rw [h'.got, h.got, List.append_assoc], by rw [h'.out, h.out, List.append_assoc],
    by rw [h.inp, h'.inp, List.append_assoc], h'.eof.trans h.eof, h'.conn.trans h.conn⟩

theorem take (p : Net) (k : ℕ) : Talked p (p.take k) (p.inp.take k) [] :=
  ⟨rfl, by simp [Net.take], by simp [Net.take], rfl, rfl⟩

theorem broke (p : Net) : Talked p { p with down := true } [] [] :=
  ⟨by simp, by simp, by simp, rfl, rfl⟩

theorem put (p : Net) (bs : List UInt8) : Talked p (p.put bs) [] bs :=
  ⟨by simp [Net.put], rfl, by simp [Net.put], rfl, rfl⟩

end Talked

/-- What is known, with another state of the connection. -/
def Local.online (x : Local) (p : Net) : Local := { x with priv := { x.priv with net := p } }

@[simp] theorem online_net (x : Local) (p : Net) : (x.online p).priv.net = p := rfl

@[simp] theorem online_online (x : Local) (p p' : Net) :
    (x.online p).online p' = x.online p' := rfl

theorem online_self (x : Local) : x.online x.priv.net = x := rfl

theorem Local.Rest.online (h : x.Rest md) (p : Net) : (x.online p).Rest md :=
  ⟨h.locks, h.entry, h.disp, h.calm, h.target, h.resv, h.busy, h.since⟩

theorem recvLoop_spec {fuel : ℕ} {acc : List UInt8} (hi : Inv cfg md s) (hx : Loc cfg w x s)
    (hr : x.Rest md) (hf : n ≤ fuel) :
    wp (contract cfg md) w (recvLoop fuel n acc) (fun r s' => ∃ p' gin,
      Loc cfg w (x.online p') s' ∧ Talked x.priv.net p' gin [] ∧ r.2 = acc ++ gin ∧
      gin.length ≤ n ∧ (r.1 = true ↔ gin.length = n)) s := by
  induction fuel generalizing x s n acc with
  | zero =>
      refine ⟨_, [], hx, .refl, by simp, by simp, iff_of_true rfl ?_⟩
      simp only [List.length_nil]
      omega
  | succ fuel ih =>
      unfold recvLoop
      by_cases hz : n = 0
      · rw [if_pos hz]
        exact ⟨_, [], hx, .refl, by simp, by simp, iff_of_true rfl (by simp [hz])⟩
      rw [if_neg hz]
      refine wp_seq hi (recv_spec hi hx hr (by omega)) fun r s₁ hi₁ h => ?_
      rcases h with ⟨rfl, hx₁⟩ | ⟨k, hpos, hle, hlen, rfl, hx₁⟩
      · exact ⟨_, [], hx₁, .refl, by simp, by simp,
          iff_of_false (by simp) fun h => hz (by simpa using h.symm)⟩
      · have htk : (x.priv.net.inp.take k).length = k := by
          rw [List.length_take]
          omega
        dsimp only
        rw [htk]
        refine wp_mono hi₁ (ih hi₁ hx₁ (hr.online _) (by omega)) fun r s₂ _ h => ?_
        obtain ⟨p', gin, hx₂, ht, hacc, hgl, hgn⟩ := h
        refine ⟨p', x.priv.net.inp.take k ++ gin, hx₂, (Talked.take _ k).trans ht, ?_, ?_, ?_⟩
        · rw [hacc, List.append_assoc]
        · rw [List.length_append, htk]
          omega
        · rw [hgn, List.length_append, htk]
          omega

theorem recvAll_spec (hi : Inv cfg md s) (hx : Loc cfg w x s) (hr : x.Rest md) :
    wp (contract cfg md) w (recvAll n) (fun r s' => ∃ p', Loc cfg w (x.online p') s' ∧
      Talked x.priv.net p' r.2 [] ∧ r.2.length ≤ n ∧ (r.1 = true ↔ r.2.length = n)) s := by
  unfold recvAll
  refine wp_mono hi (recvLoop_spec hi hx hr le_rfl) fun r s' _ h => ?_
  obtain ⟨p', gin, h1, h2, h3, h4⟩ := h
  rw [List.nil_append] at h3
  rw [h3]
  exact ⟨p', h1, h2, h4⟩

theorem sendLoop_spec {fuel : ℕ} {bs : List UInt8} (hi : Inv cfg md s) (hx : Loc cfg w x s)
    (hr : x.Rest md) (hf : bs.length ≤ fuel) :
    wp (contract cfg md) w (sendLoop fuel bs) (fun ok s' => ∃ p' gout rest,
      Loc cfg w (x.online p') s' ∧ Talked x.priv.net p' [] gout ∧ bs = gout ++ rest ∧
      (ok = true ↔ rest = []) ∧ (ok = false → p'.down = true)) s := by
  induction fuel generalizing x s bs with
  | zero =>
      have hnil : bs = [] := List.length_eq_zero_iff.mp (by omega)
      exact ⟨_, [], [], hx, .refl, by simp [hnil], by simp, by simp⟩
  | succ fuel ih =>
      unfold sendLoop
      by_cases hz : bs.length = 0
      · rw [if_pos hz]
        exact ⟨_, [], [], hx, .refl, by simp [List.length_eq_zero_iff.mp hz], by simp, by simp⟩
      rw [if_neg hz]
      refine wp_seq hi (send_spec hi hx hr (by omega)) fun r s₁ hi₁ h => ?_
      rcases h with ⟨rfl, hx₁⟩ | ⟨k, hpos, hle, rfl, hx₁⟩
      · refine ⟨_, [], bs, hx₁, .broke _, rfl, iff_of_false (by simp) fun h => hz ?_, fun _ => rfl⟩
        rw [h, List.length_nil]
      · refine wp_mono hi₁ (ih hi₁ hx₁ (hr.online _) (by rw [List.length_drop]; omega))
          fun ok s₂ _ h => ?_
        obtain ⟨p', gout, rest, hx₂, ht, hbs, hok⟩ := h
        refine ⟨p', bs.take k ++ gout, rest, hx₂, (Talked.put _ _).trans ht, ?_, hok⟩
        rw [List.append_assoc, ← hbs, List.take_append_drop]

/-- What was sent is a part of what was to be sent, all of it unless the connection failed. -/
theorem sendAll_spec {bs : List UInt8} (hi : Inv cfg md s) (hx : Loc cfg w x s) (hr : x.Rest md) :
    wp (contract cfg md) w (sendAll bs) (fun ok s' => ∃ p' gout rest,
      Loc cfg w (x.online p') s' ∧ Talked x.priv.net p' [] gout ∧ bs = gout ++ rest ∧
      (ok = true ↔ rest = []) ∧ (ok = false → p'.down = true)) s := by
  unfold sendAll
  exact sendLoop_spec hi hx hr le_rfl

/-- `recv_hdr_nb`: a header that has begun to arrive is received in full. -/
theorem recvHdrNb_spec (hi : Inv cfg md s) (hx : Loc cfg w x s) (hr : x.Rest md) :
    wp (contract cfg md) w recvHdrNb (fun r s' => ∃ p' gin, Loc cfg w (x.online p') s' ∧
      Talked x.priv.net p' gin [] ∧ (r = .closed ∧ gin.length < 28 ∨ r = .empty ∧ gin = [] ∨
        gin.length = 28 ∧ r = .got (parseHdr gin))) s := by
  unfold recvHdrNb
  refine wp_seq hi (recvNb_spec hi hx hr) fun r s₁ hi₁ h => ?_
  rcases h with ⟨rfl | rfl, hx₁⟩ | ⟨k, hpos, hle, hlen, rfl, hx₁⟩
  · exact ⟨_, [], hx₁, .refl, .inl ⟨rfl, by simp⟩⟩
  · exact ⟨_, [], hx₁, .refl, .inr (.inl ⟨rfl, rfl⟩)⟩
  · have htk : (x.priv.net.inp.take k).length = k := by
      rw [List.length_take]
      omega
    dsimp only
    rw [htk]
    by_cases h28 : k = 28
    · rw [if_pos h28]
      exact ⟨_, _, hx₁, Talked.take _ k, .inr (.inr ⟨htk.trans h28, rfl⟩)⟩
    · rw [if_neg h28]
      refine wp_seq hi₁ (recvAll_spec hi₁ hx₁ (hr.online _)) fun r s₂ _ h => ?_
      obtain ⟨p', hx₂, ht, hle', hall⟩ := h
      obtain ⟨ok, bs⟩ := r
      cases ok with
      | false =>
          refine ⟨p', _, hx₂, (Talked.take _ k).trans ht, .inl ⟨rfl, ?_⟩⟩
          have := hle'.lt_of_ne fun h => (nomatch hall.mpr h)
          rw [List.length_append, htk]
          omega
      | true =>
          refine ⟨p', _, hx₂, (Talked.take _ k).trans ht, .inr (.inr ⟨?_, rfl⟩)⟩
          rw [List.length_append, htk, hall.mp rfl]
          omega

end NbdVram
