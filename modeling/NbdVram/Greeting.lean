import NbdVram.Handshake
import NbdVram.Lib.Discipline

/-!
# A handshake as a thread sees it

`handle_client` from its first byte on: after `accept` it greets the client, answers its
options, and only then enters the request loop. Between two options a worker may wait
for as long as it likes, so the option loop is cut into rounds.

What a program does with its socket is followed on a tape: the bytes received and
sent so far. `Hears` says which tape a program leaves whatever its receives and sends
answer, and a handshake that succeeds leaves the tape of a whole one (`Shaken`).
-/

namespace NbdVram

open Interleave Prog

variable {cfg : Config} {α β : Type} {w : ℕ}

/-! ## The source -/

/-- Where a worker stands, with the handshake. -/
inductive Station
  | phase (ph : Phase)
  /-- in the option loop of `nbd_handshake` -/
  | haggling (noZeroes : Bool) (m : Mem)
  /-- `nbd_handshake` has returned 0 -/
  | shaken (m : Mem)

/-- `nbd_handshake` up to its option loop. -/
def greet (m : Mem) : Prog sig Station := do
  let ok ← sendAll greeting
  if ok = false then pure (.phase (.ended .drop m))
  else
    let r ← recvAll 4
    if r.1 = false then pure (.phase (.ended .drop m)) else pure (.haggling (noZeroes r.2) m)

/-- One round of the option loop. -/
def haggleRound (cfg : Config) (nz : Bool) (m : Mem) : Prog sig Station := do
  let a ← answerOption cfg.diskSize nz
  match a with
  | some true => pure (.shaken m)
  | some false => pure (.phase (.ended .drop m))
  | none => pure (.haggling nz m)

/-- The next round of a worker. After a good handshake it tests `g_running`, after a bad one the
connection is closed. -/
def Station.next (cfg : Config) : Station → Prog sig Station
  | .phase (.waiting m) => do
    let c ← accept
    if c = true then greet m
    else
      let on ← running
      pure (.phase (if on = true then .waiting m else .stopped m))
  | .phase ph => NbdVram.next cfg ph >>= fun ph' => pure (.phase ph')
  | .haggling nz m => haggleRound cfg nz m
  | .shaken m => do
    let on ← running
    pure (.phase (if on = true then .serving m else .ended .stop m))

/-! ## What a program hears -/

/-- What a connection has recorded: the bytes received and sent, and whether a send has failed. -/
structure Tape where
  got : List UInt8
  out : List UInt8
  down : Bool

def Net.tape (n : Net) : Tape := ⟨n.got, n.out, n.down⟩

def Tape.take (t : Tape) (bs : List UInt8) : Tape := { t with got := t.got ++ bs }

def Tape.put (t : Tape) (bs : List UInt8) : Tape := { t with out := t.out ++ bs }

/-- The tape after an answer of the socket; `none` for an answer that a socket does not give. -/
def Op.hear (t : Tape) : (o : Op) → o.Res → Option Tape
  | .recv n, r =>
    match (r : Option (List UInt8)) with
    | none => some t
    | some bs => if (n = 0 ∨ 0 < bs.length) ∧ bs.length ≤ n then some (t.take bs) else none
  | .send bs, r =>
    match (r : Option ℕ) with
    | none => some { t with down := true }
    | some k => if (bs = [] ∨ 0 < k) ∧ k ≤ bs.length then some (t.put (bs.take k)) else none
  | _, _ => some t

/-- The discipline to use the socket only, and to keep the tape. -/
def taping : Discipline sig where
  State := Option Tape
  ok g o := g = none ∨ (∃ n, o = Op.recv n) ∨ ∃ bs, o = Op.send bs
  next g o r := g.bind fun t => Op.hear t o r

/-- With the tape `t` before it the program uses the socket only, and ends with `Q` of its result
and the tape. -/
def Hears (p : Prog sig α) (t : Tape) (Q : α → Tape → Prop) : Prop :=
  Keeps taping p (some t) fun a (g : Option Tape) => ∀ t, g = some t → Q a t

/-- Nothing is asked of a run with an impossible answer. -/
theorem keeps_impossible (p : Prog sig α) (Q : α → Tape → Prop) :
    Keeps taping p (none : Option Tape) fun a (g : Option Tape) => ∀ t, g = some t → Q a t := by
  induction p with
  | ret a => exact fun t h => by cases h
  | act op k ih => exact ⟨.inl rfl, fun r => ih r⟩

namespace Hears

variable {t : Tape} {P P' : α → Tape → Prop} {Q : β → Tape → Prop}

theorem ret {a : α} (h : P a t) : Hears (.ret a) t P := by
  intro t' ht
  cases ht
  exact h

theorem mono {p : Prog sig α} (h : Hears p t P) (hP : ∀ a t, P a t → P' a t) : Hears p t P' :=
  Keeps.mono h fun a _ hg t ht => hP a t (hg t ht)

theorem bind {p : Prog sig α} {f : α → Prog sig β} (h : Hears p t P)
    (hf : ∀ a t, P a t → Hears (f a) t Q) : Hears (p >>= f) t Q := by
  refine Keeps.seq h fun a (g : Option Tape) hg => ?_
  cases g with
  | none => exact keeps_impossible _ _
  | some t => exact hf a t (hg t rfl)

/-- A program that says whether it succeeded, and the rest for both cases. -/
theorem passed {p : Prog sig Bool} {f : Bool → Prog sig α} {t' : Tape}
    (h : Hears p t fun ok t₁ => ok = true → t₁ = t') (hfail : ∀ t₁, Hears (f false) t₁ P)
    (hok : Hears (f true) t' P) : Hears (p >>= f) t P := by
  refine h.bind fun ok t₁ ht => ?_
  cases ok with
  | false => exact hfail t₁
  | true =>
      rw [ht rfl]
      exact hok

/-- One receive, and the rest. -/
theorem recv {n : ℕ} {k : Option (List UInt8) → Prog sig α} (h : Hears (k none) t P)
    (hk : ∀ bs, (n = 0 ∨ 0 < bs.length) ∧ bs.length ≤ n → Hears (k (some bs)) (t.take bs) P) :
    Hears (.act (σ := sig) (Op.recv n) k) t P := by
  refine ⟨.inr (.inl ⟨n, rfl⟩), fun (r : Option (List UInt8)) => ?_⟩
  cases r with
  | none => exact h
  | some bs =>
      show Keeps taping (k (some bs)) (Op.hear t (.recv n) (some bs)) _
      by_cases hbs : (n = 0 ∨ 0 < bs.length) ∧ bs.length ≤ n
      · rw [show Op.hear t (.recv n) (some bs) = some (t.take bs) from if_pos hbs]
        exact hk bs hbs
      · rw [show Op.hear t (.recv n) (some bs) = none from if_neg hbs]
        exact keeps_impossible _ _

/-- One send, and the rest. -/
theorem send {bs : List UInt8} {k : Option ℕ → Prog sig α}
    (h : Hears (k none) { t with down := true } P)
    (hk : ∀ n, (bs = [] ∨ 0 < n) ∧ n ≤ bs.length → Hears (k (some n)) (t.put (bs.take n)) P) :
    Hears (.act (σ := sig) (Op.send bs) k) t P := by
  refine ⟨.inr (.inr ⟨bs, rfl⟩), fun (r : Option ℕ) => ?_⟩
  cases r with
  | none => exact h
  | some n =>
      show Keeps taping (k (some n)) (Op.hear t (.send bs) (some n)) _
      by_cases hn : (bs = [] ∨ 0 < n) ∧ n ≤ bs.length
      · rw [show Op.hear t (.send bs) (some n) = some (t.put (bs.take n)) from if_pos hn]
        exact hk n hn
      · rw [show Op.hear t (.send bs) (some n) = none from if_neg hn]
        exact keeps_impossible _ _

end Hears

theorem Tape.take_nil (t : Tape) : t.take [] = t := by
  rw [Tape.take, List.append_nil]

theorem Tape.put_nil (t : Tape) : t.put [] = t := by
  rw [Tape.put, List.append_nil]

theorem Tape.take_take (t : Tape) (bs bs' : List UInt8) :
    (t.take bs).take bs' = t.take (bs ++ bs') := by
  simp only [Tape.take, List.append_assoc]

theorem Tape.put_put (t : Tape) (bs bs' : List UInt8) : (t.put bs).put bs' = t.put (bs ++ bs') := by
  simp only [Tape.put, List.append_assoc]

variable {t : Tape}

theorem recvLoop_hears {fuel n : ℕ} (acc : List UInt8) (hf : n ≤ fuel) :
    Hears (recvLoop fuel n acc) t fun r t' =>
      ∃ bs, t' = t.take bs ∧ r.2 = acc ++ bs ∧ (r.1 = true → bs.length = n) := by
  induction fuel generalizing n acc t with
  | zero =>
      obtain rfl : n = 0 := by omega
      exact .ret ⟨[], t.take_nil.symm, (List.append_nil acc).symm, fun _ => rfl⟩
  | succ fuel ih =>
      unfold recvLoop
      split
      · exact .ret ⟨[], t.take_nil.symm, (List.append_nil acc).symm, fun _ => Eq.symm ‹n = 0›⟩
      refine .recv (.ret ⟨[], t.take_nil.symm, (List.append_nil acc).symm, fun h => by cases h⟩)
        fun bs hbs => ?_
      refine (ih (acc ++ bs) (by omega)).mono fun r t' h => ?_
      obtain ⟨bs', ht', hr, hlen⟩ := h
      refine ⟨bs ++ bs', by rw [ht', Tape.take_take], by rw [hr, List.append_assoc], fun hok => ?_⟩
      have := hlen hok
      rw [List.length_append]
      omega

theorem recvAll_hears (n : ℕ) : Hears (recvAll n) t fun r t' =>
    t' = t.take r.2 ∧ (r.1 = true → r.2.length = n) := by
  refine (recvLoop_hears [] le_rfl).mono fun r t' h => ?_
  obtain ⟨bs, ht', hr, hlen⟩ := h
  rw [hr]
  exact ⟨ht', hlen⟩

theorem sendLoop_hears {fuel : ℕ} (bs : List UInt8) (hf : bs.length ≤ fuel) :
    Hears (sendLoop fuel bs) t fun ok t' => ok = true → t' = t.put bs := by
  induction fuel generalizing bs t with
  | zero =>
      obtain rfl : bs = [] := List.length_eq_zero_iff.mp (by omega)
      exact .ret fun _ => t.put_nil.symm
  | succ fuel ih =>
      unfold sendLoop
      split
      · obtain rfl : bs = [] := List.length_eq_zero_iff.mp ‹_›
        exact .ret fun _ => t.put_nil.symm
      rename_i hz
      refine .send (.ret fun h => by cases h) fun k hk => ?_
      have hpos : 0 < k := hk.1.resolve_left fun h => hz (by rw [h]; rfl)
      refine (ih (bs.drop k) (by rw [List.length_drop]; omega)).mono fun ok t' h hok => ?_
      rw [h hok, Tape.put_put, List.take_append_drop]

theorem sendAll_hears (bs : List UInt8) :
    Hears (sendAll bs) t fun ok t' => ok = true → t' = t.put bs :=
  sendLoop_hears bs le_rfl

theorem drainLoop_hears {fuel len : ℕ} (hf : len ≤ fuel) :
    Hears (drainLoop fuel len) t fun ok t' =>
      ∃ bs, t' = t.take bs ∧ (ok = true → bs.length = len) := by
  induction fuel generalizing len t with
  | zero =>
      obtain rfl : len = 0 := by omega
      exact .ret ⟨[], t.take_nil.symm, fun _ => rfl⟩
  | succ fuel ih =>
      unfold drainLoop
      split
      · exact .ret ⟨[], t.take_nil.symm, fun _ => Eq.symm ‹len = 0›⟩
      dsimp only
      generalize hc : (if 4096 < len then 4096 else len) = chunk
      have hchunk : 0 < chunk ∧ chunk ≤ len := by
        rw [← hc]
        split <;> omega
      refine (recvAll_hears chunk).bind fun r t₁ h => ?_
      obtain ⟨rfl, hlen⟩ := h
      split
      · rename_i hbad
        exact .ret ⟨r.2, rfl, fun h => by cases h⟩
      rename_i hok
      have hgot := hlen (by simpa using hok)
      refine (ih (by omega)).mono fun ok t' h => ?_
      obtain ⟨bs', ht', hl⟩ := h
      refine ⟨r.2 ++ bs', by rw [ht', Tape.take_take], fun hok => ?_⟩
      have := hl hok
      rw [List.length_append]
      omega

theorem sendOptReply_hears (opt replyType : ℕ) (data : List UInt8) :
    Hears (sendOptReply opt replyType data) t fun ok t' =>
      ok = true → t' = t.put (packet opt replyType data) := by
  unfold sendOptReply
  refine (sendAll_hears _).passed (fun _ => .ret fun h => by cases h) ?_
  rw [if_neg (by decide)]
  split
  · refine (sendAll_hears data).mono fun ok t' h hok => ?_
    rw [h hok, Tape.put_put, packet]
  · rename_i hz
    obtain rfl : data = [] := List.length_eq_zero_iff.mp (by omega)
    refine .ret fun _ => ?_
    rw [packet, List.append_nil]

/-! ## What a handshake is -/

/-- So far the client has sent its flags and whole options that start nothing, and has been greeted
and answered. -/
def Greeted (cfg : Config) (nz : Bool) (t : Tape) : Prop :=
  ∃ (flags : List UInt8) (opts : List Opt), flags.length = 4 ∧ noZeroes flags = nz ∧
    (∀ o ∈ opts, o.Plain) ∧
    t = ⟨flags ++ opts.flatMap Opt.bytes,
      greeting ++ opts.flatMap (Opt.reply cfg.diskSize nz), false⟩

/-- A whole handshake: the last option is the one that starts the transmission. -/
def Shaken (cfg : Config) (t : Tape) : Prop :=
  ∃ (flags : List UInt8) (opts : List Opt) (o : Opt), flags.length = 4 ∧ (∀ o ∈ opts, o.Plain) ∧
    o.code < 2 ^ 32 ∧ (o.kind = .exportName ∨ o.kind = .go) ∧
    t = ⟨flags ++ (opts.flatMap Opt.bytes ++ o.bytes),
      greeting ++ (opts.flatMap (Opt.reply cfg.diskSize (noZeroes flags)) ++
        o.reply cfg.diskSize (noZeroes flags)), false⟩

/-- The tape after an option and its answer. -/
def Tape.answered (t : Tape) (cfg : Config) (nz : Bool) (o : Opt) : Tape :=
  (t.take o.bytes).put (o.reply cfg.diskSize nz)

theorem Greeted.more {nz : Bool} {o : Opt} (h : Greeted cfg nz t) (ho : o.Plain) :
    Greeted cfg nz (t.answered cfg nz o) := by
  obtain ⟨flags, opts, hl, hz, hp, rfl⟩ := h
  refine ⟨flags, opts ++ [o], hl, hz, fun o' ho' => ?_, ?_⟩
  · rcases List.mem_append.mp ho' with ho' | ho'
    · exact hp o' ho'
    · rw [List.mem_singleton.mp ho']
      exact ho
  · simp only [Tape.answered, Tape.take, Tape.put, List.flatMap_append, List.flatMap_singleton,
      List.append_assoc]

theorem Greeted.shaken {nz : Bool} {o : Opt} (h : Greeted cfg nz t) (hc : o.code < 2 ^ 32)
    (ho : o.kind = .exportName ∨ o.kind = .go) : Shaken cfg (t.answered cfg nz o) := by
  obtain ⟨flags, opts, hl, rfl, hp, rfl⟩ := h
  refine ⟨flags, opts, o, hl, hp, hc, ho, ?_⟩
  simp only [Tape.answered, Tape.take, Tape.put, List.append_assoc]

/-- An answer that is received in two parts is one option. -/
theorem optAt_parts {hd pl : List UInt8} (hlen : hd.length = 16) (hm : be (hd.take 8) = ihaveopt)
    (hpl : pl.length = be ((hd.drop 12).take 4)) :
    (optAt (hd ++ pl)).bytes = hd ++ pl ∧ (optAt (hd ++ pl)).code = be ((hd.drop 8).take 4) := by
  have hfield : ∀ i n, i + n ≤ 16 → ((hd ++ pl).drop i).take n = (hd.drop i).take n := by
    intro i n hin
    rw [List.drop_append_of_le_length (by omega), List.take_append_of_le_length]
    rw [List.length_drop]
    omega
  have hol : optLen (hd ++ pl) = pl.length := by
    rw [optLen, hfield 12 4 (by omega), hpl]
  have hlen' : (hd ++ pl).length = 16 + optLen (hd ++ pl) := by
    rw [List.length_append, hlen, hol]
  have hm' : be ((hd ++ pl).take 8) = ihaveopt := by
    rw [List.take_append_of_le_length (by omega), hm]
  refine ⟨?_, ?_⟩
  · have hb := optAt_bytes hm' hlen'.ge
    rwa [← hlen', List.drop_length, List.append_nil, eq_comm] at hb
  · show be (((hd ++ pl).drop 8).take 4) = _
    rw [hfield 8 4 (by omega)]

/-- **One option**: the connection has taken up the option and its answer, whole. -/
theorem answerOption_hears (nz : Bool) : Hears (answerOption cfg.diskSize nz) t fun a t' =>
    match a with
    | some true => ∃ o : Opt, o.code < 2 ^ 32 ∧ (o.kind = .exportName ∨ o.kind = .go) ∧
        t' = t.answered cfg nz o
    | some false => True
    | none => ∃ o : Opt, o.Plain ∧ t' = t.answered cfg nz o := by
  unfold answerOption
  refine (recvAll_hears 16).bind fun r t₁ h => ?_
  obtain ⟨rfl, hlen⟩ := h
  split
  · exact .ret trivial
  rename_i hok
  specialize hlen (by simpa using hok)
  split
  · exact .ret trivial
  rename_i hm
  dsimp only
  split
  · exact .ret trivial
  refine (drainLoop_hears le_rfl).bind fun drained t₂ h => ?_
  obtain ⟨pl, rfl, hpl⟩ := h
  -- the option, once its payload has been drained
  have hopt : drained = true → ∃ o : Opt, o.code = be ((r.2.drop 8).take 4) ∧
      (t.take r.2).take pl = t.take o.bytes ∧ o.code < 2 ^ 32 := by
    intro hd
    obtain ⟨hb, hc⟩ := optAt_parts hlen (not_not.mp hm) (hpl hd)
    exact ⟨optAt (r.2 ++ pl), hc, by rw [hb, Tape.take_take], optAt_code_lt _⟩
  -- but for ABORT an option that could not be drained ends the handshake
  by_cases hd : drained = true
  · obtain ⟨o, hc, ht, hlt⟩ := hopt hd
    subst hd
    rw [ht, ← hc]
    cases hk : OptKind.ofCode o.code with
    | exportName =>
        have hkind : o.kind = .exportName := hk
        dsimp only
        rw [if_neg (by decide)]
        refine (sendAll_hears _).passed (fun _ => .ret trivial) ?_
        rw [if_neg (by decide)]
        have hreply : o.reply cfg.diskSize nz = toBe 8 cfg.diskSize ++ toBe 2 txFlags ++
            (if nz = true then [] else List.replicate 124 0) := by
          rw [Opt.reply, hkind]
        generalize List.replicate 124 (0 : UInt8) = zeros at hreply ⊢
        split
        · rename_i hz
          refine .ret ⟨o, hlt, .inl hkind, ?_⟩
          rw [Tape.answered, hreply, if_pos hz, List.append_nil]
        · rename_i hz
          refine (sendAll_hears _).passed (fun _ => .ret trivial) (.ret ⟨o, hlt, .inl hkind, ?_⟩)
          rw [Tape.answered, hreply, if_neg hz, Tape.put_put]
    | abort => exact (sendOptReply_hears _ _ _).bind fun _ _ _ => .ret trivial
    | list =>
        have hkind : o.kind = .list := hk
        dsimp only
        rw [if_neg (by decide)]
        refine (sendOptReply_hears _ _ _).passed (fun _ => .ret trivial) ?_
        rw [if_neg (by decide)]
        refine (sendOptReply_hears _ _ _).passed (fun _ => .ret trivial)
          (.ret ⟨o, ⟨hlt, by simp [hkind]⟩, ?_⟩)
        rw [Tape.answered, Opt.reply, hkind, Tape.put_put]
    | unknown =>
        have hkind : o.kind = .unknown := hk
        dsimp only
        rw [if_neg (by decide)]
        refine (sendOptReply_hears _ _ _).passed (fun _ => .ret trivial)
          (.ret ⟨o, ⟨hlt, by simp [hkind]⟩, ?_⟩)
        rw [Tape.answered, Opt.reply, hkind]
    | info =>
        have hkind : o.kind = .info := hk
        dsimp only
        rw [if_neg (by decide)]
        refine (sendOptReply_hears _ _ _).passed (fun _ => .ret trivial) ?_
        rw [if_neg (by decide)]
        refine (sendOptReply_hears _ _ _).passed (fun _ => .ret trivial) ?_
        rw [if_neg (by decide), if_neg (by decide)]
        refine .ret ⟨o, ⟨hlt, by simp [hkind]⟩, ?_⟩
        rw [Tape.answered, Opt.reply, hkind, Tape.put_put]
    | go =>
        have hkind : o.kind = .go := hk
        dsimp only
        rw [if_neg (by decide)]
        refine (sendOptReply_hears _ _ _).passed (fun _ => .ret trivial) ?_
        rw [if_neg (by decide)]
        refine (sendOptReply_hears _ _ _).passed (fun _ => .ret trivial) ?_
        rw [if_neg (by decide), if_pos rfl]
        refine .ret ⟨o, hlt, .inr hkind, ?_⟩
        rw [Tape.answered, Opt.reply, hkind, Tape.put_put]
  · rw [Bool.not_eq_true] at hd
    cases OptKind.ofCode (be ((r.2.drop 8).take 4)) with
    | abort => exact (sendOptReply_hears _ _ _).bind fun _ _ _ => .ret trivial
    | exportName | list | unknown | info | go =>
        dsimp only
        rw [if_pos hd]
        exact .ret trivial

/-! ## Workers in their handshake -/

/-- Where a round of a handshake ends, with what the connection has recorded. -/
def Haggled (cfg : Config) (m : Mem) : Station → Tape → Prop
  | .phase ph, _ => ph = .ended .drop m
  | .haggling nz m', t => m' = m ∧ Greeted cfg nz t
  | .shaken m', t => m' = m ∧ Shaken cfg t

theorem greet_hears (m : Mem) : Hears (greet m) ⟨[], [], false⟩ (Haggled cfg m) := by
  unfold greet
  refine (sendAll_hears greeting).bind fun ok t₁ h => ?_
  split
  · exact .ret rfl
  rename_i hok
  rw [h (by simpa using hok)]
  refine (recvAll_hears 4).bind fun r t₂ h => ?_
  obtain ⟨rfl, hlen⟩ := h
  split
  · exact .ret rfl
  rename_i hr
  exact .ret ⟨rfl, r.2, [], hlen (by simpa using hr), rfl, by simp, by simp [Tape.take, Tape.put]⟩

theorem haggleRound_hears {nz : Bool} (m : Mem) (h : Greeted cfg nz t) :
    Hears (haggleRound cfg nz m) t (Haggled cfg m) := by
  unfold haggleRound
  refine (answerOption_hears nz).bind fun a t' ha => ?_
  cases a with
  | none =>
      obtain ⟨o, ho, rfl⟩ := ha
      exact .ret ⟨rfl, h.more ho⟩
  | some b =>
      cases b with
      | false => exact .ret rfl
      | true =>
          obtain ⟨o, hc, ho, rfl⟩ := ha
          exact .ret ⟨rfl, h.shaken hc ho⟩

/-- One action of a program that uses the socket only: nothing but the connection changes. -/
theorem Hears.exec {o : Op} {k : o.Res → Prog sig α} {P : α → Tape → Prop} {c : Choice}
    {s s' : State} {r : o.Res} (h : Hears (.act (σ := sig) o k) (s.priv w).net.tape P)
    (he : exec cfg w o c s = some (r, s')) :
    ∃ n, s' = s.setNet w n ∧ n.conn = (s.priv w).net.conn ∧ Hears (k r) n.tape P := by
  obtain ⟨hok, hk⟩ := h
  specialize hk r
  rcases hok with hnone | ⟨n, rfl⟩ | ⟨bs, rfl⟩
  · cases hnone
  · simp only [NbdVram.exec] at he
    split at he
    · cases he
      exact ⟨_, (setNet_self s w).symm, rfl, hk⟩
    rename_i hf
    split at he
    · cases he
    rename_i hne
    cases he
    refine ⟨_, rfl, rfl, ?_⟩
    generalize (s.priv w).net = p at hk hne hf ⊢
    have hpos : 0 < p.inp.length := List.length_pos_iff.mpr hne
    have hbs : (n = 0 ∨ 0 < (p.inp.take (min (c.n + 1) (min n p.inp.length))).length) ∧
        (p.inp.take (min (c.n + 1) (min n p.inp.length))).length ≤ n := by
      rw [List.length_take]
      omega
    have hhear : Op.hear p.tape (.recv n) (some (p.inp.take (min (c.n + 1) (min n p.inp.length)))) =
        some (p.tape.take (p.inp.take (min (c.n + 1) (min n p.inp.length)))) := if_pos hbs
    have hk' : Keeps taping _ (Op.hear p.tape (.recv n)
      (some (p.inp.take (min (c.n + 1) (min n p.inp.length))))) _ := hk
    rw [hhear] at hk'
    exact hk'
  · simp only [NbdVram.exec] at he
    split at he
    · cases he
      exact ⟨_, rfl, rfl, hk⟩
    cases he
    refine ⟨_, rfl, rfl, ?_⟩
    generalize (s.priv w).net = p at hk ⊢
    have hbs : (bs = [] ∨ 0 < min (c.n + 1) bs.length) ∧ min (c.n + 1) bs.length ≤ bs.length := by
      refine ⟨?_, by omega⟩
      rcases List.eq_nil_or_concat bs with h | ⟨l, b, rfl⟩
      · exact .inl h
      · exact .inr (by simp)
    have hhear : Op.hear p.tape (.send bs) (some (min (c.n + 1) bs.length)) =
        some (p.tape.put (bs.take (min (c.n + 1) bs.length))) := if_pos hbs
    have hk' : Keeps taping _ (Op.hear p.tape (.send bs) (some (min (c.n + 1) bs.length))) _ := hk
    rw [hhear] at hk'
    exact hk'

end NbdVram
