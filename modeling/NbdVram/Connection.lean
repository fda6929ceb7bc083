import NbdVram.Cost
import NbdVram.Device
import NbdVram.Greeting
import NbdVram.Updates

/-!
# The whole connection

The daemon of the other modules takes a client up where its transmission begins; here
it shakes hands first. A simulation shows that this adds nothing to what the daemon does
to the device: a run with handshakes is matched by a run without them, in which a client
appears when its handshake has succeeded and a failed handshake is no client at all. So
what is known of the requests of a client extends to the connection as a whole
(`whole_connection`).
-/

namespace NbdVram

open Interleave Prog

variable {cfg : Config} {md : Mode} {w : ℕ}

/-- The daemon with its handshakes. -/
abbrev FullDaemon (cfg : Config) : Type := Sys (machine cfg) Station

def FullDaemon.Run (cfg : Config) (md : Mode) : FullDaemon cfg → FullDaemon cfg → Prop :=
  Sys.Run (md.Adm cfg) fun _ => Station.next cfg

def FullDaemon.Initial (cfg : Config) (S : FullDaemon cfg) : Prop :=
  S.st.Initial cfg ∧
    ∀ w, S.prog w = .ret (.phase .logging) ∨ ∃ m, S.prog w = .ret (.phase (.waiting m))

def FullDaemon.Reachable (cfg : Config) (md : Mode) (S : FullDaemon cfg) : Prop :=
  ∃ S₀ : FullDaemon cfg, FullDaemon.Initial cfg S₀ ∧ FullDaemon.Run cfg md S₀ S

/-! ## The simulation -/

/-- A round of the request loop. -/
def transmit (p : Prog sig Phase) : Prog sig Station := p >>= fun ph => .ret (.phase ph)

/-- The history of a worker with the handshake `t` before its connection, which is the `n`-th. -/
def Priv.behind (p : Priv) (t : Tape) (n : ℕ) : Priv :=
  { p with net := { p.net with got := t.got ++ p.net.got, out := t.out ++ p.net.out, conn := n } }

/-- The rounds of the statistics thread. -/
inductive Logs : Prog sig Phase → Prop
  | rest : Logs (.ret .logging)
  | locked : Logs (.act (σ := sig) (.unlock .alloc) fun _ => .ret .logging)

/-- The rounds of a worker without a connection. -/
inductive Idle : Prog sig Phase → Prop
  | waiting (m : Mem) : Idle (.ret (.waiting m))
  | stopped (m : Mem) : Idle (.ret (.stopped m))
  | testing (m : Mem) : Idle (.act (σ := sig) .running fun (on : Bool) =>
      .ret (if on = true then .waiting m else .stopped m))

/-- Where a worker stands in both daemons, which have begun to count its clients at `b`: the one
without handshakes still waits for a client while the other shakes hands with it. -/
inductive Stands (cfg : Config) (b : ℕ) : Prog sig Station → Priv → Prog sig Phase → Priv → Prop
  | logs {p : Prog sig Phase} {q : Priv} {n : ℕ} : Logs p →
      Stands cfg b (transmit p) (q.behind ⟨[], [], false⟩ n) p q
  | idle {p : Prog sig Phase} {q : Priv} {n : Net} {fs : List Fault} : b ≤ q.net.conn →
      q.net.conn ≤ n.conn → Idle p → Stands cfg b (transmit p) { q with net := n, faults := fs } p q
  | shake {p : Prog sig Station} {m : Mem} {q : Priv} {n : Net} : b ≤ q.net.conn →
      q.net.conn < n.conn → Hears p n.tape (Haggled cfg m) →
      Stands cfg b p { q with net := n, faults := [] } (.ret (.waiting m)) q
  | served {p : Prog sig Phase} {q : Priv} {t : Tape} {n : ℕ} : b < q.net.conn → q.net.conn ≤ n →
      Only (fun o : Op => o ≠ .accept) p → Shaken cfg t →
      Stands cfg b (transmit p) (q.behind t n) p q

/-- The states of both daemons are the same but for the connections of their workers. -/
structure Follows (base : ℕ → ℕ) (S : FullDaemon cfg) (T : Daemon cfg) : Prop where
  st : S.st = { T.st with priv := S.st.priv }
  stands : ∀ w, Stands cfg (base w) (S.prog w) (S.st.priv w) (T.prog w) (T.st.priv w)

variable {base : ℕ → ℕ}

theorem move_behind (f : ℕ → Priv) (mv : Move) (s : State) :
    ({ s with priv := f } : State).move w mv = { s.move w mv with priv := f } := by
  unfold State.move
  cases mv.dir <;> rfl

theorem move_same {s t : State} {mv : Move} (h : s = { t with priv := s.priv }) :
    s.move w mv = { t.move w mv with priv := (s.move w mv).priv } := by
  rw [move_priv]
  conv_lhs => rw [h, move_behind]

theorem moves_behind (f : ℕ → Priv) (l : List Move) (s : State) :
    ({ s with priv := f } : State).moves w l = { s.moves w l with priv := f } := by
  induction l generalizing s with
  | nil => rfl
  | cons mv l ih => rw [State.moves, State.moves, move_behind, ih]

/-- No action depends on what a connection has recorded. -/
theorem exec_behind {o : Op} {c : Choice} {f : ℕ → Priv} {t : Tape} {n : ℕ} {s : State}
    (hf : f w = (s.priv w).behind t n) (ho : o ≠ .accept) :
    exec cfg w o c { s with priv := f } = (exec cfg w o c s).map fun x =>
      (x.1, { x.2 with priv := Function.update f w ((x.2.priv w).behind t n) }) := by
  have hself : Function.update f w ((s.priv w).behind t n) = f := by
    rw [← hf, Function.update_eq_self]
  cases o with
  | accept => exact absurd rfl ho
  | lock m =>
      simp only [exec]
      split
      · simp only [Option.map_some, hself]
      · rfl
  | idxLoad why b =>
      cases why with
      | snapshot i =>
          simp only [exec, State.setPriv, Option.map_some, Function.update_self, hf]
          rfl
      | plain | recheck i => simp only [exec, Option.map_some, hself]
  | idxStore req b e =>
      simp only [exec, State.store, Option.map_some, Function.update_self, hf]
      rfl
  | slotAlloc tag k =>
      simp only [exec]
      split
      · simp only [State.addFault, State.setPriv, Option.map_some, Function.update_self, hf]
        rfl
      · simp only [Option.map_some, hself]
  | htod tag slot g k | dtoh tag slot g k =>
      simp only [exec]
      split
      · simp only [State.addFault, State.setPriv, Option.map_some, Function.update_self, hf]
        rfl
      · simp only [State.launch, Option.map_some, hself]
  | sync =>
      simp only [exec]
      split
      · simp only [Option.map_some, hself]
      · simp only [Option.map_some, moves_behind, moves_priv, hself]
  | ctrAdd x k | ctrSub x k =>
      simp only [exec, Priv.pay, Option.map_some, Function.update_self, hf]
      split <;> rfl
  | recv k =>
      simp only [Priv.behind] at hf hself ⊢
      simp only [exec, hf]
      split
      · simp only [Option.map_some, hself]
      split
      · rfl
      · simp only [State.setNet, State.setPriv, Option.map_some, Function.update_self, hf,
          List.append_assoc]
  | recvNb k =>
      simp only [Priv.behind] at hf hself ⊢
      simp only [exec, hf]
      split
      · simp only [Option.map_some, hself]
      split
      · simp only [Option.map_some, hself]
      · simp only [State.setNet, State.setPriv, Option.map_some, Function.update_self, hf,
          List.append_assoc]
  | send bs =>
      simp only [Priv.behind] at hf hself ⊢
      simp only [exec, hf]
      split
      · simp only [State.setNet, State.setPriv, Option.map_some, Function.update_self, hf]
      · simp only [State.setNet, State.setPriv, Option.map_some, Function.update_self, hf,
          List.append_assoc]
  | event e =>
      cases e with
      | begin reqs | enter | leave | corrupt tag =>
          simp only [exec, State.addFault, State.setPriv, Option.map_some, Function.update_self, hf]
          rfl
      | readDone | reply | deliver | access => simp only [exec, Option.map_some, hself]
  | _ => simp only [exec, Option.map_some, hself]

theorem adm_behind {o : Op} {c : Choice} {f : ℕ → Priv} {s : State}
    (hf : (f w).snap = (s.priv w).snap) (ha : md.Adm cfg w o c { s with priv := f }) :
    md.Adm cfg w o c s := by
  cases o with
  | idxLoad why b =>
      cases why with
      | recheck i =>
          simp only [Mode.Adm, hf] at ha
          exact ha
      | _ => exact ha
  | event e => cases e <;> exact ha
  | _ => exact ha

theorem exec_conn {o : Op} {c : Choice} {r : o.Res} {s s' : State}
    (he : exec cfg w o c s = some (r, s')) (ho : o ≠ .accept) :
    (s'.priv w).net.conn = (s.priv w).net.conn := by
  have hset : ∀ p : Priv, p.net.conn = (s.priv w).net.conn →
      (Function.update s.priv w p w).net.conn = (s.priv w).net.conn := fun p hp => by
    rwa [Function.update_self]
  have hpay : ∀ x n, ((s.priv w).pay x n).net.conn = (s.priv w).net.conn := fun x n => by
    unfold Priv.pay
    split <;> rfl
  cases o with
  | accept => exact absurd rfl ho
  | idxLoad why b => cases why <;> cases he <;> first | rfl | exact hset _ rfl
  | event e => cases e <;> cases he <;> first | rfl | exact hset _ rfl
  | sync =>
      simp only [exec] at he
      split at he <;> cases he
      · rfl
      · exact congrArg (fun f : ℕ → Priv => (f w).net.conn) (moves_priv _ _)
  | _ =>
      simp only [exec] at he
      repeat' split at he
      all_goals cases he
      all_goals first | rfl | exact hset _ rfl | exact hset _ (hpay _ _)

theorem Follows.with_priv {S : FullDaemon cfg} {T : Daemon cfg} (h : Follows base S T)
    (f : ℕ → Priv) : ({ S.st with priv := f } : State) = { T.st with priv := f } := by
  rw [h.st]

theorem Follows.update {S : FullDaemon cfg} {T : Daemon cfg} (h : Follows base S T) {s' t' : State}
    {p : Prog sig Station} {q : Prog sig Phase} (hst : s' = { t' with priv := s'.priv })
    (hs : ∀ v, v ≠ w → s'.priv v = S.st.priv v) (ht : ∀ v, v ≠ w → t'.priv v = T.st.priv v)
    (hw : Stands cfg (base w) p (s'.priv w) q (t'.priv w)) :
    Follows base (⟨s', Function.update S.prog w p⟩ : FullDaemon cfg)
      (⟨t', Function.update T.prog w q⟩ : Daemon cfg) := by
  refine ⟨hst, fun v => ?_⟩
  by_cases hv : v = w
  · subst hv
    dsimp only
    rwa [Function.update_self, Function.update_self]
  · have hold := h.stands v
    dsimp only
    rwa [Function.update_of_ne hv, Function.update_of_ne hv, hs v hv, ht v hv]

/-- The daemon without handshakes stands still. -/
theorem Follows.stutter {S : FullDaemon cfg} {T : Daemon cfg} (h : Follows base S T) {s' : State}
    {p : Prog sig Station} (hst : s' = { T.st with priv := s'.priv })
    (hs : ∀ v, v ≠ w → s'.priv v = S.st.priv v)
    (hw : Stands cfg (base w) p (s'.priv w) (T.prog w) (T.st.priv w)) :
    Follows base (⟨s', Function.update S.prog w p⟩ : FullDaemon cfg) T := by
  have hf := h.update (w := w) (q := T.prog w) hst hs (fun _ _ => rfl) hw
  rwa [Function.update_eq_self] at hf

/-- An action of the request loop is an action of the daemon without handshakes. -/
theorem Follows.both {S : FullDaemon cfg} {T : Daemon cfg} (h : Follows base S T) {t : Tape} {n : ℕ}
    (hpriv : S.st.priv w = (T.st.priv w).behind t n) {o : Op} {k : o.Res → Prog sig Phase}
    (hk : unfold (next cfg) (T.prog w) = .act (σ := sig) o k) (ho : o ≠ .accept) {c : Choice}
    (ha : md.Adm cfg w o c S.st) {r : o.Res} {s' : State} (he : exec cfg w o c S.st = some (r, s'))
    (hend : ∀ q : Priv, q.net.conn = (T.st.priv w).net.conn →
      Stands cfg (base w) (transmit (k r)) (q.behind t n) (k r) q) :
    ∃ T', Daemon.Run cfg md T T' ∧
      Follows base (⟨s', Function.update S.prog w (transmit (k r))⟩ : FullDaemon cfg) T' := by
  rw [h.st] at ha he
  rw [exec_behind hpriv ho] at he
  obtain ⟨x, hx, hxe⟩ := Option.map_eq_some_iff.mp he
  obtain ⟨r', t'⟩ := x
  obtain ⟨rfl, rfl⟩ := Prod.mk.inj hxe
  have hsnap : (S.st.priv w).snap = (T.st.priv w).snap := by
    rw [hpriv]
    rfl
  refine ⟨_, .single (Daemon.step hk (adm_behind hsnap ha) hx), h.update rfl (fun v hv => ?_)
    (fun v hv => exec_priv_of_ne hx hv) ?_⟩
  · exact Function.update_of_ne hv _ _
  · dsimp only
    rw [Function.update_self]
    exact hend _ (exec_conn hx ho)

/-- A client is accepted by the daemon without handshakes, which then tests `g_running`. -/
theorem Daemon.accepted {T : Daemon cfg} {m : Mem} {c : Choice} {a : Bool} {t' : State}
    (hT : T.prog w = .ret (.waiting m)) (he : exec cfg w .accept c T.st = some (a, t')) :
    Daemon.Run cfg md T ⟨t', Function.update T.prog w (.ret (if t'.running = false then
      (if a = true then .ended .stop m else .stopped m)
      else if a = true then .serving m else .waiting m))⟩ := by
  have hfirst : unfold (next cfg) (T.prog w) = next cfg (.waiting m) := by
    rw [hT]
    rfl
  have hsecond : Sys.Step (md.Adm cfg) (fun _ => next cfg) (⟨t', Function.update T.prog w
      (running >>= fun on => .ret (if on = false then
        (if a = true then .ended .stop m else .stopped m)
        else if a = true then .serving m else .waiting m))⟩ : Daemon cfg) _ :=
    Daemon.step (w := w) (o := .running) (c := c) (r := t'.running)
      (by dsimp only; rw [Function.update_self]; rfl) trivial rfl
  dsimp only at hsecond
  rw [Function.update_idem] at hsecond
  exact .tail (.single (Daemon.step (k := fun c => running >>= _) hfirst trivial he)) hsecond

/-- An action of a handshake changes the connection only. -/
theorem Follows.haggle {S : FullDaemon cfg} {T : Daemon cfg} (h : Follows base S T) {n : Net}
    {m : Mem} {o : Op} {k : o.Res → Prog sig Station}
    (hk : Hears (.act (σ := sig) o k) n.tape (Haggled cfg m))
    (hS : S.st.priv w = { T.st.priv w with net := n, faults := [] })
    (hb : base w ≤ (T.st.priv w).net.conn) (hc : (T.st.priv w).net.conn < n.conn)
    (hT : T.prog w = .ret (.waiting m)) {c : Choice} {r : o.Res} {s' : State}
    (he : exec cfg w o c S.st = some (r, s')) :
    Follows base (⟨s', Function.update S.prog w (k r)⟩ : FullDaemon cfg) T := by
  have hnet : (S.st.priv w).net = n := by rw [hS]
  rw [← hnet] at hk
  obtain ⟨n', rfl, hconn, hr⟩ := hk.exec he
  refine h.stutter (h.with_priv _) (fun v hv => Function.update_of_ne hv _ _) ?_
  have hself : (S.st.setNet w n').priv w = { T.st.priv w with net := n', faults := [] } := by
    simp only [State.setNet, State.setPriv, Function.update_self, hS]
  rw [hself, hT]
  exact .shake hb (by rw [hconn, hnet]; exact hc) hr

/-- Nothing but a worker that waits accepts. -/
theorem next_only {ph : Phase} (hph : ∀ m, ph ≠ .waiting m) :
    Only (fun o : Op => o ≠ .accept) (next cfg ph) := by
  cases ph with
  | logging => exact ⟨(fun h => by cases h), fun _ => ⟨(fun h => by cases h), fun _ => trivial⟩⟩
  | waiting m => exact absurd rfl (hph m)
  | serving m => exact (serve_budget m 0).only
  | ended why m => exact ⟨(fun h => by cases h), fun _ => trivial⟩
  | stopped m => trivial

/-- A round of the request loop in both daemons. -/
theorem unfold_transmit {p : Prog sig Phase} (hp : ∀ m, p ≠ .ret (.waiting m)) :
    unfold (Station.next cfg) (transmit p) = transmit (unfold (next cfg) p) := by
  cases p with
  | act o k => rfl
  | ret ph =>
      cases ph with
      | waiting m => exact absurd rfl (hp m)
      | _ => rfl

/-- An action of `transmit p` is one of `p`. -/
theorem transmit_act {p : Prog sig Phase} {o : Op} {k : o.Res → Prog sig Station}
    (h : transmit p = .act (σ := sig) o k) :
    ∃ k₀ : o.Res → Prog sig Phase, p = .act (σ := sig) o k₀ ∧ k = fun r => transmit (k₀ r) := by
  cases p with
  | ret ph => cases h
  | act o' k₀ =>
      cases h
      exact ⟨k₀, rfl, rfl⟩

theorem exec_accept {c : Choice} {r : Bool} {s s' : State}
    (he : exec cfg w .accept c s = some (r, s')) :
    r = false ∧ c.fail = true ∧ s' = s ∨
      r = true ∧ c.fail = false ∧ s' = s.setPriv w { s.priv w with
      net := ⟨c.stream, c.eof, [], [], (s.priv w).net.conn + 1, false⟩
      faults := [] } := by
  simp only [exec] at he
  split at he
  · cases he
    exact .inl ⟨rfl, ‹_›, rfl⟩
  · cases he
    exact .inr ⟨rfl, by simpa using ‹¬ c.fail = true›, rfl⟩

/-- A worker that waits: a client begins its handshake, or there is none. -/
theorem Follows.accept {S : FullDaemon cfg} {T : Daemon cfg} (h : Follows base S T) {n : Net}
    {fs : List Fault} {m : Mem} (hS : S.st.priv w = { T.st.priv w with net := n, faults := fs })
    (hb : base w ≤ (T.st.priv w).net.conn) (hc : (T.st.priv w).net.conn ≤ n.conn)
    (hT : T.prog w = .ret (.waiting m)) {c : Choice} {r : Bool} {s' : State}
    (he : exec cfg w .accept c S.st = some (r, s')) :
    ∃ T', Daemon.Run cfg md T T' ∧ Follows base (⟨s', Function.update S.prog w
      (if r = true then greet m else running >>= fun on =>
        .ret (.phase (if on = true then .waiting m else .stopped m)))⟩ : FullDaemon cfg) T' := by
  rcases exec_accept he with ⟨rfl, hf, rfl⟩ | ⟨rfl, -, rfl⟩
  · have hk : unfold (next cfg) (T.prog w) = next cfg (.waiting m) := by
      rw [hT]
      rfl
    have he' : exec cfg w .accept c T.st = some (false, T.st) := if_pos hf
    refine ⟨_, .single (Daemon.step (k := fun c => running >>= _) hk trivial he'),
      h.update h.st (fun _ _ => rfl) (fun _ _ => rfl) ?_⟩
    have htest : (running >>= fun on => pure (if on = false then
        (if false = true then Phase.ended .stop m else .stopped m)
          else if false = true then .serving m else .waiting m) : Prog sig Phase) =
        .act (σ := sig) .running fun (on : Bool) =>
          .ret (if on = true then .waiting m else .stopped m) :=
      congrArg (Prog.act (σ := sig) .running) (funext fun (on : Bool) => by cases on <;> rfl)
    show Stands cfg (base w) (transmit (.act (σ := sig) .running fun (on : Bool) =>
      .ret (if on = true then .waiting m else .stopped m))) (S.st.priv w)
      (running >>= fun on => pure (if on = false then
        (if false = true then Phase.ended .stop m else .stopped m)
          else if false = true then .serving m else .waiting m)) (T.st.priv w)
    rw [htest, hS]
    exact .idle hb hc (.testing m)
  · refine ⟨T, .refl, h.stutter (h.with_priv _) (fun v hv => Function.update_of_ne hv _ _) ?_⟩
    have hself : (S.st.setPriv w { S.st.priv w with
        net := ⟨c.stream, c.eof, [], [], (S.st.priv w).net.conn + 1, false⟩
        faults := [] }).priv w = { T.st.priv w with
        net := ⟨c.stream, c.eof, [], [], (S.st.priv w).net.conn + 1, false⟩
        faults := [] } := by
      simp only [State.setPriv, Function.update_self, hS]
    rw [hself, hT]
    refine .shake hb ?_ (greet_hears m)
    rw [hS]
    exact Nat.lt_succ_of_le hc

/-- After its handshake a worker tests `g_running`: only now the other daemon accepts a client, or
has none. -/
theorem Follows.shaken {S : FullDaemon cfg} {T : Daemon cfg} (h : Follows base S T) {n : Net}
    {m : Mem} {t : Tape} (hS : S.st.priv w = { T.st.priv w with net := n, faults := [] })
    (hn : n.tape = t) (ht : Shaken cfg t) (hb : base w ≤ (T.st.priv w).net.conn)
    (hc : (T.st.priv w).net.conn < n.conn) (hT : T.prog w = .ret (.waiting m)) :
    ∃ T', Daemon.Run cfg md T T' ∧ Follows base (⟨S.st, Function.update S.prog w
      (.ret (.phase (if S.st.running = true then .serving m else .ended .stop m)))⟩ :
        FullDaemon cfg) T' := by
  let c : Choice := ⟨false, 0, n.inp, n.eof⟩
  have he : exec cfg w .accept c T.st = some (true, T.st.setPriv w { T.st.priv w with
      net := ⟨n.inp, n.eof, [], [], (T.st.priv w).net.conn + 1, false⟩
      faults := [] }) := rfl
  have hrun : S.st.running = T.st.running := by rw [h.st]
  refine ⟨_, Daemon.accepted hT he, h.update (h.with_priv _) (fun _ _ => rfl)
    (fun v hv => Function.update_of_ne hv _ _) ?_⟩
  have hdown : n.down = false := by
    obtain ⟨flags, opts, o, -, -, -, -, rfl⟩ := ht
    exact congrArg Tape.down hn
  have hbehind : S.st.priv w = ({ T.st.priv w with
      net := ⟨n.inp, n.eof, [], [], (T.st.priv w).net.conn + 1, false⟩
      faults := [] } : Priv).behind t n.conn := by
    rw [hS, ← hn]
    simp only [Priv.behind, Net.tape, List.append_nil]
    rw [← hdown]
  rw [hbehind, hrun]
  simp only [State.setPriv, Function.update_self]
  cases T.st.running with
  | true => exact .served (p := .ret (.serving m)) (Nat.lt_succ_of_le hb) hc trivial ht
  | false => exact .served (p := .ret (.ended .stop m)) (Nat.lt_succ_of_le hb) hc trivial ht

/-- After a failed handshake. -/
theorem Follows.dropped {S : FullDaemon cfg} {T : Daemon cfg} (h : Follows base S T) {n : Net}
    {m : Mem} {fs : List Fault} (hS : S.st.priv w = { T.st.priv w with net := n, faults := fs })
    (hb : base w ≤ (T.st.priv w).net.conn) (hc : (T.st.priv w).net.conn ≤ n.conn)
    (hT : T.prog w = .ret (.waiting m)) :
    ∃ T', Daemon.Run cfg md T T' ∧ Follows base (⟨S.st, Function.update S.prog w
      (.ret (.phase (if S.st.running = true then .waiting m else .stopped m)))⟩ :
        FullDaemon cfg) T' := by
  let c : Choice := ⟨true, 0, [], true⟩
  have he : exec cfg w .accept c T.st = some (false, T.st) := rfl
  have hrun : S.st.running = T.st.running := by rw [h.st]
  refine ⟨_, Daemon.accepted hT he, h.update h.st (fun _ _ => rfl) (fun _ _ => rfl) ?_⟩
  rw [hS, hrun]
  cases T.st.running with
  | true => exact .idle hb hc (.waiting m)
  | false => exact .idle hb hc (.stopped m)

theorem Follows.tau {S : FullDaemon cfg} {T : Daemon cfg} (h : Follows base S T) {s' : State}
    (ht : Tau S.st s') :
    ∃ t', Tau T.st t' ∧ Follows base (⟨s', S.prog⟩ : FullDaemon cfg) ⟨t', T.prog⟩ := by
  cases ht with
  | @move u mv hmem =>
      have hpend : S.st.pend = T.st.pend := by rw [h.st]
      rw [hpend] at hmem
      have hpriv : ((S.st : State).move u mv).priv = S.st.priv := move_priv ..
      have hpriv' : ((T.st : State).move u mv).priv = T.st.priv := move_priv ..
      refine ⟨_, .move hmem, move_same h.st, fun v => ?_⟩
      show Stands cfg (base v) _ (((S.st : State).move u mv).priv v) _
        (((T.st : State).move u mv).priv v)
      rw [hpriv, hpriv']
      exact h.stands v
  | stop =>
      exact ⟨_, .stop, congrArg (fun s : State => { s with running := false }) h.st, h.stands⟩

section Step

variable {S : FullDaemon cfg} {T : Daemon cfg} {o : Op} {c : Choice} {r : o.Res} {s' : State}
  {k : o.Res → Prog sig Station}

/-- A step of the statistics thread. -/
theorem Follows.logs (h : Follows base S T) {n : ℕ} (hlog : Logs (T.prog w))
    (hp : S.st.priv w = (T.st.priv w).behind ⟨[], [], false⟩ n)
    (hk : unfold (Station.next cfg) (transmit (T.prog w)) = .act (σ := sig) o k)
    (ha : md.Adm cfg w o c S.st) (he : exec cfg w o c S.st = some (r, s')) :
    ∃ T', Daemon.Run cfg md T T' ∧
      Follows base (⟨s', Function.update S.prog w (k r)⟩ : FullDaemon cfg) T' := by
  generalize hQ : T.prog w = Q at hlog hk
  cases hlog with
  | rest =>
      cases hk
      have hk' : unfold (next cfg) (T.prog w) = .act (σ := sig) (.lock .alloc) fun _ =>
          .act (σ := sig) (.unlock .alloc) fun _ => .ret .logging := by
        rw [hQ]
        rfl
      exact h.both hp hk' (fun h => by cases h) ha he fun q _ => .logs .locked
  | locked =>
      cases hk
      have hk' : unfold (next cfg) (T.prog w) = .act (σ := sig) (.unlock .alloc) fun _ =>
          .ret .logging := by
        rw [hQ]
        rfl
      exact h.both hp hk' (fun h => by cases h) ha he fun q _ => .logs .rest

/-- A step of a worker without a connection. -/
theorem Follows.idle (h : Follows base S T) {n : Net} {fs : List Fault} (hidle : Idle (T.prog w))
    (hp : S.st.priv w = { T.st.priv w with net := n, faults := fs })
    (hb : base w ≤ (T.st.priv w).net.conn) (hc : (T.st.priv w).net.conn ≤ n.conn)
    (hk : unfold (Station.next cfg) (transmit (T.prog w)) = .act (σ := sig) o k)
    (he : exec cfg w o c S.st = some (r, s')) :
    ∃ T', Daemon.Run cfg md T T' ∧
      Follows base (⟨s', Function.update S.prog w (k r)⟩ : FullDaemon cfg) T' := by
  generalize hQ : T.prog w = Q at hidle hk
  cases hidle with
  | waiting m =>
      cases hk
      exact h.accept hp hb hc hQ he
  | stopped m => cases hk
  | testing m =>
      cases hk
      cases he
      have hk' : unfold (next cfg) (T.prog w) = .act (σ := sig) .running fun (on : Bool) =>
          .ret (if on = true then .waiting m else .stopped m) := by
        rw [hQ]
        rfl
      have hrun : S.st.running = T.st.running := by rw [h.st]
      refine ⟨_, .single (Daemon.step (c := c) hk' trivial rfl),
        h.update h.st (fun _ _ => rfl) (fun _ _ => rfl) ?_⟩
      rw [hp, hrun]
      cases T.st.running with
      | true => exact .idle hb hc (.waiting m)
      | false => exact .idle hb hc (.stopped m)

/-- A step of a worker in a handshake. -/
theorem Follows.shake (h : Follows base S T) {n : Net} {m : Mem} {p : Prog sig Station}
    (hhear : Hears p n.tape (Haggled cfg m))
    (hp : S.st.priv w = { T.st.priv w with net := n, faults := [] })
    (hb : base w ≤ (T.st.priv w).net.conn) (hc : (T.st.priv w).net.conn < n.conn)
    (hQ : T.prog w = .ret (.waiting m))
    (hk : unfold (Station.next cfg) p = .act (σ := sig) o k)
    (he : exec cfg w o c S.st = some (r, s')) :
    ∃ T', Daemon.Run cfg md T T' ∧
      Follows base (⟨s', Function.update S.prog w (k r)⟩ : FullDaemon cfg) T' := by
  cases p with
  | act o' k' =>
      cases hk
      exact ⟨T, .refl, h.haggle hhear hp hb hc hQ he⟩
  | ret st =>
      have hend : Haggled cfg m st n.tape := hhear _ rfl
      cases st with
      | phase ph =>
          obtain rfl : ph = .ended .drop m := hend
          cases hk
          cases he
          exact h.dropped hp hb hc.le hQ
      | haggling nz m' =>
          obtain ⟨rfl, hg⟩ := hend
          have hround := haggleRound_hears m' hg
          rw [show haggleRound cfg nz m' = .act o k from hk] at hround
          exact ⟨T, .refl, h.haggle hround hp hb hc hQ he⟩
      | shaken m' =>
          obtain ⟨rfl, ht⟩ := hend
          cases hk
          cases he
          exact h.shaken hp rfl ht hb hc hQ

/-- A step of a worker that serves a client, or has served one. -/
theorem Follows.serve (h : Follows base S T) {t : Tape} {n : ℕ}
    (honly : Only (fun o : Op => o ≠ .accept) (T.prog w)) (ht : Shaken cfg t)
    (hp : S.st.priv w = (T.st.priv w).behind t n) (hb : base w < (T.st.priv w).net.conn)
    (hc : (T.st.priv w).net.conn ≤ n)
    (hk : unfold (Station.next cfg) (transmit (T.prog w)) = .act (σ := sig) o k)
    (ha : md.Adm cfg w o c S.st) (he : exec cfg w o c S.st = some (r, s')) :
    ∃ T', Daemon.Run cfg md T T' ∧
      Follows base (⟨s', Function.update S.prog w (k r)⟩ : FullDaemon cfg) T' := by
  by_cases hwait : ∃ m, T.prog w = .ret (.waiting m)
  · obtain ⟨m, hm⟩ := hwait
    rw [hm] at hk
    cases hk
    exact h.accept hp hb.le hc hm he
  · have hne : ∀ m, T.prog w ≠ .ret (.waiting m) := fun m hm => hwait ⟨m, hm⟩
    rw [unfold_transmit hne] at hk
    obtain ⟨k₀, hk₀, rfl⟩ := transmit_act hk
    have hround : Only (fun o : Op => o ≠ .accept) (unfold (next cfg) (T.prog w)) := by
      cases hQ : T.prog w with
      | act o' k' => rwa [hQ] at honly
      | ret ph => exact next_only fun m hm => hne m (by rw [hQ, hm])
    rw [hk₀] at hround
    exact h.both hp hk₀ hround.1 ha he fun q hq =>
      .served (hq ▸ hb) (hq ▸ hc) (hround.2 r) ht

end Step

/-- **One step** of the daemon with handshakes is matched by any number of steps of the other. -/
theorem Follows.step {S S' : FullDaemon cfg} {T : Daemon cfg} (h : Follows base S T)
    (hs : Sys.Step (md.Adm cfg) (fun _ => Station.next cfg) S S') :
    ∃ T', Daemon.Run cfg md T T' ∧ Follows base S' T' := by
  cases hs with
  | tau ht =>
      obtain ⟨t', ht', hf⟩ := h.tau ht
      exact ⟨_, .single (.tau ht'), hf⟩
  | @act w o k c r s' hk ha he =>
      have hw := h.stands w
      generalize hP : S.prog w = P at hk hw
      generalize hp : S.st.priv w = p at hw
      generalize hQ : T.prog w = Q at hw
      generalize hq : T.st.priv w = q at hw
      cases hw with
      | logs hlog =>
          subst hQ hq
          exact h.logs hlog hp hk ha he
      | idle hb hc hidle =>
          subst hQ hq
          exact h.idle hidle hp hb hc hk he
      | shake hb hc hhear =>
          subst hq
          exact h.shake hhear hp hb hc hQ hk he
      | served hb hc honly ht =>
          subst hQ hq
          exact h.serve honly ht hp hb hc hk ha he

theorem Follows.run {S S' : FullDaemon cfg} {T : Daemon cfg} (h : Follows base S T)
    (hr : FullDaemon.Run cfg md S S') : ∃ T', Daemon.Run cfg md T T' ∧ Follows base S' T' := by
  induction hr with
  | refl => exact ⟨T, .refl, h⟩
  | tail _ hs ih =>
      obtain ⟨T₁, hr₁, h₁⟩ := ih
      obtain ⟨T₂, hr₂, h₂⟩ := h₁.step hs
      exact ⟨T₂, hr₁.trans hr₂, h₂⟩

theorem FullDaemon.Initial.follows {S : FullDaemon cfg} (h : FullDaemon.Initial cfg S) :
    ∃ T : Daemon cfg, Daemon.Initial cfg T ∧ T.st = S.st ∧
      Follows (fun w => (S.st.priv w).net.conn) S T := by
  have hall : ∀ w, ∃ q : Prog sig Phase, (q = .ret .logging ∨ ∃ m, q = .ret (.waiting m)) ∧
      Stands cfg (S.st.priv w).net.conn (S.prog w) (S.st.priv w) q (S.st.priv w) := by
    intro w
    rcases h.2 w with hw | ⟨m, hw⟩ <;> rw [hw]
    · exact ⟨_, .inl rfl, .logs (n := (S.st.priv w).net.conn) .rest⟩
    · exact ⟨_, .inr ⟨m, rfl⟩, .idle (n := (S.st.priv w).net) le_rfl le_rfl (.waiting m)⟩
  choose prog hprog using hall
  exact ⟨⟨S.st, prog⟩, ⟨h.1, fun w => (hprog w).1⟩, rfl, rfl, fun w => (hprog w).2⟩

/-- A client is served after a whole handshake only. -/
theorem Stands.serving {p : Prog sig Station} {q : Prog sig Phase} {b : ℕ} {P Q : Priv} {m : Mem}
    (h : Stands cfg b p P q Q) (hp : p = .ret (.phase (.serving m))) :
    q = .ret (.serving m) ∧ ∃ t n, Shaken cfg t ∧ P = Q.behind t n ∧ b < Q.net.conn ∧
      Q.net.conn ≤ n := by
  cases h with
  | logs hlog => cases hlog <;> cases hp
  | idle _ _ hidle => cases hidle <;> cases hp
  | shake _ _ hhear =>
      subst hp
      have hend := hhear _ rfl
      cases hend
  | @served _ _ t n hb hc _ ht =>
      refine ⟨?_, t, n, ht, rfl, hb, hc⟩
      cases q with
      | act o k => cases hp
      | ret ph =>
          cases hp
          rfl

theorem Stands.cases {p : Prog sig Station} {q : Prog sig Phase} {b : ℕ} {P Q : Priv}
    (h : Stands cfg b p P q Q) : p = transmit q ∨ ∃ m, q = .ret (.waiting m) := by
  cases h with
  | logs _ | idle _ _ _ | served _ _ _ _ => exact .inl rfl
  | shake _ _ _ => exact .inr ⟨_, rfl⟩

theorem FullDaemon.Reachable.follows {S : FullDaemon cfg} (h : FullDaemon.Reachable cfg md S) :
    ∃ (T : Daemon cfg) (base : ℕ → ℕ), Daemon.Reachable cfg md T ∧ Follows base S T := by
  obtain ⟨S₀, hinit, hrun⟩ := h
  obtain ⟨T₀, hT₀, -, hfollows⟩ := hinit.follows
  obtain ⟨T, hT, hS⟩ := hfollows.run hrun
  exact ⟨T, _, ⟨T₀, hT₀, hT⟩, hS⟩

/-- **Handshakes leave the device alone.** Every run of the daemon that takes its clients through
`nbd_handshake`, whatever these send and however receives and sends are cut or fail, is matched by a
run of the daemon that takes clients up where their transmission begins: index, heap, device memory,
locks, queued copies, counters and the history of mutations are the same, and every worker is at the
same point, or is in a handshake and waits there for its client. And a client is served only after a
whole handshake: its connection has received its flags, options that start nothing and one that
starts the transmission, and then the requests, and has sent the greeting, the answers to these
options, and then the replies. -/
theorem handshake_transparent {S : FullDaemon cfg} (h : FullDaemon.Reachable cfg md S) :
    ∃ T : Daemon cfg, Daemon.Reachable cfg md T ∧ S.st = { T.st with priv := S.st.priv } ∧
      (∀ w, S.prog w = transmit (T.prog w) ∨ ∃ m, T.prog w = .ret (.waiting m)) ∧
      ∀ w m, S.prog w = .ret (.phase (.serving m)) → T.prog w = .ret (.serving m) ∧
        ∃ t n, Shaken cfg t ∧ S.st.priv w = (T.st.priv w).behind t n := by
  obtain ⟨T, base, hT, hS⟩ := h.follows
  refine ⟨T, hT, hS.st, fun w => (hS.stands w).cases, fun w m hm => ?_⟩
  obtain ⟨hserve, t, n, ht, hpriv, -⟩ := (hS.stands w).serving hm
  exact ⟨hserve, t, n, ht, hpriv⟩

/-- Let worker `w` take steps, with the environment's choices given in advance. -/
def FullDaemon.drive (w : ℕ) : List Choice → FullDaemon cfg → FullDaemon cfg
  | [], S => S
  | c :: cs, S =>
    match unfold (Station.next cfg) (S.prog w) with
    | .ret _ => S
    | .act o k =>
      match exec cfg w o c S.st with
      | none => S
      | some x => FullDaemon.drive w cs ⟨x.2, Function.update S.prog w (k x.1)⟩

theorem FullDaemon.drive_run (w : ℕ) (cs : List Choice) (S : FullDaemon cfg) :
    FullDaemon.Run cfg .any S (FullDaemon.drive w cs S) := by
  induction cs generalizing S with
  | nil => exact .refl
  | cons c cs ih =>
      rw [FullDaemon.drive]
      cases hk : unfold (Station.next cfg) (S.prog w) with
      | ret st => exact .refl
      | act o k =>
          dsimp only
          cases he : exec cfg w o c S.st with
          | none => exact .refl
          | some x =>
              exact .head (.act (o := o) (k := k) (r := x.1) hk (Mode.any_adm cfg w o c S.st) he)
                (ih _)

/-- A daemon whose workers wait for a client. -/
def FullDaemon.booted (cfg : Config) : FullDaemon cfg :=
  ⟨State.boot cfg, fun _ => .ret (.phase (.waiting .blank))⟩

theorem FullDaemon.booted_initial (cfg : Config) : FullDaemon.Initial cfg (FullDaemon.booted cfg) :=
  ⟨State.boot_initial cfg, fun _ => .inr ⟨.blank, rfl⟩⟩

theorem FullDaemon.booted_drive (cfg : Config) (w : ℕ) (cs : List Choice) :
    FullDaemon.Reachable cfg .any (FullDaemon.drive w cs (FullDaemon.booted cfg)) :=
  ⟨_, FullDaemon.booted_initial cfg, FullDaemon.drive_run w cs _⟩

/-- A client's flags, LIST and GO. -/
def shakeHands : List UInt8 := toBe 4 3 ++ Opt.bytes ⟨3, []⟩ ++ Opt.bytes ⟨7, toBe 4 0 ++ toBe 2 0⟩

/-- A worker that has answered them. -/
def FullDaemon.greeted : FullDaemon smallConfig :=
  FullDaemon.drive 0 (.client (shakeHands ++ readHdr) :: List.replicate 12 .plain)
    (FullDaemon.booted smallConfig)

set_option maxRecDepth 100000 in
theorem handshake_transparent_go : (FullDaemon.greeted.st.priv 0).net.got = shakeHands ∧
    ∃ T : Daemon smallConfig, Daemon.Reachable smallConfig .any T ∧
      T.prog 0 = .ret (.serving .blank) ∧
      ∃ t n, Shaken smallConfig t ∧ FullDaemon.greeted.st.priv 0 = (T.st.priv 0).behind t n := by
  obtain ⟨T, hT, -, -, hserving⟩ := handshake_transparent (FullDaemon.booted_drive smallConfig 0 _)
  exact ⟨rfl, T, hT, hserving 0 .blank rfl⟩

/-! ## What carries over -/

theorem Stands.account {p : Prog sig Station} {q : Prog sig Phase} {b : ℕ} {P Q : Priv}
    (h : Stands cfg b p P q Q) : P.owed = Q.owed ∧ P.subs = Q.subs ∧ P.busy = Q.busy := by
  cases h <;> exact ⟨rfl, rfl, rfl⟩

/-- The invariant of the daemon is one of the daemon with handshakes: every block shows what the
mutations have left of it, no two slots overlap, and the counters follow the index. -/
theorem FullDaemon.Reachable.inv {S : FullDaemon cfg} (h : FullDaemon.Reachable cfg md S)
    (hs : md.since = 0) : Inv cfg md S.st := by
  obtain ⟨T, base, hT, hS⟩ := h.follows
  have hinv := hT.inv hs
  have hbooks : Books cfg { T.st with priv := S.st.priv } :=
    hinv.books.congr rfl rfl rfl (fun w => (hS.stands w).account.1)
      (fun w => (hS.stands w).account.2.1) fun w => (hS.stands w).account.2.2
  obtain ⟨own, howned⟩ := hinv.owned
  rw [hS.st]
  exact { hinv with
    owned := ⟨own, { howned with }⟩
    books := hbooks }

/-- **A client that stalls in its handshake blocks nobody**: as long as its handshake may still go
on, its worker holds no mutex, has no copy in flight and nothing to free, and, unless a copy of
`do_blocks` was rejected, no reservation, and it is in the middle of no change to the index. -/
theorem handshake_holds_nothing {S : FullDaemon cfg} (h : FullDaemon.Reachable cfg md S)
    (hs : md.since = 0) (hw : ∀ p, S.prog w ≠ transmit p) :
    Quiet md w S.st ∧ (S.st.priv w).busy = false := by
  obtain ⟨T, base, hT, hS⟩ := h.follows
  rcases (hS.stands w).cases with hp | ⟨m, hm⟩
  · exact absurd hp (hw _)
  · obtain ⟨hq, hb⟩ := hT.quiet hs hm
    refine ⟨?_, (hS.stands w).account.2.2.trans hb⟩
    rw [hS.st]
    exact ⟨hq.lock, hq.pend, hq.disp, hq.resv⟩

/-- A worker whose client has sent its flags, and nothing more so far. -/
def FullDaemon.stalled : FullDaemon smallConfig :=
  FullDaemon.drive 0 [⟨false, 0, shakeHands.take 4, false⟩, .plain, .plain]
    (FullDaemon.booted smallConfig)

theorem handshake_holds_nothing_stalled : FullDaemon.stalled.prog 0 = .ret (.haggling true .blank) ∧
    Quiet .any 0 FullDaemon.stalled.st ∧ (FullDaemon.stalled.st.priv 0).busy = false := by
  have hprog : FullDaemon.stalled.prog 0 = .ret (.haggling true .blank) := rfl
  refine ⟨hprog, handshake_holds_nothing (FullDaemon.booted_drive smallConfig 0 _) rfl
    fun p hp => ?_⟩
  rw [hprog] at hp
  cases p with
  | ret ph => cases hp
  | act o k => cases hp

/-- Whether all steps of a driven worker are such that nothing fails. -/
def FullDaemon.calm (w : ℕ) : List Choice → FullDaemon cfg → Bool
  | [], _ => true
  | c :: cs, S =>
    match unfold (Station.next cfg) (S.prog w) with
    | .ret _ => true
    | .act o k =>
      match exec cfg w o c S.st with
      | none => true
      | some x => Op.calm cfg S.st o && !c.fail &&
        FullDaemon.calm w cs ⟨x.2, Function.update S.prog w (k x.1)⟩

theorem FullDaemon.drive_calm (hgen : md.gen = false) (hso : ∀ v, md.solo = some v → w = v)
    (cs : List Choice) (S : FullDaemon cfg) (h : FullDaemon.calm w cs S = true) :
    FullDaemon.Run cfg md S (FullDaemon.drive w cs S) := by
  induction cs generalizing S with
  | nil => exact .refl
  | cons c cs ih =>
      rw [FullDaemon.drive]
      cases hk : unfold (Station.next cfg) (S.prog w) with
      | ret st => exact .refl
      | act o k =>
          dsimp only
          cases he : exec cfg w o c S.st with
          | none => exact .refl
          | some x =>
              simp only [FullDaemon.calm, hk, he, Bool.and_eq_true, Bool.not_eq_true'] at h
              obtain ⟨⟨ho, hc⟩, hrest⟩ := h
              exact .head (.act (o := o) (k := k) (r := x.1) hk (Op.calm.adm hgen hso ho hc) he)
                (ih _ hrest)

end NbdVram
