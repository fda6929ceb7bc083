import Mathlib.Logic.Function.Basic
import Mathlib.Data.List.Basic

/-!
# Draining on SIGTERM

A SIGTERM must not take down a daemon with a client attached: the kernel may still
have swap pages on the device. The handler therefore only raises
`g_term_requested` while `clients_connected` finds a client, and the workers finish
the exit once the last one is gone.

This file models the outer loop of `thread_worker`, the serving loop of
`handle_client` as far as `g_running` and the connection matter to it, the signal
handler, and the final join of `main`, all as threads that interleave at every
access to a shared variable. `clients_connected` is a scan, slot by slot.

The scan can miss a client: between its own look at `g_term_requested` and the
store of `g_client_fds[idx]` a worker is invisible to it. `Clean` names the store
that comes too late, and `drain_safe` shows that nothing else goes wrong.
-/

namespace NbdVram

namespace Drain

/-- Where a worker stands. The connections are file descriptors. -/
inductive Pc
  | init
  /-- `while (g_running)` of `thread_worker`. -/
  | loop
  | checkTerm
  /-- `clients_connected` called by the worker, about to look at slot `i`. -/
  | scan (i : ℕ)
  | poll
  | accept
  /-- About to store `g_client_fds[idx]`. -/
  | store (c : ℕ)
  | handshake (c : ℕ)
  /-- `while (g_running)` of `handle_client`. -/
  | check (c : ℕ)
  | serve (c : ℕ)
  /-- `handle_client` has returned. -/
  | leave (c : ℕ)
  | close (c : ℕ)
  | exited
  deriving Repr, DecidableEq

/-- The connection a worker has open. -/
def Pc.conn : Pc → Option ℕ
  | .store c => some c
  | .handshake c => some c
  | .check c => some c
  | .serve c => some c
  | .leave c => some c
  | .close c => some c
  | _ => none

/-- The connection a worker shows in `g_client_fds`. -/
def Pc.shown : Pc → Option ℕ
  | .handshake c => some c
  | .check c => some c
  | .serve c => some c
  | .leave c => some c
  | _ => none

/-- The connection a worker is in the serving loop with. -/
def Pc.serving : Pc → Option ℕ
  | .check c => some c
  | .serve c => some c
  | _ => none

/-- Where one activation of `sig_handler` stands. -/
inductive Hpc
  | idle
  | raise
  /-- `clients_connected` called by the handler, about to look at slot `i`. -/
  | scan (i : ℕ)
  /-- The shutdown loop, about to read slot `i`. -/
  | shut (i : ℕ)
  /-- The shutdown loop, about to shut down what slot `i` held. -/
  | shutFd (i c : ℕ)
  deriving Repr, DecidableEq

structure State where
  running : Bool
  term : Bool
  fds : ℕ → Option ℕ
  pc : ℕ → Pc
  sig : ℕ → Hpc
  /-- The client has sent DISC, closed the connection, or broken it by a protocol error or
  an EIO. -/
  gone : ℕ → Bool
  /-- The socket has been shut down by the daemon. -/
  down : ℕ → Bool

/-- What a system call of the worker answers. -/
inductive Answer
  | ok
  | fd (c : ℕ)
  /-- Nothing there: a timeout of `poll`, a lost race for `accept`. -/
  | none
  | failed
  deriving Repr, DecidableEq

inductive Act
  | worker (w : ℕ) (r : Answer)
  /-- SIGTERM or SIGINT arrives and activation `k` of the handler starts. -/
  | signal (k : ℕ)
  | handler (k : ℕ)
  /-- The client of connection `c` detaches. -/
  | detach (c : ℕ)
  /-- `main` has joined all workers. -/
  | join
  deriving Repr, DecidableEq

def State.goto (s : State) (w : ℕ) (p : Pc) : State :=
  { s with pc := Function.update s.pc w p }

def State.sigTo (s : State) (k : ℕ) (p : Hpc) : State :=
  { s with sig := Function.update s.sig k p }

/-- One step of worker `idx` of `n`: `thread_worker` and the loop of `handle_client`. -/
def workerStep (n : ℕ) (s : State) (idx : ℕ) (r : Answer) : Option State :=
  match s.pc idx with
  | .init => if r = .failed then some (s.goto idx .exited) else some (s.goto idx .loop)
  | .loop => some (s.goto idx (if s.running then .checkTerm else .exited))
  | .checkTerm => some (s.goto idx (if s.term then .scan 0 else .poll))
  | .scan i =>
    if i < n then
      -- a client found: sleep and go round again
      some (s.goto idx (if (s.fds i).isSome then .loop else .scan (i + 1)))
    else some ({ s with running := false }.goto idx .exited)
  | .poll => some (s.goto idx (if r = .ok then .accept else .loop))
  | .accept =>
    match r with
    | .fd c =>
      if ∀ v < n, (s.pc v).conn ≠ some c then
        some ({ s with
          gone := Function.update s.gone c false
          down := Function.update s.down c false }.goto idx (.store c))
      else none
    | .failed => some (s.goto idx .exited)
    | _ => some (s.goto idx .loop)
  | .store c => some ({ s with fds := Function.update s.fds idx (some c) }.goto idx (.handshake c))
  | .handshake c =>
    if r = .ok ∧ s.down c = false then some (s.goto idx (.check c))
    else some (s.goto idx (.leave c))
  | .check c => some (s.goto idx (if s.running then .serve c else .leave c))
  | .serve c =>
    -- a request served, or a receive or send that failed: never without a cause
    if r = .ok ∧ s.down c = false then some (s.goto idx (.check c))
    else if s.gone c ∨ s.down c then some (s.goto idx (.leave c))
    else none
  | .leave c => some ({ s with fds := Function.update s.fds idx none }.goto idx (.close c))
  | .close _ => some (s.goto idx .loop)
  | .exited => none

/-- One step of `sig_handler`. -/
def handlerStep (n : ℕ) (s : State) (k : ℕ) : Option State :=
  match s.sig k with
  | .idle => none
  | .raise => some ({ s with term := true }.sigTo k (.scan 0))
  | .scan i =>
    if i < n then some (s.sigTo k (if (s.fds i).isSome then .idle else .scan (i + 1)))
    else some ({ s with running := false }.sigTo k (.shut 0))
  | .shut i =>
    if i < n then
      match s.fds i with
      | some c => some (s.sigTo k (.shutFd i c))
      | none => some (s.sigTo k (.shut (i + 1)))
    else some (s.sigTo k .idle)
  | .shutFd i c =>
    some ({ s with down := Function.update s.down c true }.sigTo k (.shut (i + 1)))

def step (n : ℕ) (s : State) : Act → Option State
  | .worker w r => if w < n then workerStep n s w r else none
  | .signal k => if s.sig k = .idle then some (s.sigTo k .raise) else none
  | .handler k => handlerStep n s k
  | .detach c => some { s with gone := Function.update s.gone c true }
  | .join => if ∀ w < n, s.pc w = .exited then some { s with running := false } else none

def start : State :=
  ⟨true, false, fun _ => none, fun _ => .init, fun _ => .idle, fun _ => false, fun _ => false⟩

/-- The states of a run, with a condition on every step. -/
inductive Reaches (n : ℕ) (P : State → Act → Prop) : State → Prop
  | start : Reaches n P start
  | step {s s' : State} {a : Act} : Reaches n P s → P s a → step n s a = some s' → Reaches n P s'

def runs (n : ℕ) (s : State) : List Act → Option State
  | [] => some s
  | a :: as => (step n s a).bind fun s' => runs n s' as

/-- A client that has completed its handshake with worker `w` and has not detached. -/
def Attached (n : ℕ) (s : State) (w c : ℕ) : Prop :=
  w < n ∧ (s.pc w).serving = some c ∧ s.gone c = false

/-- A step takes the daemon away from an attached client: it clears `g_running`, shuts the
connection down, or lets the worker out of the serving loop (and so to the close). A step in
which the client itself detaches is not one. -/
def Drops (n : ℕ) (s s' : State) : Prop :=
  ∃ w c, Attached n s w c ∧ s'.gone c = false ∧
    ((s.running = true ∧ s'.running = false) ∨ s'.down c = true ∨ (s'.pc w).serving ≠ some c)

/-! ## The late store -/

/-- A scan that has found nobody so far and has already passed slot `w`. -/
def Passed (n : ℕ) (s : State) (w : ℕ) : Prop :=
  (∃ k i, s.sig k = .scan i ∧ w < i) ∨ ∃ v i, v < n ∧ s.pc v = .scan i ∧ w < i

/-- The condition on a step: a worker stores its client in `g_client_fds` while the daemon is
running and before any scan in progress has passed its slot. -/
def Clean (n : ℕ) (s : State) : Act → Prop
  | .worker w _ => ∀ c, s.pc w = .store c → s.running = true ∧ ¬ Passed n s w
  | _ => True

/-- What clean steps keep. -/
structure Inv (n : ℕ) (s : State) : Prop where
  shown : ∀ w < n, s.fds w = (s.pc w).shown
  sig_scan : ∀ k i, s.sig k = .scan i → ∀ w < i, w < n → s.fds w = none
  scan : ∀ v i, v < n → s.pc v = .scan i → ∀ w < i, w < n → s.fds w = none
  stopped : s.running = false → ∀ w < n, s.fds w = none
  shutting : (∀ k i, s.sig k = .shut i → s.running = false) ∧
    ∀ k i c, s.sig k = .shutFd i c → s.running = false
  down : s.running = true → ∀ c, s.down c = false

theorem start_inv (n : ℕ) : Inv n start :=
  ⟨fun _ _ => rfl, by simp [start], by simp [start], by simp [start], by simp [start],
    by simp [start]⟩

variable {n w k c : ℕ} {s s' : State} {p : Pc} {r : Answer}

/-- A worker that only moves on, without a scan to answer for. -/
theorem Inv.goto (h : Inv n s) (hw : w < n) (hsh : p.shown = (s.pc w).shown)
    (hsc : ∀ i, p = .scan i → ∀ v < i, v < n → s.fds v = none) : Inv n (s.goto w p) := by
  refine ⟨?_, h.sig_scan, ?_, h.stopped, h.shutting, h.down⟩
  · intro v hv
    by_cases hvw : v = w
    · subst hvw
      rw [State.goto]
      simp only [Function.update_self, hsh]
      exact h.shown v hv
    · simpa only [State.goto, Function.update_of_ne hvw] using h.shown v hv
  · intro v i hv hp
    by_cases hvw : v = w
    · subst hvw
      simp only [State.goto, Function.update_self] at hp
      exact hsc i hp
    · simp only [State.goto, Function.update_of_ne hvw] at hp
      exact h.scan v i hv hp

theorem Inv.sigTo (h : Inv n s) {q : Hpc}
    (hsc : ∀ i, q = .scan i → ∀ v < i, v < n → s.fds v = none)
    (hsh : (∃ i, q = .shut i) ∨ (∃ i c, q = .shutFd i c) → s.running = false) :
    Inv n (s.sigTo k q) := by
  refine ⟨h.shown, ?_, h.scan, h.stopped, ⟨?_, ?_⟩, h.down⟩
  · intro j i hp
    by_cases hj : j = k
    · subst hj
      simp only [State.sigTo, Function.update_self] at hp
      exact hsc i hp
    · simp only [State.sigTo, Function.update_of_ne hj] at hp
      exact h.sig_scan j i hp
  · intro j i hp
    by_cases hj : j = k
    · subst hj
      simp only [State.sigTo, Function.update_self] at hp
      exact hsh (.inl ⟨i, hp⟩)
    · simp only [State.sigTo, Function.update_of_ne hj] at hp
      exact h.shutting.1 j i hp
  · intro j i c hp
    by_cases hj : j = k
    · subst hj
      simp only [State.sigTo, Function.update_self] at hp
      exact hsh (.inr ⟨i, c, hp⟩)
    · simp only [State.sigTo, Function.update_of_ne hj] at hp
      exact h.shutting.2 j i c hp

/-- A scan that has come to its end has seen every slot empty. -/
theorem Inv.clear (h : Inv n s) (hall : ∀ w < n, s.fds w = none) :
    Inv n { s with running := false } :=
  ⟨h.shown, h.sig_scan, h.scan, fun _ => hall, ⟨fun _ _ _ => rfl, fun _ _ _ _ => rfl⟩,
    fun hr => absurd hr (by simp)⟩

/-- The next slot of a scan. -/
theorem scan_succ {i : ℕ} (hs : ∀ v < i, v < n → s.fds v = none) (hi : s.fds i = none) :
    ∀ v < i + 1, v < n → s.fds v = none := by
  intro v hv hvn
  rcases Nat.lt_succ_iff_lt_or_eq.mp hv with hlt | rfl
  · exact hs v hlt hvn
  · exact hi

/-- The late store is the one step that needs its condition. -/
theorem Inv.store (h : Inv n s) (hw : w < n) (hr : s.running = true) (hp : ¬ Passed n s w) :
    Inv n ({ s with fds := Function.update s.fds w (some c) }.goto w (.handshake c)) := by
  refine ⟨?_, ?_, ?_, ?_, h.shutting, h.down⟩
  · intro v hv
    by_cases hvw : v = w
    · subst hvw
      simp only [State.goto, Function.update_self, Pc.shown]
    · simpa only [State.goto, Function.update_of_ne hvw] using h.shown v hv
  · intro j i hj v hv hvn
    have hvw : v ≠ w := by
      rintro rfl
      exact hp (.inl ⟨j, i, hj, hv⟩)
    simpa only [State.goto, Function.update_of_ne hvw] using h.sig_scan j i hj v hv hvn
  · intro u i hu hpc v hv hvn
    by_cases huw : u = w
    · subst huw
      simp only [State.goto, Function.update_self] at hpc
      exact absurd hpc (by simp)
    · simp only [State.goto, Function.update_of_ne huw] at hpc
      have hvw : v ≠ w := by
        rintro rfl
        exact hp (.inr ⟨u, i, hu, hpc, hv⟩)
      simpa only [State.goto, Function.update_of_ne hvw] using h.scan u i hu hpc v hv hvn
  · intro hf
    exact absurd (hr.symm.trans hf) (by simp)

/-- Clearing a slot hides nobody. -/
theorem Inv.unstore (h : Inv n s) :
    Inv n ({ s with fds := Function.update s.fds w none }.goto w (.close c)) := by
  have hnone : ∀ v, s.fds v = none → Function.update s.fds w none v = none := by
    intro v hv
    by_cases hvw : v = w
    · rw [hvw, Function.update_self]
    · rw [Function.update_of_ne hvw, hv]
  refine ⟨?_, ?_, ?_, ?_, h.shutting, h.down⟩
  · intro v hv
    by_cases hvw : v = w
    · subst hvw
      simp only [State.goto, Function.update_self, Pc.shown]
    · simpa only [State.goto, Function.update_of_ne hvw] using h.shown v hv
  · intro j i hj v hv hvn
    exact hnone v (h.sig_scan j i hj v hv hvn)
  · intro u i hu hpc v hv hvn
    by_cases huw : u = w
    · subst huw
      simp only [State.goto, Function.update_self] at hpc
      exact absurd hpc (by simp)
    · simp only [State.goto, Function.update_of_ne huw] at hpc
      exact hnone v (h.scan u i hu hpc v hv hvn)
  · intro hf v hv
    exact hnone v (h.stopped hf v hv)

/-- A fresh connection. -/
theorem Inv.fresh (h : Inv n s) : Inv n { s with
    gone := Function.update s.gone c false
    down := Function.update s.down c false } := by
  refine ⟨h.shown, h.sig_scan, h.scan, h.stopped, h.shutting, ?_⟩
  intro hr d
  by_cases hd : d = c
  · rw [hd]
    exact Function.update_self ..
  · simpa only [Function.update_of_ne hd] using h.down hr d

theorem workerStep_inv (h : Inv n s) (hw : w < n)
    (hc : ∀ c, s.pc w = .store c → s.running = true ∧ ¬ Passed n s w)
    (hs : workerStep n s w r = some s') : Inv n s' := by
  unfold workerStep at hs
  cases hp : s.pc w with
  | init =>
      simp only [hp] at hs
      split at hs <;> cases hs <;> exact h.goto hw (by rw [hp]; rfl) (by simp)
  | loop =>
      simp only [hp] at hs
      cases hs
      refine h.goto hw ?_ ?_ <;> split <;> simp [hp, Pc.shown]
  | checkTerm =>
      simp only [hp] at hs
      cases hs
      refine h.goto hw ?_ ?_ <;> split <;> simp [hp, Pc.shown]
  | scan i =>
      simp only [hp] at hs
      have hpre := h.scan w i hw hp
      split at hs
      · cases hs
        cases hf : s.fds i with
        | some c => exact h.goto hw (by rw [hp]; rfl) (by simp)
        | none =>
            refine h.goto hw (by rw [hp]; rfl) ?_
            rintro j ⟨⟩
            exact scan_succ hpre hf
      · rename_i hi
        cases hs
        have hcl : Inv n { s with running := false } :=
          h.clear fun v hv => hpre v (by omega) hv
        exact hcl.goto hw (by show Pc.shown .exited = (s.pc w).shown; rw [hp]; rfl) (by simp)
  | poll =>
      simp only [hp] at hs
      cases hs
      refine h.goto hw ?_ ?_ <;> split <;> simp [hp, Pc.shown]
  | accept =>
      simp only [hp] at hs
      cases r with
      | fd c =>
          simp only at hs
          split at hs
          · cases hs
            refine h.fresh.goto hw ?_ (by simp)
            show Pc.shown (.store c) = (s.pc w).shown
            rw [hp]
            rfl
          · cases hs
      | failed => cases hs; exact h.goto hw (by rw [hp]; rfl) (by simp)
      | ok => cases hs; exact h.goto hw (by rw [hp]; rfl) (by simp)
      | none => cases hs; exact h.goto hw (by rw [hp]; rfl) (by simp)
  | store c =>
      simp only [hp] at hs
      cases hs
      obtain ⟨hr, hpass⟩ := hc c hp
      exact h.store hw hr hpass
  | handshake c =>
      simp only [hp] at hs
      split at hs <;> cases hs <;> exact h.goto hw (by rw [hp]; rfl) (by simp)
  | check c =>
      simp only [hp] at hs
      cases hs
      refine h.goto hw ?_ ?_ <;> split <;> simp [hp, Pc.shown]
  | serve c =>
      simp only [hp] at hs
      split at hs
      · cases hs
        exact h.goto hw (by rw [hp]; rfl) (by simp)
      · split at hs
        · cases hs
          exact h.goto hw (by rw [hp]; rfl) (by simp)
        · cases hs
  | leave c =>
      simp only [hp] at hs
      cases hs
      exact h.unstore
  | close c =>
      simp only [hp] at hs
      cases hs
      exact h.goto hw (by rw [hp]; rfl) (by simp)
  | exited =>
      simp only [hp] at hs
      cases hs

theorem handlerStep_inv (h : Inv n s) (hs : handlerStep n s k = some s') : Inv n s' := by
  unfold handlerStep at hs
  cases hp : s.sig k with
  | idle =>
      simp only [hp] at hs
      cases hs
  | raise =>
      simp only [hp] at hs
      cases hs
      have ht : Inv n { s with term := true } :=
        ⟨h.shown, h.sig_scan, h.scan, h.stopped, h.shutting, h.down⟩
      refine ht.sigTo ?_ (by simp)
      rintro i ⟨⟩ v hv
      omega
  | scan i =>
      simp only [hp] at hs
      have hpre := h.sig_scan k i hp
      split at hs
      · cases hs
        cases hf : s.fds i with
        | some c => exact h.sigTo (by simp) (by simp)
        | none =>
            refine h.sigTo ?_ (by simp)
            rintro j ⟨⟩
            exact scan_succ hpre hf
      · rename_i hi
        cases hs
        have hcl : Inv n { s with running := false } :=
          h.clear fun v hv => hpre v (by omega) hv
        exact hcl.sigTo (by simp) (fun _ => rfl)
  | shut i =>
      simp only [hp] at hs
      have hr := h.shutting.1 k i hp
      split at hs
      · cases hf : s.fds i with
        | some c =>
            simp only [hf] at hs
            cases hs
            exact h.sigTo (by simp) (fun _ => hr)
        | none =>
            simp only [hf] at hs
            cases hs
            exact h.sigTo (by simp) (fun _ => hr)
      · cases hs
        exact h.sigTo (by simp) (by simp)
  | shutFd i c =>
      simp only [hp] at hs
      have hr := h.shutting.2 k i c hp
      cases hs
      have hd : Inv n { s with down := Function.update s.down c true } :=
        ⟨h.shown, h.sig_scan, h.scan, h.stopped, h.shutting,
          fun ht => absurd (hr.symm.trans ht) (by simp)⟩
      exact hd.sigTo (by simp) (fun _ => hr)

/-- **One step.** -/
theorem step_inv {a : Act} (h : Inv n s) (hc : Clean n s a) (hs : step n s a = some s') :
    Inv n s' := by
  cases a with
  | worker w r =>
      simp only [step] at hs
      split at hs
      · rename_i hw
        exact workerStep_inv h hw hc hs
      · cases hs
  | signal k =>
      simp only [step] at hs
      split at hs
      · cases hs
        exact h.sigTo (by simp) (by simp)
      · cases hs
  | handler k => exact handlerStep_inv h hs
  | detach c =>
      simp only [step] at hs
      cases hs
      exact ⟨h.shown, h.sig_scan, h.scan, h.stopped, h.shutting, h.down⟩
  | join =>
      simp only [step] at hs
      split at hs
      · rename_i hex
        cases hs
        refine h.clear fun w hw => ?_
        rw [h.shown w hw, hex w hw]
        rfl
      · cases hs

/-- **A whole run.** -/
theorem Reaches.inv (h : Reaches n (Clean n) s) : Inv n s := by
  induction h with
  | start => exact start_inv n
  | step _ hc hs ih => exact step_inv ih hc hs

/-! ## Nobody is dropped -/

theorem Attached.shown (h : Inv n s) (ha : Attached n s w c) : s.fds w = some c := by
  obtain ⟨hw, hs, -⟩ := ha
  rw [h.shown w hw]
  cases hp : s.pc w <;> simp_all [Pc.serving, Pc.shown]

theorem Attached.running (h : Inv n s) (ha : Attached n s w c) : s.running = true := by
  cases hr : s.running with
  | true => rfl
  | false =>
      have := h.stopped hr w ha.1
      rw [ha.shown h] at this
      exact absurd this (by simp)

/-- The worker of an attached client stays in the serving loop. -/
theorem worker_stays (h : Inv n s) (ha : Attached n s w c) (hs : workerStep n s w r = some s') :
    (s'.pc w).serving = some c := by
  have hrun := ha.running h
  have hdown := h.down hrun c
  obtain ⟨-, hsv, hg⟩ := ha
  unfold workerStep at hs
  cases hp : s.pc w <;> simp only [hp, Pc.serving, Option.some.injEq, reduceCtorEq] at hsv
  · subst hsv
    simp only [hp, hrun] at hs
    cases hs
    simp [State.goto, Pc.serving]
  · subst hsv
    simp only [hp, hdown, hg] at hs
    split at hs
    · cases hs
      simp [State.goto, Pc.serving]
    · simp at hs

/-- A step of somebody else leaves the worker where it is. -/
theorem step_pc_of_ne {a : Act} (hne : ∀ r, a ≠ .worker w r) (hs : step n s a = some s') :
    s'.pc w = s.pc w := by
  cases a with
  | worker v r =>
      have hv : w ≠ v := by
        rintro rfl
        exact hne r rfl
      simp only [step] at hs
      split at hs
      · unfold workerStep at hs
        cases hp : s.pc v <;> simp only [hp] at hs <;> (repeat' split at hs) <;> cases hs <;>
          simp only [State.goto, Function.update_of_ne hv]
      · cases hs
  | signal k =>
      simp only [step] at hs
      split at hs <;> cases hs
      rfl
  | handler k =>
      simp only [step, handlerStep] at hs
      cases hp : s.sig k <;> simp only [hp] at hs <;> (repeat' split at hs) <;> cases hs <;> rfl
  | detach c =>
      simp only [step] at hs
      cases hs
      rfl
  | join =>
      simp only [step] at hs
      split at hs <;> cases hs
      rfl

/-- **Drain safety.** With any number of workers and any interleaving of signals with their
steps: as long as every worker that stores an accepted client does so while the daemon is
running and before a scan in progress has passed its slot, no step takes the daemon away from
an attached client. -/
theorem drain_safe (n : ℕ) {s s' : State} {a : Act} (h : Reaches n (Clean n) s)
    (hc : Clean n s a) (hs : step n s a = some s') : ¬ Drops n s s' := by
  rintro ⟨w, c, ha, hg', hbad⟩
  have hi := h.inv
  have hi' := step_inv hi hc hs
  have hstay : (s'.pc w).serving = some c := by
    by_cases hw : ∃ r, a = .worker w r
    · obtain ⟨r, rfl⟩ := hw
      simp only [step, if_pos ha.1] at hs
      exact worker_stays hi ha hs
    · rw [step_pc_of_ne (fun r hr => hw ⟨r, hr⟩) hs]
      exact ha.2.1
  have hrun' := Attached.running hi' ⟨ha.1, hstay, hg'⟩
  rcases hbad with ⟨-, hstop⟩ | hdown | hleft
  · exact absurd (hrun'.symm.trans hstop) (by simp)
  · exact absurd ((hi'.down hrun' c).symm.trans hdown) (by simp)
  · exact hleft hstay

/-- A run whose steps all meet the condition. -/
def MeetsAll (n : ℕ) (P : State → Act → Prop) (s : State) : List Act → Prop
  | [] => True
  | a :: as => P s a ∧ ∀ s', step n s a = some s' → MeetsAll n P s' as

theorem Reaches.runs {P : State → Act → Prop} {as : List Act} (h : Reaches n P s)
    (hp : MeetsAll n P s as) (hr : Drain.runs n s as = some s') : Reaches n P s' := by
  induction as generalizing s with
  | nil =>
      cases hr
      exact h
  | cons a as ih =>
      obtain ⟨t, ht, hr⟩ := Option.bind_eq_some_iff.mp hr
      exact ih (.step h hp.1 ht) (hp.2 t ht) hr

/-- A worker accepts client 5 and is about to store it. -/
def accepted : List Act :=
  [.worker 0 .ok, .worker 0 .ok, .worker 0 .ok, .worker 0 .ok, .worker 0 (.fd 5)]

/-- A client that is stored, has completed its handshake and is being served. -/
def served : List Act := accepted ++ [.worker 0 .ok, .worker 0 .ok, .worker 0 .ok]

theorem served_clean : MeetsAll 1 (Clean 1) start served := by
  have hstep : ∀ {s : State} {r : Answer} {as : List Act}, (∀ c, s.pc 0 ≠ .store c) →
      (∀ s', step 1 s (.worker 0 r) = some s' → MeetsAll 1 (Clean 1) s' as) →
      MeetsAll 1 (Clean 1) s (.worker 0 r :: as) :=
    fun hne hrest => ⟨fun c hc => absurd hc (hne c), hrest⟩
  refine hstep (by simp [start]) ?_
  rintro s ⟨⟩
  refine hstep (by simp [State.goto, start]) ?_
  rintro s ⟨⟩
  refine hstep (by simp [State.goto, start]) ?_
  rintro s ⟨⟩
  refine hstep (by simp [State.goto, start]) ?_
  rintro s ⟨⟩
  refine hstep (by simp [State.goto, start]) ?_
  rintro s ⟨⟩
  -- the store: the daemon is running and nobody scans
  refine ⟨fun c _ => ⟨rfl, ?_⟩, ?_⟩
  · rintro (⟨k, i, hk, -⟩ | ⟨v, i, hv, hp, -⟩)
    · exact absurd hk (by simp [State.goto, start])
    · obtain rfl : v = 0 := by omega
      exact absurd hp (by simp [State.goto])
  rintro s ⟨⟩
  refine hstep (by simp [State.goto]) ?_
  rintro s ⟨⟩
  refine hstep (by simp [State.goto]) ?_
  rintro s ⟨⟩
  trivial

/-- A signal finds the client attached and leaves it alone. -/
theorem drain_safe_served :
    ∃ s s', Reaches 1 (Clean 1) s ∧ Attached 1 s 0 5 ∧ Clean 1 s (.signal 0) ∧
      step 1 s (.signal 0) = some s' ∧ ¬ Drops 1 s s' := by
  have h := Reaches.runs Reaches.start served_clean rfl
  exact ⟨_, _, h, ⟨by decide, rfl, rfl⟩, trivial, rfl, drain_safe 1 (a := .signal 0) h trivial rfl⟩

/-- The handler scans past the slot of a worker that is about to store its client; the client
completes its handshake and is being served when the handler clears `g_running`. -/
def lateStore : List Act :=
  accepted ++ [.signal 0, .handler 0, .handler 0, .worker 0 .ok, .worker 0 .ok, .worker 0 .ok]

theorem drain_drops_client :
    ¬ ∀ (n : ℕ) (s s' : State) (a : Act), Reaches n (fun _ _ => True) s →
      step n s a = some s' → ¬ Drops n s s' := by
  intro hall
  have hmeets : ∀ (as : List Act) (s : State), MeetsAll 1 (fun _ _ => True) s as := by
    intro as
    induction as with
    | nil => intro s; trivial
    | cons a as ih => exact fun s => ⟨trivial, fun s' _ => ih s'⟩
  have h := Reaches.runs Reaches.start (hmeets lateStore start) rfl
  exact hall 1 _ _ (.handler 0) h rfl ⟨0, 5, ⟨by decide, rfl, rfl⟩, rfl, .inl ⟨rfl, rfl⟩⟩

end Drain

end NbdVram
