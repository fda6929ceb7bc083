import NbdVram.Linear

/-!
# Copies that fail

A copy can be rejected at its launch, or fail until the synchronize that waits for it.

A reservation ends published or given back, except in one place: when `do_blocks`
has a copy to the device rejected, the op fails and its slot stays reserved. With
no such rejection the slots of a daemon at rest are those of the written blocks;
with one, a slot is lost.

Rejected launches are reported, and their blocks keep what they held. Failed
synchronizes are not looked at: a WRITE can be answered without error although its
bytes never reached the device.
-/

namespace NbdVram

open Interleave Span

variable {cfg : Config} {md : Mode} {w : ℕ}

/-- Every allocated slot is named by a written entry. -/
def State.Tight (cfg : Config) (s : State) : Prop :=
  ∀ g, Alloc.Live cfg.heap s.alloc g → ∃ b, entClen (s.index b) ≠ 0 ∧ entGrain (s.index b) = g

/-- No copy of `do_blocks` to the device is rejected. -/
def Mode.kept : Mode := { Mode.any with batch := true }

/-- **No slot leaks while `do_blocks` gets its copies to the device launched.** In every run in
which none of them is rejected, whatever the other copies, the synchronizes and the allocations do:
whenever every worker is at rest, each allocated slot is named by a written index entry. -/
theorem no_slot_leak {S : Daemon cfg} (h : Daemon.Reachable cfg .kept S)
    (hrest : ∀ w, ∃ ph, S.prog w = .ret ph) : S.st.Tight cfg := by
  intro g hg
  have hi := h.inv rfl
  have hquiet : ∀ v, Quiet .kept v S.st := fun v => by
    obtain ⟨ph, hp⟩ := hrest v
    exact (h.quiet rfl hp).1
  obtain ⟨own, ho⟩ := hi.owned
  obtain ⟨o, hown⟩ := Option.ne_none_iff_exists'.mp ((ho.live g).mp hg)
  cases o with
  | entry b => exact ⟨b, (ho.entry b g).mp hown⟩
  | resv v =>
      have hmem := (ho.resv v g).mp hown
      cases (hquiet v).resv rfl g hmem
  | disp v =>
      have hmem := (ho.disp v g).mp hown
      rw [(hquiet v).disp] at hmem
      cases hmem

/-- Whether a worker is at rest. -/
def Daemon.resting (S : Daemon cfg) (w : ℕ) : Bool :=
  match S.prog w with
  | .ret _ => true
  | .act _ _ => false

theorem Daemon.resting_iff {S : Daemon cfg} : S.resting w = true ↔ ∃ ph, S.prog w = .ret ph := by
  unfold Daemon.resting
  cases S.prog w with
  | ret ph => exact ⟨fun _ => ⟨ph, rfl⟩, fun _ => rfl⟩
  | act o k => exact ⟨fun h => (nomatch h), fun ⟨ph, h⟩ => (nomatch h)⟩

/-- The other workers stay as they are. -/
theorem Daemon.drive_rest {v : ℕ} (hv : v ≠ w) (cs : List Choice) (S : Daemon cfg) :
    (Daemon.drive w cs S).prog v = S.prog v := by
  induction cs generalizing S with
  | nil => rfl
  | cons c cs ih =>
      rw [Daemon.drive]
      split
      · rfl
      · split
        · rfl
        · rw [ih]
          exact Function.update_of_ne hv _ _

theorem Daemon.booted_drive_rest {cs : List Choice}
    (hp : (Daemon.drive w cs (Daemon.booted cfg)).resting w = true) (v : ℕ) :
    ∃ ph, (Daemon.drive w cs (Daemon.booted cfg)).prog v = .ret ph := by
  by_cases hv : v = w
  · subst hv
    exact Daemon.resting_iff.mp hp
  · exact ⟨_, (Daemon.drive_rest hv cs _).trans rfl⟩

/-- The daemon after the WRITE of one byte has been answered. -/
def Daemon.wrote : Daemon smallConfig :=
  Daemon.drive 0 (.client byteWrite :: List.replicate 28 .plain) (Daemon.booted smallConfig)

set_option maxRecDepth 100000 in
theorem no_slot_leak_wrote : Alloc.Live smallConfig.heap Daemon.wrote.st.alloc 0 ∧
    ∃ b, entClen (Daemon.wrote.st.index b) ≠ 0 ∧ entGrain (Daemon.wrote.st.index b) = 0 := by
  have hall : Daemon.wrote.st.alloc = (Alloc.slotAlloc Alloc.smallHeap
    (Alloc.storeInit Alloc.smallHeap) 4096).2 := rfl
  have hlive : Alloc.Live smallConfig.heap Daemon.wrote.st.alloc 0 := by
    rw [hall]
    decide
  have hp : Daemon.wrote.resting 0 = true := rfl
  have hreach : Daemon.Reachable smallConfig .kept Daemon.wrote :=
    ⟨_, ⟨State.boot_initial smallConfig, fun _ => .inr ⟨.blank, rfl⟩⟩,
      Daemon.drive_plain rfl rfl rfl _ (by decide) _ (by decide)⟩
  exact ⟨hlive, no_slot_leak hreach (Daemon.booted_drive_rest hp) 0 hlive⟩

/-- A WRITE of the first block, with its payload. -/
def blockWriteRaw : List UInt8 :=
  [0x25, 0x60, 0x95, 0x13, 0, 0, 0, 1, 0, 0, 0, 0, 0, 0, 0, 1, 0, 0, 0, 0, 0, 0, 0, 0, 0, 0, 16, 0] ++
    List.replicate 4096 7

/-- The device rejects the copy of the block. -/
def Daemon.leaking : Daemon smallConfig :=
  Daemon.drive 0 (.client blockWriteRaw :: List.replicate 16 .plain ++
    { Choice.plain with fail := true } :: List.replicate 6 .plain) (Daemon.booted smallConfig)

set_option maxRecDepth 100000 in
theorem no_slot_leak_rejected : ∃ S : Daemon smallConfig, Daemon.Reachable smallConfig .any S ∧
    (∀ w, ∃ ph, S.prog w = .ret ph) ∧ ¬ S.st.Tight smallConfig := by
  refine ⟨Daemon.leaking, Daemon.booted_drive smallConfig 0 _, fun w => ?_, fun ht => ?_⟩
  · have hp : Daemon.leaking.resting 0 = true := rfl
    exact Daemon.booted_drive_rest hp w
  · have hidx : Daemon.leaking.st.index = fun _ => 0 := rfl
    have hall : Daemon.leaking.st.alloc = (Alloc.slotAlloc Alloc.smallHeap
      (Alloc.storeInit Alloc.smallHeap) 4096).2 := rfl
    obtain ⟨b, hb, -⟩ := ht 0 (by rw [hall]; decide)
    rw [hidx] at hb
    exact hb (show entClen 0 = 0 by decide)

/-! ## Failures and answers -/

/-- A byte that a prefix of the log makes of address `a` was there in some state of the run. -/
theorem Daemon.Run.byte {S₀ S : Daemon cfg} (h0 : Daemon.Initial cfg S₀) (hs : md.since = 0)
    (hrun : Daemon.Run cfg md S₀ S) {t k a : ℕ} (hk : k ≤ t) (ht : t ≤ S.st.log.length) :
    ∃ T : Daemon cfg, Daemon.Run cfg md S₀ T ∧ Daemon.Run cfg md T S ∧ k ≤ T.st.log.length ∧
      (T.st.content cfg (a / 4096)).bytes.getD (a % 4096) default = disk (S.st.log.take t) a := by
  obtain ⟨T, hT, hT', hl⟩ := hrun.instant.2 t (by rw [h0.1.log]; exact Nat.zero_le _) ht
  have hi : Inv cfg md T.st := Daemon.Reachable.inv ⟨S₀, h0, hT⟩ hs
  refine ⟨T, hT, hT', by rwa [hl, List.length_take_of_le ht], ?_⟩
  rw [hi.content, hl, pageOf_getD]

end NbdVram
