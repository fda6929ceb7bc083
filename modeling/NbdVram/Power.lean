import Mathlib.Data.List.Basic
import Mathlib.Algebra.Ring.Int.Defs

/-!
# Power management and sleep

`nbd-vram-power-check.sh` and `nbd-vram-sleep.sh` stop and start the service on
their own, and each leaves a marker file under `/run` when it stops it. This file
models both scripts as functions on the state of the machine (the service, the two
markers, what `/sys/class/power_supply` shows) and the events between their runs.

The ghost field `lastStop` remembers who caused the latest transition of the
service from active to inactive. The scripts do not see it: they take their
marker for it, and `manual_stop_respected` says exactly when they may.
-/

namespace NbdVram

namespace Power

/-! ## What the scripts read -/

/-- One directory of `/sys/class/power_supply`: whether its name starts with `BAT`, and the
files the script looks at, each absent or with its first line. -/
structure Supply where
  bat : Bool
  type : Option String
  online : Option String
  capacity : Option String
  deriving Repr, DecidableEq

/-- `/etc/nbd-vram.conf`, over the defaults of the script. -/
structure Conf where
  powerManagement : String := "0"
  disableOnBattery : String := "1"
  batteryThreshold : String := "20"
  deriving Repr, DecidableEq

/-- `AC_ONLINE`: the first mains supply decides, and without one the machine counts as online. -/
def acOnline : List Supply → String
  | [] => "1"
  | p :: ps =>
    match p.online, p.type with
    | some on, some ty => if ty = "Mains" then on else acOnline ps
    | _, _ => acOnline ps

/-- `BATTERY_CAP`: the first battery that reports a capacity, else 100. -/
def batteryCap : List Supply → String
  | [] => "100"
  | p :: ps =>
    match p.bat, p.capacity with
    | true, some cap => cap
    | _, _ => batteryCap ps

def digits (n : ℕ) : List Char → Option ℕ
  | [] => some n
  | c :: cs => if c.isDigit then digits (10 * n + (c.toNat - '0'.toNat)) cs else none

/-- An operand of `-gt` or `-lt`: a decimal integer in the range of `intmax_t`, blanks around
it allowed. Anything else makes the test fail. -/
def shInt (s : String) : Option ℤ :=
  let t := ((s.toList.dropWhile Char.isWhitespace).reverse.dropWhile Char.isWhitespace).reverse
  let v : Option ℤ :=
    match t with
    | [] => none
    | '-' :: [] => none
    | '+' :: [] => none
    | '-' :: cs => (digits 0 cs).map fun n => -(n : ℤ)
    | '+' :: cs => (digits 0 cs).map fun n => (n : ℤ)
    | cs => (digits 0 cs).map fun n => (n : ℤ)
  v.filter fun z => -(2 ^ 63) ≤ z ∧ z < 2 ^ 63

/-- `[ a -lt b ]` with its error output thrown away. -/
def shLt (a b : String) : Bool :=
  match shInt a, shInt b with
  | some x, some y => decide (x < y)
  | _, _ => false

/-- `SHOULD_DISABLE`. -/
def shouldDisable (conf : Conf) (ps : List Supply) : Bool :=
  if acOnline ps = "0" then
    if conf.disableOnBattery = "1" then true
    else shLt "0" conf.batteryThreshold && shLt (batteryCap ps) conf.batteryThreshold
  else false

/-! ## The machine -/

/-- Who stopped the service. -/
inductive Cause
  | manual | script
  deriving Repr, DecidableEq

structure State where
  active : Bool
  /-- `/run/nbd-vram-power-disabled` exists. -/
  powerDisabled : Bool
  /-- `/run/nbd-vram-sleep-disabled` exists. -/
  sleepDisabled : Bool
  supplies : List Supply
  lastStop : Option Cause
  deriving Repr, DecidableEq

/-- `systemctl stop`: a transition only of an active service. -/
def State.stop (s : State) (by' : Cause) : State :=
  if s.active then { s with active := false, lastStop := some by' } else s

/-- `systemctl start`. -/
def State.start (s : State) : State := { s with active := true }

/-- `nbd-vram-power-check.sh`: the new state, and whether it issued a start. -/
def powerCheck (conf : Conf) (s : State) : State × Bool :=
  if conf.powerManagement ≠ "1" then (s, false)
  else if shouldDisable conf s.supplies then
    if s.active then ({ s with powerDisabled := true }.stop .script, false) else (s, false)
  else if s.powerDisabled ∧ ¬ s.active then ({ s with powerDisabled := false }.start, true)
  else (s, false)

/-- `nbd-vram-sleep.sh pre`. -/
def sleepPre (s : State) : State :=
  if s.active then { s with sleepDisabled := true }.stop .script else s

/-- `nbd-vram-sleep.sh post`: it looks at its marker only, not at the service. -/
def sleepPost (s : State) : State × Bool :=
  if s.sleepDisabled then ({ s with sleepDisabled := false }.start, true) else (s, false)

inductive Event
  /-- AC plugged or unplugged, or a new battery level: what `/sys` shows from now on. -/
  | power (ps : List Supply)
  | start
  | stop
  | check (conf : Conf)
  | pre
  | post

/-- The state after an event, and whether a script issued a start in it. -/
def step (s : State) : Event → State × Bool
  | .power ps => ({ s with supplies := ps }, false)
  | .start => (s.start, false)
  | .stop => (s.stop .manual, false)
  | .check conf => powerCheck conf s
  | .pre => (sleepPre s, false)
  | .post => sleepPost s

def run (s : State) : List Event → State
  | [] => s
  | e :: es => run (step s e).1 es

/-- A script issues a start although the service was last stopped by hand. -/
def Overrides (s : State) (e : Event) : Prop :=
  (step s e).2 = true ∧ s.lastStop = some .manual

instance (s : State) (e : Event) : Decidable (Overrides s e) :=
  inferInstanceAs (Decidable (_ ∧ _))

/-- After boot `/run` is empty. -/
def Boot (s : State) : Prop :=
  s.powerDisabled = false ∧ s.sleepDisabled = false ∧ s.lastStop = none

instance (s : State) : Decidable (Boot s) := inferInstanceAs (Decidable (_ ∧ _ ∧ _))

/-! ## Stale markers -/

/-- No marker file exists. -/
def State.Unmarked (s : State) : Prop := s.powerDisabled = false ∧ s.sleepDisabled = false

/-- The condition on one event: a manual stop of the running service finds no marker. -/
def Clean (s : State) : Event → Prop
  | .stop => s.active = true → s.Unmarked
  | _ => True

/-- Every event of a run is clean. -/
def CleanRun (s : State) : List Event → Prop
  | [] => True
  | e :: es => Clean s e ∧ CleanRun (step s e).1 es

/-- What clean events keep: after a manual stop there is no marker. -/
def Honest (s : State) : Prop := s.lastStop = some .manual → s.Unmarked

theorem stop_script_honest {s : State} (ha : s.active = true) : Honest (s.stop .script) := by
  intro hl
  rw [State.stop, if_pos ha] at hl
  exact absurd hl (by simp)

theorem powerCheck_honest (conf : Conf) {s : State} (h : Honest s) :
    Honest (powerCheck conf s).1 := by
  unfold powerCheck
  split
  · exact h
  · split
    · split
      · rename_i ha
        exact stop_script_honest ha
      · exact h
    · split
      · intro hl
        exact ⟨rfl, (h hl).2⟩
      · exact h

theorem sleepPre_honest {s : State} (h : Honest s) : Honest (sleepPre s) := by
  unfold sleepPre
  split
  · rename_i ha
    exact stop_script_honest ha
  · exact h

theorem sleepPost_honest {s : State} (h : Honest s) : Honest (sleepPost s).1 := by
  unfold sleepPost
  split
  · intro hl
    exact ⟨(h hl).1, rfl⟩
  · exact h

/-- **One step.** -/
theorem step_honest {s : State} {e : Event} (h : Honest s) (hc : Clean s e) :
    Honest (step s e).1 := by
  cases e with
  | power ps => exact h
  | start => exact h
  | stop =>
      show Honest (s.stop .manual)
      unfold State.stop
      split
      · rename_i ha
        intro _
        exact hc ha
      · exact h
  | check conf => exact powerCheck_honest conf h
  | pre => exact sleepPre_honest h
  | post => exact sleepPost_honest h

/-- **A whole run.** -/
theorem run_honest {s : State} {es : List Event} (h : Honest s) (hc : CleanRun s es) :
    Honest (run s es) := by
  induction es generalizing s with
  | nil => exact h
  | cons e es ih => exact ih (step_honest h hc.1) hc.2

/-- A script starts the service only where it finds its marker. -/
theorem step_starts {s : State} {e : Event} (h : (step s e).2 = true) : ¬ s.Unmarked := by
  rintro ⟨hp, hs⟩
  cases e with
  | check conf =>
      simp only [step, powerCheck, hp] at h
      split at h
      · simp at h
      · split at h
        · split at h <;> simp at h
        · simp at h
  | post => simp [step, sleepPost, hs] at h
  | power ps => simp [step] at h
  | start => simp [step] at h
  | stop => simp [step] at h
  | pre => simp [step] at h

theorem Honest.not_overrides {s : State} (h : Honest s) (e : Event) : ¬ Overrides s e :=
  fun ho => step_starts ho.1 (h ho.2)

theorem Boot.honest {s : State} (h : Boot s) : Honest s := by
  intro hl
  rw [h.2.2] at hl
  exact absurd hl (by simp)

/-- The mains adapter with the given `online` file. -/
def mains (online : String) : Supply := ⟨false, some "Mains", some online, none⟩

/-- A marker that is there at a manual stop undoes it: the sleep marker at the next resume,
the power marker at the first check on AC. -/
theorem marked_overrides {t : State} (ha : t.active = true) (hm : ¬ t.Unmarked) :
    ∃ es e, CleanRun (t.stop .manual) es ∧ Overrides (run (t.stop .manual) es) e := by
  have hstop : t.stop .manual = { t with active := false, lastStop := some .manual } := by
    rw [State.stop, if_pos ha]
  rw [hstop]
  by_cases hs : t.sleepDisabled = true
  · exact ⟨[], .post, trivial, by simp [run, step, sleepPost, hs], rfl⟩
  · have hp : t.powerDisabled = true := by
      by_contra hne
      exact hm ⟨by simpa using hne, by simpa using hs⟩
    refine ⟨[.power [mains "1"]], .check { powerManagement := "1" }, ⟨trivial, trivial⟩, ?_, rfl⟩
    simp [run, step, powerCheck, shouldDisable, acOnline, mains, hp]

/-- **A manual stop is respected exactly when no marker file is there.** In every run from
boot whose manual stops find no marker, neither script ever issues a start after a manual
stop; and a manual stop of the running service is respected by all such continuations if and
only if it finds no marker. -/
theorem manual_stop_respected (s t : State) (es : List Event) (e : Event) (hb : Boot s)
    (hc : CleanRun s es) :
    ¬ Overrides (run s es) e ∧
    (t.active = true →
      ((∀ es e, CleanRun (t.stop .manual) es → ¬ Overrides (run (t.stop .manual) es) e) ↔
        t.Unmarked)) := by
  refine ⟨(run_honest hb.honest hc).not_overrides e, fun ha => ?_⟩
  constructor
  · intro hall
    by_contra hm
    obtain ⟨es, e, hc, ho⟩ := marked_overrides ha hm
    exact hall es e hc ho
  · intro hm es e hc
    have hh : Honest (t.stop .manual) := by
      intro _
      rw [State.stop, if_pos ha]
      exact hm
    exact (run_honest hh hc).not_overrides e

/-- A booted machine on AC with the service running. -/
def booted : State := ⟨true, false, false, [mains "1"], none⟩

/-- The unplugged service is stopped by a check, started again by hand, and stopped by hand
once AC is back. -/
def staleMarker : List Event :=
  [.power [mains "0"], .check { powerManagement := "1" }, .start, .power [mains "1"],
    .check { powerManagement := "1" }, .stop]

theorem manual_stop_respected_booted :
    CleanRun booted [.stop] ∧ ¬ Overrides (run booted [.stop]) (.check { powerManagement := "1" }) :=
  have hc : CleanRun booted [.stop] := ⟨fun _ => ⟨rfl, rfl⟩, trivial⟩
  ⟨hc, (manual_stop_respected booted booted [.stop] _ ⟨rfl, rfl, rfl⟩ hc).1⟩

/-- The next poll of the power check then starts the service that was stopped by hand. -/
theorem manual_stop_overridden :
    ¬ ∀ (s : State) (es : List Event) (e : Event), Boot s → ¬ Overrides (run s es) e := by
  intro hall
  exact hall booted staleMarker (.check { powerManagement := "1" }) (by decide) (by decide)

end Power

end NbdVram
