import Mathlib.Order.BoundedOrder.Basic
import Mathlib.Order.Lattice
import Mathlib.Data.List.Induction
import Mathlib.Tactic.Push

/-!
# Latches

A latch remembers the highest level it has seen since the last reset. Programs that
warn once about a condition, and again only after it has passed, contain one: they
speak when a level rises above the latch, and hysteresis is a reset that comes later
than the level falls. What such a program has done is a statement about the sequence
of readings: the latch holds a level exactly if some reading reached it and nothing
after that reading was a reset.
-/

namespace Latch

variable {α β : Type} [LinearOrder β] [OrderBot β]

/-- The latch after one more reading. -/
def next (level : α → β) (reset : α → Prop) [DecidablePred reset] (w : β) (r : α) : β :=
  if reset r then level r else max w (level r)

/-- The latch after some readings, oldest first. -/
def hold (level : α → β) (reset : α → Prop) [DecidablePred reset] (rs : List α) : β :=
  rs.foldl (next level reset) ⊥

variable {level : α → β} {reset : α → Prop} [DecidablePred reset] {rs : List α} {r : α} {k : β}

@[simp] theorem hold_nil : hold level reset [] = ⊥ := rfl

@[simp] theorem hold_concat : hold level reset (rs ++ [r]) = next level reset (hold level reset rs) r := by
  rw [hold, List.foldl_append, List.foldl_cons, List.foldl_nil, hold]

/-- **What the latch holds**, and when it rose to that, where a reset finds the lowest level. -/
theorem le_hold_iff (hreset : ∀ r, reset r → level r = ⊥) (hk : ⊥ < k) :
    k ≤ hold level reset rs ↔ ∃ pre q post, rs = pre ++ q :: post ∧
      hold level reset pre < level q ∧ k ≤ level q ∧ ∀ p ∈ post, ¬ reset p := by
  induction rs using List.reverseRecOn with
  | nil => simpa using hk.ne'
  | append_singleton rs r ih =>
      rw [hold_concat, next]
      constructor
      · intro h
        split at h
        · rename_i hr
          rw [hreset r hr] at h
          exact absurd h (not_le.mpr hk)
        · rename_i hr
          by_cases hrise : hold level reset rs < level r
          · rw [max_eq_right hrise.le] at h
            exact ⟨rs, r, [], rfl, hrise, h, by simp⟩
          · rw [max_eq_left (not_lt.mp hrise)] at h
            obtain ⟨pre, q, post, rfl, hlt, hle, hpost⟩ := ih.mp h
            refine ⟨pre, q, post ++ [r], by simp, hlt, hle, fun p hp => ?_⟩
            rcases List.mem_append.mp hp with hp | hp
            · exact hpost p hp
            · rwa [List.mem_singleton.mp hp]
      · rintro ⟨pre, q, post, he, hlt, hle, hpost⟩
        rcases List.eq_nil_or_concat post with rfl | ⟨post, x, rfl⟩
        · obtain ⟨rfl, rfl⟩ : rs = pre ∧ r = q := by simpa using he
          split
          · exact hle
          · exact hle.trans (le_max_right _ _)
        · rw [List.concat_eq_append, ← List.cons_append, ← List.append_assoc] at he
          obtain ⟨rfl, hx⟩ := List.append_inj' he rfl
          obtain rfl := List.singleton_inj.mp hx
          rw [if_neg (hpost r (by simp))]
          refine (ih.mpr ⟨pre, q, post, rfl, hlt, hle, fun p hp => hpost p (by simp [hp])⟩).trans ?_
          exact le_max_left _ _

/-- A reading that reaches a level is held until a reset. -/
theorem le_hold_append {pre post : List α} {q : α} (hpost : ∀ p ∈ post, ¬ reset p) :
    level q ≤ hold level reset (pre ++ q :: post) := by
  induction post using List.reverseRecOn with
  | nil =>
      rw [hold_concat, next]
      split
      · exact le_rfl
      · exact le_max_right _ _
  | append_singleton post x ih =>
      rw [show pre ++ q :: (post ++ [x]) = (pre ++ q :: post) ++ [x] by simp, hold_concat, next,
        if_neg (hpost x (by simp))]
      exact (ih fun p hp => hpost p (by simp [hp])).trans (le_max_left _ _)

/-- **When the latch rises**: at a reading above all those since the last reset. -/
theorem hold_lt_iff (hreset : ∀ r, reset r → level r = ⊥) (hk : ⊥ < k) :
    hold level reset rs < k ↔ ∀ pre q post, rs = pre ++ q :: post → (∀ p ∈ post, ¬ reset p) →
      level q < k := by
  constructor
  · rintro h pre q post rfl hpost
    exact (le_hold_append hpost).trans_lt h
  · intro h
    by_contra hge
    obtain ⟨pre, q, post, he, -, hle, hpost⟩ := (le_hold_iff hreset hk).mp (not_lt.mp hge)
    exact not_lt.mpr hle (h pre q post he hpost)

end Latch
