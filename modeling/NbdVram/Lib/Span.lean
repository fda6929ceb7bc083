import Mathlib.Tactic
import Mathlib.Data.List.GetD

/-!
# Spans of a byte-addressed store

A store is a function from addresses to cells. `slice f a n` reads `n` cells at
`a`, `splice f a l` writes the list `l` there. These two and the lemmas on how
they meet are all the pointer arithmetic the developments above need.
-/

namespace Span

variable {α : Type} [Inhabited α]

/-- `n` cells from address `a` on. -/
def slice (f : ℕ → α) (a n : ℕ) : List α := (List.range n).map fun i => f (a + i)

/-- The store with the cells of `l` written at address `a`. -/
def splice (f : ℕ → α) (a : ℕ) (l : List α) : ℕ → α := fun x =>
  if a ≤ x ∧ x < a + l.length then l.getD (x - a) default else f x

variable {f g : ℕ → α} {a b n k x : ℕ} {l : List α}

omit [Inhabited α] in
@[simp] theorem slice_length : (slice f a n).length = n := by simp [slice]

omit [Inhabited α] in
@[simp] theorem slice_zero : slice f a 0 = [] := rfl

omit [Inhabited α] in
theorem slice_getElem (h : k < (slice f a n).length) : (slice f a n)[k] = f (a + k) := by
  simp [slice]

theorem slice_getD (h : k < n) : (slice f a n).getD k default = f (a + k) := by
  rw [List.getD_eq_getElem _ _ (by simpa using h), slice_getElem]

omit [Inhabited α] in
theorem slice_congr (h : ∀ i < n, f (a + i) = g (b + i)) : slice f a n = slice g b n := by
  simp only [slice]
  apply List.map_congr_left
  intro i hi
  exact h i (List.mem_range.mp hi)

omit [Inhabited α] in
theorem slice_add : slice f a (n + k) = slice f a n ++ slice f (a + n) k := by
  simp only [slice, List.range_add, List.map_append, List.map_map]
  congr 1
  apply List.map_congr_left
  intro i _
  simp [Nat.add_assoc]

/-- A list is the slice of any store that holds it. -/
theorem eq_slice (hn : l.length = n) (h : ∀ i < n, f (a + i) = l.getD i default) :
    slice f a n = l := by
  apply List.ext_getElem (by simpa using hn.symm)
  intro i h1 h2
  rw [slice_getElem, h i (by omega), List.getD_eq_getElem _ _ h2]

theorem splice_apply : splice f a l x =
    if a ≤ x ∧ x < a + l.length then l.getD (x - a) default else f x := rfl

theorem splice_at (h : k < l.length) : splice f a l (a + k) = l.getD k default := by
  rw [splice_apply, if_pos ⟨by omega, by omega⟩, Nat.add_sub_cancel_left]

theorem splice_in (h1 : a ≤ x) (h2 : x < a + l.length) :
    splice f a l x = l.getD (x - a) default := if_pos ⟨h1, h2⟩

theorem splice_out (h : x < a ∨ a + l.length ≤ x) : splice f a l x = f x := by
  rw [splice_apply, if_neg (by omega)]

@[simp] theorem splice_nil : splice f a [] = f := by
  funext x
  exact splice_out (by simp only [List.length_nil]; omega)

theorem slice_splice_self (hn : l.length = n) : slice (splice f a l) a n = l :=
  eq_slice hn fun i hi => splice_at (by omega)

theorem slice_splice_out (h : b + n ≤ a ∨ a + l.length ≤ b) :
    slice (splice f a l) b n = slice f b n :=
  slice_congr fun i hi => splice_out (by omega)

/-- Writing two neighbouring pieces is writing their concatenation. -/
theorem splice_append {l' : List α} :
    splice (splice f a l) (a + l.length) l' = splice f a (l ++ l') := by
  funext x
  simp only [splice_apply, List.length_append]
  by_cases h1 : a + l.length ≤ x ∧ x < a + l.length + l'.length
  · rw [if_pos h1, if_pos (by omega)]
    simp only [List.getD_eq_getElem?_getD]
    rw [List.getElem?_append_right (by omega), Nat.sub_sub]
  · rw [if_neg h1]
    by_cases h2 : a ≤ x ∧ x < a + l.length
    · rw [if_pos h2, if_pos (by omega)]
      simp only [List.getD_eq_getElem?_getD]
      rw [List.getElem?_append_left (by omega)]
    · rw [if_neg h2, if_neg (by omega)]

theorem splice_slice_self : splice f a (slice f a n) = f := by
  funext x
  rw [splice_apply]
  split
  · rename_i h
    rw [slice_length] at h
    rw [slice_getD (by omega)]
    congr 1
    omega
  · rfl

omit [Inhabited α] in
theorem take_slice (h : k ≤ n) : (slice f a n).take k = slice f a k := by
  obtain ⟨j, rfl⟩ := Nat.exists_eq_add_of_le h
  rw [slice_add, List.take_left' slice_length]

omit [Inhabited α] in
theorem drop_slice (h : k ≤ n) : (slice f a n).drop k = slice f (a + k) (n - k) := by
  obtain ⟨j, rfl⟩ := Nat.exists_eq_add_of_le h
  rw [slice_add, List.drop_left' slice_length, Nat.add_sub_cancel_left]

end Span
