import Mathlib.Tactic

/-!
# Bitmaps of 64-bit words

Bit `i` of a bitmap is bit `i % 64` of word `i / 64`. The lemmas say what the
usual word operations (or-ing in one bit, masking one out, counting trailing
zeros of the complement) do to single bits and to the number of clear bits below
a bound.
-/

namespace Bitmap

def bit (bm : ℕ → BitVec 64) (i : ℕ) : Bool := (bm (i / 64)).getLsbD (i % 64)

/-- Index of the lowest set bit, 64 when there is none. -/
def ctz (x : BitVec 64) : ℕ := (List.range 64).findIdx fun i => x.getLsbD i

theorem ctz_spec {x : BitVec 64} (h : x ≠ 0#64) :
    ctz x < 64 ∧ x.getLsbD (ctz x) = true ∧ ∀ i < ctz x, x.getLsbD i = false := by
  have hex : ∃ i ∈ List.range 64, x.getLsbD i = true := by
    by_contra hn
    push Not at hn
    apply h
    apply BitVec.eq_of_getLsbD_eq
    intro i hi
    have := hn i (List.mem_range.mpr hi)
    simpa using this
  have hlt : (List.range 64).findIdx (fun i => x.getLsbD i) < (List.range 64).length :=
    List.findIdx_lt_length.mpr hex
  refine ⟨by simpa [ctz] using hlt, ?_, ?_⟩
  · have := List.findIdx_getElem (w := hlt)
    rwa [List.getElem_range] at this
  · intro i hi
    have := List.not_of_lt_findIdx hi
    simpa using this

/-- A word that is not all ones has a lowest clear bit, and `ctz` of its complement finds it. -/
theorem ctz_not_spec {x : BitVec 64} (h : x ≠ BitVec.allOnes 64) :
    ctz (~~~x) < 64 ∧ x.getLsbD (ctz (~~~x)) = false ∧ ∀ i < ctz (~~~x), x.getLsbD i = true := by
  have hne : ~~~x ≠ 0#64 := by
    intro h0
    apply h
    have := congrArg (fun y => ~~~y) h0
    simpa using this
  obtain ⟨hlt, hset, hbelow⟩ := ctz_spec hne
  refine ⟨hlt, ?_, fun i hi => ?_⟩
  · have := hset
    simp only [BitVec.getLsbD_not, Bool.and_eq_true, Bool.not_eq_true'] at this
    exact this.2
  · have := hbelow i hi
    simp only [BitVec.getLsbD_not, show i < 64 from by omega, decide_true, Bool.true_and,
      Bool.not_eq_false'] at this
    exact this

theorem bit_word (bm : ℕ → BitVec 64) (w b : ℕ) (hb : b < 64) :
    bit bm (w * 64 + b) = (bm w).getLsbD b := by
  simp only [bit, show (w * 64 + b) / 64 = w from by omega,
    show (w * 64 + b) % 64 = b from by omega]

/-- Or-ing `1 << (i % 64)` into word `i / 64` sets bit `i` and nothing else. -/
theorem bit_set (bm : ℕ → BitVec 64) (i j : ℕ) :
    bit (Function.update bm (i / 64) (bm (i / 64) ||| 1#64 <<< (i % 64))) j =
      (decide (j = i) || bit bm j) := by
  unfold bit
  by_cases hw : j / 64 = i / 64
  · rw [hw, Function.update_self, BitVec.getLsbD_or, BitVec.getLsbD_shiftLeft,
      BitVec.getLsbD_one]
    have hj : j % 64 < 64 := Nat.mod_lt _ (by decide)
    by_cases hji : j = i
    · subst hji
      simp [hj]
    · have hne : j % 64 - i % 64 ≠ 0 ∨ j % 64 < i % 64 := by omega
      rcases hne with hne | hne
      · simp [hji, hne]
      · simp [hji, hne]
  · have hji : j ≠ i := by
      rintro rfl
      exact hw rfl
    simp [Function.update_of_ne hw, hji]

/-- Masking `1 << (i % 64)` out of word `i / 64` clears bit `i` and nothing else. -/
theorem bit_clear (bm : ℕ → BitVec 64) (i j : ℕ) :
    bit (Function.update bm (i / 64) (bm (i / 64) &&& ~~~(1#64 <<< (i % 64)))) j =
      (!decide (j = i) && bit bm j) := by
  unfold bit
  by_cases hw : j / 64 = i / 64
  · rw [hw, Function.update_self, BitVec.getLsbD_and, BitVec.getLsbD_not,
      BitVec.getLsbD_shiftLeft, BitVec.getLsbD_one]
    have hj : j % 64 < 64 := Nat.mod_lt _ (by decide)
    by_cases hji : j = i
    · subst hji
      simp [hj]
    · have hne : j % 64 - i % 64 ≠ 0 ∨ j % 64 < i % 64 := by omega
      rcases hne with hne | hne
      · simp [hji, hne, hj]
      · simp [hji, hne, hj]
  · have hji : j ≠ i := by
      rintro rfl
      exact hw rfl
    simp [Function.update_of_ne hw, hji]

/-- The number of clear bits below `n`. -/
def clearBits (bm : ℕ → BitVec 64) (n : ℕ) : ℕ :=
  ((Finset.range n).filter fun i => bit bm i = false).card

theorem clearBits_congr {bm bm' : ℕ → BitVec 64} {n : ℕ} (h : ∀ i < n, bit bm i = bit bm' i) :
    clearBits bm n = clearBits bm' n := by
  unfold clearBits
  congr 1
  apply Finset.filter_congr
  intro i hi
  rw [h i (Finset.mem_range.mp hi)]

theorem clearBits_le (bm : ℕ → BitVec 64) (n : ℕ) : clearBits bm n ≤ n := by
  have := Finset.card_filter_le (Finset.range n) fun i => bit bm i = false
  rwa [Finset.card_range] at this

theorem clearBits_eq_zero {bm : ℕ → BitVec 64} {n : ℕ} :
    clearBits bm n = 0 ↔ ∀ i < n, bit bm i = true := by
  rw [clearBits, Finset.card_eq_zero, Finset.filter_eq_empty_iff]
  simp

theorem clearBits_eq_self {bm : ℕ → BitVec 64} {n : ℕ} :
    clearBits bm n = n ↔ ∀ i < n, bit bm i = false := by
  constructor
  · intro h i hi
    have hf : (Finset.range n).filter (fun i => bit bm i = false) = Finset.range n := by
      apply Finset.eq_of_subset_of_card_le (Finset.filter_subset _ _)
      rw [Finset.card_range]
      exact h.ge
    have := Finset.mem_range.mpr hi
    rw [← hf, Finset.mem_filter] at this
    exact this.2
  · intro h
    rw [clearBits, Finset.filter_true_of_mem fun i hi => h i (Finset.mem_range.mp hi),
      Finset.card_range]

/-- Setting a clear bit below the bound uses up one clear bit. -/
theorem clearBits_set {bm bm' : ℕ → BitVec 64} {n i : ℕ} (hi : i < n) (hc : bit bm i = false)
    (h : ∀ j, bit bm' j = (decide (j = i) || bit bm j)) :
    clearBits bm' n + 1 = clearBits bm n := by
  unfold clearBits
  have hf : (Finset.range n).filter (fun j => bit bm' j = false) =
      ((Finset.range n).filter fun j => bit bm j = false).erase i := by
    ext j
    simp only [Finset.mem_filter, Finset.mem_erase, h, Bool.or_eq_false_iff, decide_eq_false_iff_not]
    tauto
  rw [hf]
  exact Finset.card_erase_add_one (Finset.mem_filter.mpr ⟨Finset.mem_range.mpr hi, hc⟩)

/-- Clearing a set bit below the bound gains one. -/
theorem clearBits_clear {bm bm' : ℕ → BitVec 64} {n i : ℕ} (hi : i < n) (hc : bit bm i = true)
    (h : ∀ j, bit bm' j = (!decide (j = i) && bit bm j)) :
    clearBits bm' n = clearBits bm n + 1 := by
  refine (clearBits_set hi (by simp [h]) ?_).symm
  intro j
  by_cases hj : j = i
  · subst hj
    simp [hc]
  · simp [h, hj]

end Bitmap
