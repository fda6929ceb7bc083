import Mathlib.Data.Rat.Floor
import Mathlib.Data.List.Basic
import Mathlib.Tactic.Linarith
import Mathlib.Tactic.Ring
import Mathlib.Tactic.FieldSimp

/-!
# The gap checker

`stats_log` prints what the daemon has stored with `hsize`, to two decimals, to one, or cut to
a whole number of KiB, and `nbdvramgapcheck.sh` reads it back from the log. Between two samples
it checks that the stored bytes do not fall faster than the trims explain, up to a tolerance
that it computes from the precision of the two figures.

The numbers of both programs are exact here: a conversion rounds to the nearest decimal, and
everything else is rational arithmetic. The line is a text that one program prints and the
other one searches.
-/

namespace NbdVram

namespace GapCheck

/-! ## Printing numbers -/

/-- The nearest integer, of two the even one. -/
def roundEven (q : ℚ) : ℤ :=
  let n := ⌊q⌋
  if q - n < 1 / 2 then n else if 1 / 2 < q - n then n + 1 else if n % 2 = 0 then n else n + 1

/-- `%u` and its like. -/
def dec (n : ℕ) : List Char := Nat.toDigits 10 n

/-- `%.df` of a number that is not negative. -/
def fixed (d : ℕ) (q : ℚ) : List Char :=
  let n := (roundEven (q * 10 ^ d)).toNat
  dec (n / 10 ^ d) ++ '.' :: List.leftpad d '0' (dec (n % 10 ^ d))

/-- `hsize`. -/
def hsize (b : ℕ) : List Char :=
  if 2 ^ 30 ≤ b then fixed 2 (b / 2 ^ 30) ++ " GiB".toList
  else if 2 ^ 20 ≤ b then fixed 1 (b / 2 ^ 20) ++ " MiB".toList
  else dec (b / 2 ^ 10) ++ " KiB".toList

theorem roundEven_near (q : ℚ) : |(roundEven q : ℚ) - q| ≤ 1 / 2 := by
  have h1 := Int.floor_le q
  have h2 := Int.lt_floor_add_one q
  simp only [roundEven]
  rw [abs_le]
  split
  · constructor <;> linarith
  · split
    · push_cast
      constructor <;> linarith
    · split
      · constructor <;> linarith
      · push_cast
        constructor <;> linarith

theorem roundEven_intCast (n : ℤ) : roundEven n = n := by
  simp [roundEven]

theorem roundEven_nonneg {q : ℚ} (hq : 0 ≤ q) : 0 ≤ roundEven q := by
  have h := abs_le.mp (roundEven_near q)
  have hlt : (-1 : ℚ) < roundEven q := by linarith
  have : (-1 : ℤ) < roundEven q := by exact_mod_cast hlt
  omega

/-! ## The line of the daemon -/

/-- What `stats_log` reads. -/
structure Figures where
  blocks : ℕ
  codec : ℕ
  slots : ℕ
  commit : ℕ
  extentsUsed : ℕ
  nExtents : ℕ
  extentsPeak : ℕ
  vramSize : ℕ
  rawBlocks : ℕ
  enospc : ℕ
  trimBlocks : ℕ
  readRetry : ℕ
  deriving Repr, DecidableEq

/-- What `stats_log` is called with. -/
inductive Tag
  | stats
  | final
  deriving Repr, DecidableEq

def Tag.text : Tag → List Char
  | .stats => "stats".toList
  | .final => "final".toList

/-- The line between the stored size and the trim count, with `slots - codec` in 64 bits. -/
def statsMid (f : Figures) : List (List Char) :=
  let stored := f.blocks * 4096
  let ratio (a b : ℕ) : ℚ := if b = 0 then 0 else a / b
  let percent (a b : ℕ) : ℚ := if b = 0 then 0 else 100 * a / b
  [" -> ".toList, hsize f.commit, " VRAM (".toList, fixed 2 (ratio stored f.commit),
    "x) | codec ".toList, fixed 2 (ratio stored f.codec), "x | occupancy ".toList,
    fixed 1 (percent f.slots f.commit), "% | extents ".toList, dec f.extentsUsed, "/".toList,
    dec f.nExtents, " (peak ".toList, dec f.extentsPeak, ") | heap ".toList, hsize f.commit,
    "/".toList, hsize f.vramSize, " committed (".toList, fixed 1 (percent f.commit f.vramSize),
    "%) | slack ".toList, fixed 1 (percent ((f.slots + 2 ^ 64 - f.codec) % 2 ^ 64) f.slots),
    "% | raw ".toList, fixed 1 (percent f.rawBlocks f.blocks), "% | enospc ".toList, dec f.enospc]

/-- `stats_log`. -/
def statsLog (tag : Tag) (f : Figures) : List Char :=
  "[nbd-vram] ".toList ++ (tag.text ++ (": stored ".toList ++ (hsize (f.blocks * 4096) ++
    ((statsMid f).flatten ++ (" trimmed ".toList ++ (dec f.trimBlocks ++ (" retries ".toList ++
      (dec f.readRetry ++ "\n".toList))))))))

/-! ## The script -/

/-- The unit of a size in the line. -/
inductive Size
  | gib
  | mib
  | kib
  deriving Repr, DecidableEq

def Size.text : Size → List Char
  | .gib => " GiB".toList
  | .mib => " MiB".toList
  | .kib => " KiB".toList

/-- `[0-9.]`. -/
def numChar (c : Char) : Bool := c.isDigit || c == '.'

/-- A string as a number of `awk`: digits, and decimals after a point. -/
def awkNum (cs : List Char) : ℚ :=
  let whole : ℚ := Nat.ofDigitChars 10 (cs.takeWhile Char.isDigit) 0
  match cs.dropWhile Char.isDigit with
  | '.' :: ds =>
    let fs := ds.takeWhile Char.isDigit
    whole + Nat.ofDigitChars 10 fs 0 / 10 ^ fs.length
  | _ => whole

/-- `match($0, ..)`: what the pattern finds at the leftmost place where it matches. -/
def search {α : Type} (pat : List Char → Option α) : List Char → Option α
  | [] => pat []
  | c :: cs => (pat (c :: cs)).or (search pat cs)

/-- `[0-9.]+ (GiB|MiB|KiB)`, with the two parts that `split` takes. -/
def sizeAt (cs : List Char) : Option (List Char × Size) :=
  let v := cs.takeWhile numChar
  if v = [] then none
  else
    match cs.dropWhile numChar with
    | ' ' :: 'G' :: 'i' :: 'B' :: _ => some (v, .gib)
    | ' ' :: 'M' :: 'i' :: 'B' :: _ => some (v, .mib)
    | ' ' :: 'K' :: 'i' :: 'B' :: _ => some (v, .kib)
    | _ => none

/-- `/stored [0-9.]+ (GiB|MiB|KiB)/`. -/
def storedAt : List Char → Option (List Char × Size)
  | 's' :: 't' :: 'o' :: 'r' :: 'e' :: 'd' :: ' ' :: cs => sizeAt cs
  | _ => none

/-- `/trimmed [0-9]+/`. -/
def trimmedAt : List Char → Option (List Char)
  | 't' :: 'r' :: 'i' :: 'm' :: 'm' :: 'e' :: 'd' :: ' ' :: cs =>
    let v := cs.takeWhile Char.isDigit
    if v = [] then none else some v
  | _ => none

def tobytes (v : ℚ) : Size → ℚ
  | .gib => v * 1073741824
  | .mib => v * 1048576
  | .kib => v * 1024

/-- `tol`: half a unit in the last place of `hsize`. -/
def tol : Size → ℚ
  | .gib => 5 / 1000 * 1073741824
  | .mib => 5 / 100 * 1048576
  | .kib => 1024

/-- The figures of a sample that check A uses. -/
structure Sample where
  stored : ℤ
  stol : ℤ
  trimmed : ℤ
  deriving Repr, DecidableEq

/-- `parse_stats`; a line without a trim count is skipped by the caller. -/
def parseStats (line : List Char) : Option Sample :=
  let s : ℚ × ℚ :=
    match search storedAt line with
    | some (v, u) => (tobytes (awkNum v) u, tol u)
    | none => (0, 0)
  (search trimmedAt line).map fun t =>
    ⟨roundEven s.1, roundEven s.2, Nat.ofDigitChars 10 t 0⟩

/-- The tolerance of a window. -/
def tolerance (a b : ℤ) : ℤ := roundEven (a + b + 2)

/-- Check A of `report_window`: whether it passes. -/
def reportWindow (ds dt tol : ℤ) : Bool :=
  let tb := dt * 4096
  let resA := ds + tb
  decide (-tol ≤ resA)

/-- The window between two samples. -/
def window (prev cur : Sample) : Bool :=
  reportWindow (cur.stored - prev.stored) (cur.trimmed - prev.trimmed)
    (tolerance cur.stol prev.stol)

/-! ## Reading what was printed -/

theorem dec_ne_nil (n : ℕ) : dec n ≠ [] :=
  List.ne_nil_of_length_pos Nat.length_toDigits_pos

theorem dec_digit {n : ℕ} {c : Char} (hc : c ∈ dec n) : c.isDigit = true :=
  Nat.isDigit_of_mem_toDigits (by decide) (by decide) hc

theorem takeWhile_all {α : Type} {p : α → Bool} {l r : List α} (hl : ∀ c ∈ l, p c = true)
    (hr : ∀ c ∈ r.head?, p c = false) : (l ++ r).takeWhile p = l ∧ (l ++ r).dropWhile p = r := by
  induction l with
  | nil =>
      cases r with
      | nil => exact ⟨rfl, rfl⟩
      | cons c r =>
          have hc : p c = false := hr c rfl
          simp [hc]
  | cons c l ih =>
      obtain ⟨h1, h2⟩ := ih fun d hd => hl d (List.mem_cons_of_mem _ hd)
      have hc := hl c List.mem_cons_self
      simp [hc, h1, h2]

theorem awkNum_dec (n : ℕ) : awkNum (dec n) = n := by
  obtain ⟨h1, h2⟩ := takeWhile_all (r := []) (fun c hc => dec_digit (n := n) hc) (by simp)
  rw [List.append_nil] at h1 h2
  simp only [awkNum, h1, h2]
  rw [dec, Nat.ofDigitChars_ten_toDigits]

theorem padded_digit {d n : ℕ} {c : Char} (hc : c ∈ List.leftpad d '0' (dec n)) :
    c.isDigit = true := by
  rw [List.leftpad, List.mem_append] at hc
  rcases hc with hc | hc
  · rw [List.eq_of_mem_replicate hc]
    rfl
  · exact dec_digit hc

theorem padded_length {d n : ℕ} (hd : 0 < d) (hn : n < 10 ^ d) :
    (List.leftpad d '0' (dec n)).length = d := by
  rw [List.length_leftpad, dec]
  exact max_eq_left ((Nat.length_toDigits_le_iff (by decide) hd).mpr hn)

theorem padded_value (d n : ℕ) : Nat.ofDigitChars 10 (List.leftpad d '0' (dec n)) 0 = n := by
  rw [List.leftpad, Nat.ofDigitChars_append, Nat.ofDigitChars_replicate_zero, Nat.mul_zero, dec,
    Nat.ofDigitChars_ten_toDigits]

/-- A printed decimal is read as the number it was rounded to. -/
theorem awkNum_fixed {d : ℕ} (hd : 0 < d) {q : ℚ} (hq : 0 ≤ q) :
    awkNum (fixed d q) = roundEven (q * 10 ^ d) / 10 ^ d := by
  have hnn : 0 ≤ roundEven (q * 10 ^ d) := roundEven_nonneg (by positivity)
  obtain ⟨n, hn⟩ := Int.eq_ofNat_of_zero_le hnn
  have hpos : 0 < 10 ^ d := by positivity
  obtain ⟨h1, h2⟩ := takeWhile_all (p := Char.isDigit) (l := dec (n / 10 ^ d))
    (r := '.' :: List.leftpad d '0' (dec (n % 10 ^ d))) (fun c hc => dec_digit hc) (by
      intro c hc
      cases hc
      rfl)
  obtain ⟨h3, -⟩ := takeWhile_all (p := Char.isDigit) (l := List.leftpad d '0' (dec (n % 10 ^ d)))
    (r := []) (fun c hc => padded_digit hc) (by simp)
  rw [List.append_nil] at h3
  simp only [fixed, hn, Int.toNat_natCast, awkNum, h1, h2, h3, padded_value,
    padded_length hd (Nat.mod_lt n hpos)]
  rw [show Nat.ofDigitChars 10 (dec (n / 10 ^ d)) 0 = n / 10 ^ d from
    Nat.ofDigitChars_ten_toDigits]
  have hsplit : (n : ℚ) = 10 ^ d * (n / 10 ^ d : ℕ) + (n % 10 ^ d : ℕ) := by
    exact_mod_cast (Nat.div_add_mod n (10 ^ d)).symm
  have hne : (10 : ℚ) ^ d ≠ 0 := by positivity
  rw [Int.cast_natCast, eq_div_iff hne, add_mul, div_mul_cancel₀ _ hne, hsplit]
  ring

theorem dec_num {n : ℕ} {c : Char} (hc : c ∈ dec n) : numChar c = true := by
  rw [numChar, dec_digit hc, Bool.true_or]

theorem fixed_num {d : ℕ} {q : ℚ} {c : Char} (hc : c ∈ fixed d q) : numChar c = true := by
  rw [fixed, List.mem_append, List.mem_cons] at hc
  rcases hc with hc | rfl | hc
  · exact dec_num hc
  · rfl
  · rw [numChar, padded_digit hc, Bool.true_or]

/-- What a decimal loses is half a unit in its last place. -/
theorem fixed_near {d : ℕ} (hd : 0 < d) (b : ℕ) {unit : ℕ} (hu : 0 < unit) :
    |awkNum (fixed d (b / unit)) * unit - b| ≤ unit / (2 * 10 ^ d) := by
  have hq : (0 : ℚ) ≤ b / unit := by positivity
  have hu' : (0 : ℚ) < unit := by exact_mod_cast hu
  have h10 : (0 : ℚ) < 10 ^ d := by positivity
  have hnear := roundEven_near ((b / unit : ℚ) * 10 ^ d)
  rw [awkNum_fixed hd hq]
  have heq : (roundEven ((b / unit : ℚ) * 10 ^ d) : ℚ) / 10 ^ d * unit - b =
      (roundEven ((b / unit : ℚ) * 10 ^ d) - (b / unit : ℚ) * 10 ^ d) * (unit / 10 ^ d) := by
    field_simp
  rw [heq, abs_mul, abs_of_pos (div_pos hu' h10)]
  calc |(roundEven ((b / unit : ℚ) * 10 ^ d) : ℚ) - (b / unit : ℚ) * 10 ^ d| * (unit / 10 ^ d)
      ≤ 1 / 2 * (unit / 10 ^ d) := mul_le_mul_of_nonneg_right hnear (div_pos hu' h10).le
    _ = unit / (2 * 10 ^ d) := by
      field_simp

/-- **What `hsize` loses.** The text is a number and a unit, and reads back as the size up to the
tolerance of the unit. -/
theorem hsize_spec (b : ℕ) : ∃ v u, hsize b = v ++ u.text ∧ v ≠ [] ∧
    (∀ c ∈ v, numChar c = true) ∧ |tobytes (awkNum v) u - b| ≤ tol u := by
  rw [hsize]
  split
  · have h := fixed_near (d := 2) (by decide) b (by decide : 0 < 2 ^ 30)
    push_cast at h
    refine ⟨_, .gib, rfl, by simp [fixed], fun c hc => fixed_num hc, ?_⟩
    rw [tobytes, tol]
    norm_num at h ⊢
    exact h
  · split
    · have h := fixed_near (d := 1) (by decide) b (by decide : 0 < 2 ^ 20)
      push_cast at h
      refine ⟨_, .mib, rfl, by simp [fixed], fun c hc => fixed_num hc, ?_⟩
      rw [tobytes, tol]
      norm_num at h ⊢
      exact h
    · refine ⟨_, .kib, rfl, dec_ne_nil _, fun c hc => dec_num hc, ?_⟩
      have hlo : ((b / 2 ^ 10 : ℕ) : ℚ) * 1024 ≤ b := by
        exact_mod_cast Nat.div_mul_le_self b (2 ^ 10)
      have hhi : (b : ℚ) ≤ (b / 2 ^ 10 : ℕ) * 1024 + 1024 := by
        exact_mod_cast (by omega : b ≤ b / 2 ^ 10 * 1024 + 1024)
      rw [awkNum_dec, tobytes, tol, abs_le]
      constructor
      · linarith only [hhi]
      · linarith only [hlo]

/-! ## Searching the line -/

/-- A text in which no `t` is followed by an `r`, and that does not end in `t`. -/
def noTr : List Char → Bool
  | [] => true
  | [c] => c != 't'
  | c :: d :: cs => !(c == 't' && d == 'r') && noTr (d :: cs)

theorem noTr_of_forall {cs : List Char} (h : ∀ c ∈ cs, c ≠ 't') : noTr cs = true := by
  induction cs with
  | nil => rfl
  | cons c cs ih =>
      have hc := h c List.mem_cons_self
      have hcs := ih fun d hd => h d (List.mem_cons_of_mem _ hd)
      cases cs with
      | nil => simp [noTr, hc]
      | cons d cs => simp [noTr, hc, hcs]

theorem noTr_num {cs : List Char} (h : ∀ c ∈ cs, numChar c = true) : noTr cs = true := by
  refine noTr_of_forall fun c hc ht => ?_
  have hn := h c hc
  rw [ht] at hn
  exact absurd hn (by decide)

theorem noTr_hsize (b : ℕ) : noTr (hsize b) = true := by
  obtain ⟨v, u, hv, -, hnum, -⟩ := hsize_spec b
  rw [hv]
  refine noTr_of_forall fun c hc ht => ?_
  rcases List.mem_append.mp hc with hc | hc
  · have hn := hnum c hc
    rw [ht] at hn
    exact absurd hn (by decide)
  · subst ht
    cases u <;> exact absurd hc (by decide)

theorem trimmedAt_noTr {c : Char} {cs rest : List Char} (h : noTr (c :: cs) = true) :
    trimmedAt (c :: cs ++ rest) = none := by
  unfold trimmedAt
  split
  · rename_i tl heq
    rw [List.cons_append, List.cons.injEq] at heq
    obtain ⟨rfl, heq⟩ := heq
    cases cs with
    | nil => exact absurd h (by decide)
    | cons d cs =>
        rw [List.cons_append, List.cons.injEq] at heq
        obtain ⟨rfl, -⟩ := heq
        simp [noTr] at h
  · rfl

/-- The search for the trim count goes past such a text. -/
theorem search_noTr {cs : List Char} (h : noTr cs = true) (rest : List Char) :
    search trimmedAt (cs ++ rest) = search trimmedAt rest := by
  induction cs with
  | nil => rfl
  | cons c cs ih =>
      have hcs : noTr cs = true := by
        cases cs with
        | nil => rfl
        | cons d cs =>
            simp only [noTr, Bool.and_eq_true] at h
            exact h.2
      rw [List.cons_append, search, ← List.cons_append, trimmedAt_noTr h, Option.none_or]
      exact ih hcs

theorem noTr_append {cs ds : List Char} (hc : noTr cs = true) (hd : noTr ds = true) :
    noTr (cs ++ ds) = true := by
  induction cs with
  | nil => exact hd
  | cons c cs ih =>
      cases cs with
      | nil =>
          cases ds with
          | nil => exact hc
          | cons d ds =>
              simp only [noTr, bne_iff_ne, ne_eq] at hc
              simp [noTr, hc, hd]
      | cons c' cs =>
          simp only [noTr, Bool.and_eq_true] at hc
          simp only [List.cons_append, noTr, Bool.and_eq_true]
          exact ⟨hc.1, ih hc.2⟩

theorem noTr_flatten {l : List (List Char)} (h : ∀ cs ∈ l, noTr cs = true) :
    noTr l.flatten = true := by
  induction l with
  | nil => rfl
  | cons cs l ih =>
      rw [List.flatten_cons]
      exact noTr_append (h cs List.mem_cons_self) (ih fun ds hd => h ds (List.mem_cons_of_mem _ hd))

theorem sizeAt_text {v rest : List Char} {u : Size} (hv : v ≠ [])
    (hnum : ∀ c ∈ v, numChar c = true) : sizeAt (v ++ u.text ++ rest) = some (v, u) := by
  obtain ⟨h1, h2⟩ := takeWhile_all (r := u.text ++ rest) hnum (by
    intro c hc
    cases u <;> cases hc <;> rfl)
  rw [List.append_assoc, sizeAt]
  simp only [h1, h2, hv, if_false]
  cases u <;> rfl

theorem noTr_statsMid (f : Figures) : noTr (statsMid f).flatten = true := by
  refine noTr_flatten ?_
  simp only [statsMid, List.forall_mem_cons]
  have hfixed := fun d q => noTr_num fun c (hc : c ∈ fixed d q) => fixed_num hc
  have hdec := fun n => noTr_num fun c (hc : c ∈ dec n) => dec_num hc
  simp [noTr, noTr_hsize, hfixed, hdec]

/-- The search for the size begins behind the label. -/
theorem search_stored (tag : Tag) (rest : List Char) :
    search storedAt ("[nbd-vram] ".toList ++ (tag.text ++ (": stored ".toList ++ rest))) =
      (sizeAt rest).or (search storedAt rest) := by
  cases tag <;> simp [Tag.text, search, storedAt]

theorem search_trimmed (n : ℕ) (rest : List Char) :
    search trimmedAt (" trimmed ".toList ++ (dec n ++ (" retries ".toList ++ rest))) =
      some (dec n) := by
  obtain ⟨h1, -⟩ := takeWhile_all (r := " retries ".toList ++ rest)
    (fun c hc => dec_digit (n := n) hc) (by simp)
  have hat : trimmedAt ("trimmed ".toList ++ (dec n ++ (" retries ".toList ++ rest))) =
      some (dec n) := by
    show (if (dec n ++ (" retries ".toList ++ rest)).takeWhile Char.isDigit = [] then none
      else some ((dec n ++ (" retries ".toList ++ rest)).takeWhile Char.isDigit)) = _
    rw [h1, if_neg (dec_ne_nil n)]
  have hsp : " trimmed ".toList = ' ' :: "trimmed ".toList := by decide
  have hcons : "trimmed ".toList = 't' :: "rimmed ".toList := by decide
  rw [hsp, List.cons_append, search]
  rw [hcons] at hat ⊢
  rw [List.cons_append] at hat ⊢
  rw [search, hat]
  rfl

theorem search_stored_statsLog {tag : Tag} {f : Figures} {v : List Char} {u : Size}
    (hv : hsize (f.blocks * 4096) = v ++ u.text) (hne : v ≠ [])
    (hnum : ∀ c ∈ v, numChar c = true) : search storedAt (statsLog tag f) = some (v, u) := by
  delta statsLog
  rw [hv, search_stored, sizeAt_text hne hnum, Option.some_or]

theorem search_trimmed_statsLog (tag : Tag) (f : Figures) :
    search trimmedAt (statsLog tag f) = some (dec f.trimBlocks) := by
  have h1 : noTr "[nbd-vram] ".toList = true := by simp [noTr]
  have h2 : noTr tag.text = true := by
    cases tag <;> simp [Tag.text, noTr]
  have h3 : noTr ": stored ".toList = true := by simp [noTr]
  delta statsLog
  rw [search_noTr h1, search_noTr h2, search_noTr h3, search_noTr (noTr_hsize _),
    search_noTr (noTr_statsMid f), search_trimmed]

/-- What a sample says about the figures it was read from: the trim count exactly, and the stored
bytes and their tolerance up to the rounding to whole bytes. -/
structure Reads (s : Sample) (f : Figures) (u : Size) : Prop where
  trimmed : s.trimmed = f.trimBlocks
  stored : |(s.stored : ℚ) - (f.blocks * 4096 : ℕ)| ≤ tol u + 1 / 2
  stol : |(s.stol : ℚ) - tol u| ≤ 1 / 2

/-- **The script reads what the daemon prints.** -/
theorem parseStats_statsLog (tag : Tag) (f : Figures) :
    ∃ s u, parseStats (statsLog tag f) = some s ∧ Reads s f u := by
  obtain ⟨v, u, hv, hne, hnum, hnear⟩ := hsize_spec (f.blocks * 4096)
  have hparse : parseStats (statsLog tag f) =
      some ⟨roundEven (tobytes (awkNum v) u), roundEven (tol u), f.trimBlocks⟩ := by
    simp only [parseStats, search_stored_statsLog hv hne hnum, search_trimmed_statsLog,
      Option.map_some, dec, Nat.ofDigitChars_ten_toDigits]
  refine ⟨_, u, hparse, rfl, ?_, roundEven_near _⟩
  have h1 := abs_le.mp (roundEven_near (tobytes (awkNum v) u))
  have h2 := abs_le.mp hnear
  rw [abs_le]
  constructor <;> linarith

/-! ## Check A -/

/-- How much the blocks and the trims together have gone up. -/
def rise (f g : Figures) : ℤ := (g.blocks - f.blocks) + (g.trimBlocks - f.trimBlocks)

theorem tolerance_eq (a b : ℤ) : tolerance a b = a + b + 2 := by
  have h := roundEven_intCast (a + b + 2)
  push_cast at h
  exact h

/-- Two samples are off by no more than the tolerance of their window: each rounding costs half a
byte, and the two bytes added to the tolerances pay for the four of them. -/
theorem Reads.off {s t : Sample} {f g : Figures} {u v : Size} (hs : Reads s f u)
    (ht : Reads t g v) : |(t.stored - s.stored) - 4096 * ((g.blocks : ℤ) - f.blocks)| ≤
      tolerance t.stol s.stol := by
  have h1 := abs_le.mp hs.stored
  have h2 := abs_le.mp ht.stored
  have h3 := abs_le.mp hs.stol
  have h4 := abs_le.mp ht.stol
  have hoff : |(t.stored - s.stored : ℚ) - 4096 * (g.blocks - f.blocks)| ≤
      (tolerance t.stol s.stol : ℤ) := by
    rw [tolerance_eq, abs_le]
    push_cast at h1 h2 ⊢
    constructor <;> linarith
  exact_mod_cast hoff

theorem Reads.pass {s t : Sample} {f g : Figures} {u v : Size} (hs : Reads s f u)
    (ht : Reads t g v) (hr : 0 ≤ rise f g) : window s t = true := by
  have hoff := abs_le.mp (hs.off ht)
  simp only [window, reportWindow, decide_eq_true_eq, hs.trimmed, ht.trimmed]
  unfold rise at hr
  omega

theorem Reads.fail {s t : Sample} {f g : Figures} {u v : Size} (hs : Reads s f u)
    (ht : Reads t g v) (hr : 4096 * rise f g < -2 * tolerance t.stol s.stol) :
    window s t = false := by
  have hoff := abs_le.mp (hs.off ht)
  simp only [window, reportWindow, decide_eq_false_iff_not, hs.trimmed, ht.trimmed]
  unfold rise at hr
  omega

/-- **The gap checker raises no false alarm, and misses no large gap.** Whatever the units in which
two lines of the daemon give the stored size: if the blocks and the trims counted together have not
gone down between them, check A passes; if they have gone down by more than twice the tolerance, it
fails. -/
theorem gap_check_sound (tag₁ tag₂ : Tag) (f₁ f₂ : Figures) : ∃ s₁ s₂,
    parseStats (statsLog tag₁ f₁) = some s₁ ∧ parseStats (statsLog tag₂ f₂) = some s₂ ∧
    (0 ≤ rise f₁ f₂ → window s₁ s₂ = true) ∧
    (4096 * rise f₁ f₂ < -2 * tolerance s₂.stol s₁.stol → window s₁ s₂ = false) := by
  obtain ⟨s₁, u₁, hp₁, h₁⟩ := parseStats_statsLog tag₁ f₁
  obtain ⟨s₂, u₂, hp₂, h₂⟩ := parseStats_statsLog tag₂ f₂
  exact ⟨s₁, s₂, hp₁, hp₂, h₁.pass h₂, h₁.fail h₂⟩

/-- The figures stay below `2 ^ 63` in size, so the arithmetic of the shell is exact too. -/
theorem Reads.fits {s t : Sample} {f g : Figures} {u v : Size} (hs : Reads s f u)
    (ht : Reads t g v) (hb : f.blocks < 2 ^ 49 ∧ g.blocks < 2 ^ 49)
    (hn : f.trimBlocks < 2 ^ 49 ∧ g.trimBlocks < 2 ^ 49) :
    |t.stored - s.stored| < 2 ^ 63 ∧ |(t.trimmed - s.trimmed) * 4096| < 2 ^ 63 ∧
      |(t.stored - s.stored) + (t.trimmed - s.trimmed) * 4096| < 2 ^ 63 := by
  have hcap : ∀ {s : Sample} {u : Size}, |(s.stol : ℚ) - tol u| ≤ 1 / 2 → s.stol ≤ 5368710 := by
    intro s u h
    have hu : tol u ≤ 5368710 - 1 / 2 := by
      cases u <;> norm_num [tol]
    have h1 := (abs_le.mp h).2
    have h2 : (s.stol : ℚ) ≤ 5368710 := by linarith
    exact_mod_cast h2
  have h1 := hcap hs.stol
  have h2 := hcap ht.stol
  have hoff := abs_le.mp (hs.off ht)
  rw [tolerance_eq] at hoff
  rw [abs_lt, abs_lt, abs_lt, hs.trimmed, ht.trimmed]
  omega

/-! ## A run of the script -/

/-- What the loop of the script keeps: the first and the latest sample, how many there were, and
whether a check has failed. -/
structure Loop where
  seen : Option (Sample × Sample)
  n : ℕ
  fail : Bool
  deriving Repr, DecidableEq

/-- One new line of the log. A line that does not parse is skipped; from the third sample on there
is a second window, back to the first one. -/
def Loop.line (l : Loop) (text : List Char) : Loop :=
  match parseStats text with
  | none => l
  | some s =>
    match l.seen with
    | none => ⟨some (s, s), l.n + 1, l.fail⟩
    | some (first, prev) =>
      ⟨some (first, s), l.n + 1,
        l.fail || !window prev s || (decide (3 ≤ l.n + 1) && !window first s)⟩

/-- The exit status of the script, as far as check A decides it. -/
def gapcheck (lines : List (List Char)) : Bool := (lines.foldl Loop.line ⟨none, 0, false⟩).fail

/-- The samples that the loop keeps come from figures no later than `f`. -/
def Loop.Before (l : Loop) (f : Figures) : Prop :=
  ∀ s ∈ l.seen, (∃ g u, Reads s.1 g u ∧ 0 ≤ rise g f) ∧ ∃ g u, Reads s.2 g u ∧ 0 ≤ rise g f

/-- One sample that follows what was seen leaves the verdict as it is. -/
theorem Loop.line_silent {l : Loop} (tag : Tag) {f : Figures} (hb : l.Before f)
    (hf : l.fail = false) : (l.line (statsLog tag f)).fail = false ∧
      ∀ g, 0 ≤ rise f g → l.Before g → (l.line (statsLog tag f)).Before g := by
  obtain ⟨s, u, hp, hs⟩ := parseStats_statsLog tag f
  unfold Loop.line
  rw [hp]
  cases hseen : l.seen with
  | none =>
      refine ⟨hf, fun g hg _ => ?_⟩
      intro p hp
      cases hp
      exact ⟨⟨f, u, hs, hg⟩, ⟨f, u, hs, hg⟩⟩
  | some p =>
      obtain ⟨⟨g₁, u₁, h₁, hr₁⟩, ⟨g₂, u₂, h₂, hr₂⟩⟩ := hb p hseen
      refine ⟨?_, fun g hg hbg => ?_⟩
      · simp [hf, h₁.pass hs hr₁, h₂.pass hs hr₂]
      · intro q hq
        cases hq
        exact ⟨(hbg p hseen).1, ⟨f, u, hs, hg⟩⟩

/-- **A run of the script is silent** on a log in which the blocks and the trims together never go
down, however many samples it takes. -/
theorem gapcheck_silent (ls : List (Tag × Figures))
    (h : ls.Pairwise fun l l' => 0 ≤ rise l.2 l'.2) :
    gapcheck (ls.map fun l => statsLog l.1 l.2) = false := by
  have hrun : ∀ l : Loop, l.fail = false → (∀ x ∈ ls, l.Before x.2) →
      ((ls.map fun l => statsLog l.1 l.2).foldl Loop.line l).fail = false := by
    induction ls with
    | nil => exact fun l hf _ => hf
    | cons x ls ih =>
        intro l hf hb
        obtain ⟨hx, hls⟩ := List.pairwise_cons.mp h
        obtain ⟨hfail, hnext⟩ := Loop.line_silent x.1 (hb x List.mem_cons_self) hf
        refine ih hls _ hfail fun y hy => ?_
        exact hnext y.2 (hx y hy) (hb y (List.mem_cons_of_mem _ hy))
  exact hrun _ rfl fun x _ s hs => nomatch hs

end GapCheck

end NbdVram
