import NbdVram.Lib.Span
import NbdVram.Lib.MutationLog

/-!
# Blocks, the codec and index entries

A logical block is a page of `CBLK_SIZE = 4096` bytes. `comp_block` turns a page
into the bytes to store, 1 to 4096 of them, and 4096 stored bytes always are the
page verbatim. An index entry packs the place, the stored length and a generation
into one 64-bit word.
-/

namespace NbdVram

open Span

/-- One uncompressed block. -/
@[ext] structure Page where
  bytes : List UInt8
  length_eq : bytes.length = 4096

namespace Page

/-- The page at address `a` of a buffer. -/
def read (f : ℕ → UInt8) (a : ℕ) : Page := ⟨slice f a 4096, slice_length⟩

def zero : Page := ⟨List.replicate 4096 0, List.length_replicate⟩

@[simp] theorem read_bytes (f : ℕ → UInt8) (a : ℕ) : (read f a).bytes = slice f a 4096 := by
  simp only [read]

theorem read_congr {f g : ℕ → UInt8} {a b : ℕ} (h : ∀ i < 4096, f (a + i) = g (b + i)) :
    read f a = read g b := by
  apply Page.ext
  rw [read_bytes, read_bytes]
  exact slice_congr h

theorem read_splice_self (f : ℕ → UInt8) (a : ℕ) (p : Page) : read (splice f a p.bytes) a = p := by
  apply Page.ext
  rw [read_bytes]
  exact slice_splice_self p.length_eq

theorem read_splice_out {f : ℕ → UInt8} {a b : ℕ} {l : List UInt8}
    (h : b + 4096 ≤ a ∨ a + l.length ≤ b) : read (splice f a l) b = read f b := by
  apply Page.ext
  rw [read_bytes, read_bytes]
  exact slice_splice_out h

end Page

/-! ## The codec -/

inductive CodecKind
  | none
  | zstd
  | lz4
  deriving DecidableEq

/-- The loaded compression library. A compressor gives the bytes it produced, or `none` where
the library reports an error; a decompressor likewise. -/
structure Codec where
  kind : CodecKind
  compress : List UInt8 → Option (List UInt8)
  decompress : List UInt8 → Option (List UInt8)

namespace Codec

/-- `comp_block`: the bytes to store. A result that is an error, empty or no shorter than the
block is dropped for the block itself. -/
def compBlock (c : Codec) (p : Page) : List UInt8 :=
  match c.kind with
  | .none => p.bytes
  | .zstd | .lz4 =>
    match c.compress p.bytes with
    | some bs => if 0 < bs.length ∧ bs.length < 4096 then bs else p.bytes
    | none => p.bytes

/-- `decomp_block`, on the `clen` stored bytes `bs`. -/
def decompBlock (c : Codec) (bs : List UInt8) : Option Page :=
  if h : bs.length = 4096 then some ⟨bs, h⟩
  else match c.kind with
    | .none => none
    | .zstd | .lz4 => (c.decompress bs).bind fun out =>
        if h : out.length = 4096 then some ⟨out, h⟩ else none

/-- What the libraries document: decompressing what was compressed gives it back. -/
def RoundTrip (c : Codec) : Prop :=
  c.kind ≠ .none → ∀ p : Page, ∀ bs, c.compress p.bytes = some bs → c.decompress bs = some p.bytes

variable {c : Codec}

theorem compBlock_cases (c : Codec) (p : Page) :
    c.compBlock p = p.bytes ∨ c.kind ≠ .none ∧ c.compress p.bytes = some (c.compBlock p) ∧
      0 < (c.compBlock p).length ∧ (c.compBlock p).length < 4096 := by
  unfold compBlock
  cases hk : c.kind with
  | none => exact .inl rfl
  | zstd | lz4 =>
      cases hc : c.compress p.bytes with
      | none => exact .inl rfl
      | some bs =>
          by_cases hb : 0 < bs.length ∧ bs.length < 4096
          · simp only [if_pos hb]
            exact .inr ⟨by simp, trivial, hb⟩
          · simp only [if_neg hb]
            exact .inl trivial

theorem compBlock_length (c : Codec) (p : Page) :
    1 ≤ (c.compBlock p).length ∧ (c.compBlock p).length ≤ 4096 := by
  have hp := p.length_eq
  rcases c.compBlock_cases p with h | ⟨-, -, h1, h2⟩
  · rw [h]
    omega
  · omega

/-- The stored length tells whether the bytes are the block itself. -/
theorem compBlock_verbatim (c : Codec) (p : Page) :
    (c.compBlock p).length = 4096 ↔ c.compBlock p = p.bytes := by
  constructor
  · intro hl
    rcases c.compBlock_cases p with h | ⟨-, -, -, hlt⟩
    · exact h
    · omega
  · intro h
    rw [h]
    exact p.length_eq

/-- What `comp_block` stores, `decomp_block` brings back. -/
theorem decomp_comp (h : c.RoundTrip) (p : Page) : c.decompBlock (c.compBlock p) = some p := by
  rcases c.compBlock_cases p with hc | ⟨hk, hc, -, hlt⟩
  · rw [hc, decompBlock, dif_pos p.length_eq]
  · have hd := h hk p _ hc
    rw [decompBlock, dif_neg (by omega)]
    cases hkk : c.kind with
    | none => exact absurd hkk hk
    | zstd | lz4 =>
        simp only [hd, Option.bind_some, dif_pos p.length_eq]

end Codec

/-! ## Index entries -/

/-- `ent_grain`: bits 0 to 29. -/
def entGrain (e : ℕ) : ℕ := (e &&& (1 <<< 30 - 1)) % 2 ^ 32

/-- `ent_clen`: bits 30 to 42; 0 means the block was never written. -/
def entClen (e : ℕ) : ℕ := ((e >>> 30) &&& (1 <<< 13 - 1)) % 2 ^ 32

/-- `ent_gen`: bits 43 to 63, bumped by every publish. -/
def entGen (e : ℕ) : ℕ := (e >>> 43) % 2 ^ 32 &&& 0x1FFFFF

/-- `ent_make`. -/
def entMake (grain clen gen : ℕ) : ℕ := grain ||| clen <<< 30 ||| (gen &&& 0x1FFFFF) <<< 43

theorem entMake_eq {grain clen gen : ℕ} (hg : grain < 2 ^ 30) (hc : clen < 2 ^ 13) :
    entMake grain clen gen = grain + clen * 2 ^ 30 + gen % 2 ^ 21 * 2 ^ 43 := by
  have h1 : grain ||| clen <<< 30 = grain + clen * 2 ^ 30 := by
    rw [Nat.or_comm, Nat.shiftLeft_eq, Nat.mul_comm, ← Nat.two_pow_add_eq_or_of_lt hg, Nat.add_comm]
  have h2 : gen &&& 0x1FFFFF = gen % 2 ^ 21 := Nat.and_two_pow_sub_one_eq_mod gen 21
  have h3 : grain + clen * 2 ^ 30 < 2 ^ 43 := by omega
  rw [entMake, h1, h2, Nat.or_comm, Nat.shiftLeft_eq, Nat.mul_comm (gen % 2 ^ 21),
    ← Nat.two_pow_add_eq_or_of_lt h3, Nat.add_comm]

theorem entGrain_eq (e : ℕ) : entGrain e = e % 2 ^ 30 := by
  rw [entGrain, show 1 <<< 30 - 1 = 2 ^ 30 - 1 from rfl, Nat.and_two_pow_sub_one_eq_mod]
  omega

theorem entClen_eq (e : ℕ) : entClen e = e / 2 ^ 30 % 2 ^ 13 := by
  rw [entClen, show 1 <<< 13 - 1 = 2 ^ 13 - 1 from rfl, Nat.and_two_pow_sub_one_eq_mod,
    Nat.shiftRight_eq_div_pow]
  omega

theorem entGen_eq (e : ℕ) : entGen e = e / 2 ^ 43 % 2 ^ 21 := by
  rw [entGen, show 0x1FFFFF = 2 ^ 21 - 1 from rfl, Nat.and_two_pow_sub_one_eq_mod,
    Nat.shiftRight_eq_div_pow]
  omega

section

variable {grain clen gen : ℕ} (hg : grain < 2 ^ 30) (hc : clen < 2 ^ 13)
include hg hc

theorem entGrain_make : entGrain (entMake grain clen gen) = grain := by
  rw [entGrain_eq, entMake_eq hg hc]
  omega

theorem entClen_make : entClen (entMake grain clen gen) = clen := by
  rw [entClen_eq, entMake_eq hg hc]
  omega

theorem entGen_make : entGen (entMake grain clen gen) = gen % 2 ^ 21 := by
  rw [entGen_eq, entMake_eq hg hc]
  omega

end

/-! ## The logical device

What the index and the heap stand for is a flat array of bytes. It changes only when an index
entry is stored, and the log of these mutations is the history of the device. -/

/-- One store to an index entry: the worker, the position of the request it served among those
it was serving, the block, and the page the block shows from then on. -/
structure Mut where
  who : ℕ
  req : ℕ
  blk : ℕ
  page : Page

/-- The effect of a mutation on the flat array. -/
def Mut.app (m : Mut) (d : ℕ → UInt8) : ℕ → UInt8 := splice d (m.blk * 4096) m.page.bytes

/-- The flat array after a log of mutations of a fresh device. -/
def disk (log : List Mut) : ℕ → UInt8 := MutationLog.applyAll Mut.app (fun _ => 0) log

/-- Block `b` of a flat array. -/
def pageOf (d : ℕ → UInt8) (b : ℕ) : Page := Page.read d (b * 4096)

/-- How often block `b` is mutated in a log. -/
def mutations (b : ℕ) (log : List Mut) : ℕ := log.countP fun m => m.blk = b

theorem disk_append (log log' : List Mut) :
    disk (log ++ log') = MutationLog.applyAll Mut.app (disk log) log' :=
  MutationLog.applyAll_append _ _ _ _

theorem disk_concat (log : List Mut) (m : Mut) : disk (log ++ [m]) = m.app (disk log) :=
  disk_append log [m]

theorem pageOf_app (m : Mut) (d : ℕ → UInt8) (b : ℕ) :
    pageOf (m.app d) b = if b = m.blk then m.page else pageOf d b := by
  split
  · rename_i h
    rw [h]
    exact Page.read_splice_self _ _ _
  · apply Page.read_splice_out
    rw [m.page.length_eq]
    omega

theorem pageOf_getD (d : ℕ → UInt8) (a : ℕ) :
    (pageOf d (a / 4096)).bytes.getD (a % 4096) default = d a := by
  have hmod := Nat.mod_lt a (show 4096 > 0 by decide)
  rw [pageOf, Page.read_bytes, slice_getD hmod]
  congr 1
  omega

theorem pageOf_zero (b : ℕ) : pageOf (fun _ => 0) b = Page.zero := by
  apply Page.ext
  rw [pageOf, Page.read_bytes]
  exact (List.eq_replicate_iff.mpr ⟨slice_length, fun x hx => by
    obtain ⟨i, -, rfl⟩ := List.mem_map.mp hx
    rfl⟩)

theorem mutations_append (b : ℕ) (log log' : List Mut) :
    mutations b (log ++ log') = mutations b log + mutations b log' :=
  List.countP_append

@[simp] theorem mutations_single (b : ℕ) (m : Mut) :
    mutations b [m] = if m.blk = b then 1 else 0 := by
  simp [mutations, List.countP_cons]

/-- A block that is not mutated keeps its page. -/
theorem pageOf_applyAll {b : ℕ} {log : List Mut} (h : mutations b log = 0) (d : ℕ → UInt8) :
    pageOf (MutationLog.applyAll Mut.app d log) b = pageOf d b := by
  induction log generalizing d with
  | nil => rfl
  | cons m log ih =>
      rw [← List.singleton_append, mutations_append, mutations_single] at h
      have hm : b ≠ m.blk := by
        rintro rfl
        rw [if_pos rfl] at h
        omega
      rw [MutationLog.applyAll_cons, ih (by omega), pageOf_app, if_neg hm]

theorem splice_page {d : ℕ → UInt8} {b off : ℕ} {p : Page} {bs : List UInt8}
    (ho : off + bs.length ≤ 4096)
    (hp : ∀ i < 4096, p.bytes.getD i default = splice d (b * 4096 + off) bs (b * 4096 + i)) :
    splice d (b * 4096) p.bytes = splice d (b * 4096 + off) bs := by
  funext x
  by_cases hx : b * 4096 ≤ x ∧ x < b * 4096 + 4096
  · obtain ⟨i, rfl⟩ := Nat.exists_eq_add_of_le hx.1
    rw [splice_at (by rw [p.length_eq]; omega), hp i (by omega)]
  · rw [splice_out (by rw [p.length_eq]; omega), splice_out (by omega)]

end NbdVram
