import Mathlib.Data.Nat.Bitwise
import Mathlib.Tactic.Ring
import Mathlib.Tactic.Linarith

/-!
# Layout constants and zone arithmetic

Model of `src/malloc.h` (`bonus/src/malloc_bonus.h` has the same constants, structs and macros)
and of the arithmetic at the start of `create_zone` (`malloc.c:17-31`, `58`).

* `size_t` and pointers are natural numbers; `wrap` is the reduction modulo `2 ^ 64` after a
  `size_t` operation, `wrapInt` what a 32-bit `int` operation leaves in the compiled code, and
  `castInt` the conversion to a 32-bit `int`.
* The struct offsets are those of LP64: `sizeof(zone_t) = 72`, `sizeof(block_t) = 40`.
* `metaPack`, `metaIsZone`, `metaZone`, `metaBlockNum` are the `META_` macros.

Results:
* `fits_of_small`: when eight times the zone's size fits an `int`, none of the machine operations
  of `create_zone` wraps and the header, the bitmap, the `requested_sizes` array and the slots
  lie one after the other inside the zone (`ZoneFits`), with 100 to 2047 slots.
* `metaZone_pack`, `metaBlockNum_pack`, `metaIsZone_pack`: a packed header word unpacks.
-/

namespace FtMalloc

/-- `NULL`. -/
abbrev null : Nat := 0

/-- `MAP_FAILED`, the pointer `-1`, which is no address of a mapping. -/
abbrev mapFailed : Nat := 2 ^ 64 - 1

/-- `PTRDIFF_MAX`, the largest size `malloc` accepts (`malloc.c:207`). -/
abbrev ptrdiffMax : Nat := 2 ^ 63 - 1

theorem lt_of_le_ptrdiffMax {s : Nat} (h : s ≤ ptrdiffMax) : s < 2 ^ 64 := by
  simp only [ptrdiffMax] at h
  omega

/-- The length `create_block` maps for a size that `malloc` accepts fits a `size_t`. -/
theorem length_lt_of_le_ptrdiffMax {s : Nat} (h : s ≤ ptrdiffMax) : 48 + s < 2 ^ 64 := by
  simp only [ptrdiffMax] at h
  omega

/-- `TINY_BLOCK_SIZE` (`malloc.h:15`). -/
abbrev tinyBlockSize : Nat := 64

/-- `SMALL_BLOCK_SIZE` (`malloc.h:16`). -/
abbrev smallBlockSize : Nat := 1024

/-- `BLOCKS_PER_ZONE` (`malloc.h:17`), the least number of slots a zone is made for. -/
abbrev blocksPerZone : Nat := 100

/-- `TINY_BLOCK` of `type_t` (`malloc.h:27-31`): the enumeration is stored as an `int`. -/
abbrev tinyBlock : Int := 0

/-- `SMALL_BLOCK`, after `TINY_BLOCK` in the enumeration (`malloc.h:27-31`). -/
abbrev smallBlock : Int := 1

/-- `LARGE_BLOCK`, the type of a block with a mapping of its own (`malloc.h:27-31`). -/
abbrev largeBlock : Int := 2

/-! ## Field offsets -/

namespace ZoneT

/-- `sizeof(zone_t)`, and the offsets of its fields (`malloc.h:33-44`). -/
abbrev sizeof : Nat := 72
abbrev base : Nat := 0
abbrev type : Nat := 8
abbrev numberOfBlocks : Nat := 12
abbrev zoneSize : Nat := 16
abbrev requestedSizes : Nat := 24
abbrev bitmap : Nat := 32
abbrev memory : Nat := 40
abbrev freeCount : Nat := 48
abbrev next : Nat := 56
abbrev prev : Nat := 64

end ZoneT

namespace BlockT

/-- `sizeof(block_t)`, and the offsets of its fields (`malloc.h:57-64`); `memory` is never used. -/
abbrev sizeof : Nat := 40
abbrev size : Nat := 0
abbrev type : Nat := 8
abbrev free : Nat := 12
abbrev next : Nat := 24
abbrev prev : Nat := 32

end BlockT

/-! ## Machine arithmetic -/

/-- A `size_t` result: arithmetic on sizes and pointers is modulo `2 ^ 64`. -/
def wrap (n : Nat) : Nat := n % 2 ^ 64

/-- An `int` result, with the wrap-around of the compiled code. -/
def wrapInt (i : Int) : Int := i.bmod (2 ^ 32)

/-- `(int)n` of a `size_t`. -/
def castInt (n : Nat) : Int := Int.bmod n (2 ^ 32)

/-- `(size_t)i` of an `int`. -/
def castSize (i : Int) : Nat := (i % 2 ^ 64).toNat

/-- `min_size` of `create_zone` (`malloc.c:21-23`): the header, a bitmap for `BLOCKS_PER_ZONE`
slots, and the slots with their header words and requested sizes. -/
def minSize (blockSize : Nat) : Nat :=
  wrap (ZoneT.sizeof + (blocksPerZone + 7) / 8 + wrap (blocksPerZone * wrap (8 + 8 + blockSize)))

/-- `total_size` (`malloc.c:24`): `min_size` rounded up to whole pages. -/
def totalSize (pageSize blockSize : Nat) : Nat :=
  wrap (wrap (minSize blockSize + pageSize + (2 ^ 64 - 1)) / pageSize * pageSize)

/-- `per_block` (`malloc.c:28`). -/
def perBlock (blockSize : Nat) : Nat := wrap (8 + blockSize + 8)

/-- `n_blocks` (`malloc.c:29-31`): what fits the whole pages, capped by the eleven index bits of a
header word. -/
def nBlocks (pageSize blockSize : Nat) : Int :=
  let n := (castInt (wrap (8 * wrap (totalSize pageSize blockSize + (2 ^ 64 - ZoneT.sizeof))))).tdiv
    (castInt (wrap (8 * perBlock blockSize + 1)))
  if n > 2047 then 2047 else n

/-- `bitmap_bytes` (`malloc.c:48`), an `int` converted to a `size_t`. -/
def bitmapBytes (n : Int) : Nat := castSize ((n + 7).tdiv 8)

/-- `data_offset` (`malloc.c:59`): where the first header word lies. -/
def dataOffset (n : Int) : Nat := wrap (ZoneT.sizeof + bitmapBytes n + wrap (castSize n * 8))

/-! ## Header words -/

/-- `META_PACK(zone, n)` (`malloc.h:52`): the zone's address, the flag in bit 11 and the block
number below it. -/
def metaPack (zone n : Nat) : Nat := zone ||| 1 <<< 11 ||| n

/-- `META_IS_ZONE(meta)` (`malloc.h:53`). -/
def metaIsZone (word : Nat) : Bool := word &&& 1 <<< 11 != 0

/-- `META_ZONE(meta)` (`malloc.h:54`). -/
def metaZone (word : Nat) : Nat := word &&& (2 ^ 64 - 1 - 0xFFF)

/-- `META_BLOCK_NUM(meta)` (`malloc.h:55`). -/
def metaBlockNum (word : Nat) : Nat := word &&& 0x7FF

variable {z n : Nat}

/-- On a page-aligned zone the packing is a sum: the three fields do not overlap. -/
theorem metaPack_eq (hz : z % 4096 = 0) (hn : n < 2048) : metaPack z n = z + 2048 + n := by
  obtain ⟨q, rfl⟩ : ∃ q, z = 2 ^ 12 * q := ⟨z / 4096, by omega⟩
  have h1 : 2 ^ 12 * q ||| 2048 = 2 ^ 11 * (2 * q + 1) := by
    rw [← Nat.two_pow_add_eq_or_of_lt (by decide)]
    ring
  have h2 : 2 ^ 11 * (2 * q + 1) ||| n = 2 ^ 11 * (2 * q + 1) + n :=
    (Nat.two_pow_add_eq_or_of_lt (by simpa using hn) _).symm
  rw [metaPack, show 1 <<< 11 = 2048 from rfl, h1, h2]
  ring

theorem metaIsZone_eq (w : Nat) : metaIsZone w = (w / 2048 % 2 == 1) := by
  have h : w &&& 1 <<< 11 = (w.testBit 11).toNat * 2 ^ 11 := by
    rw [show 1 <<< 11 = 2 ^ 11 from rfl, Nat.and_two_pow]
  rw [metaIsZone, h, Nat.testBit_eq_decide_div_mod_eq]
  rcases Nat.mod_two_eq_zero_or_one (w / 2048) with h0 | h0 <;> simp [h0]

theorem metaBlockNum_eq (w : Nat) : metaBlockNum w = w % 2048 :=
  Nat.and_two_pow_sub_one_eq_mod w 11

/-- The address mask clears the low twelve bits of a word. -/
theorem metaZone_eq {w : Nat} (hw : w < 2 ^ 64) : metaZone w = 4096 * (w / 4096) := by
  have hmask : 2 ^ 64 - 1 - 0xFFF = 2 ^ 12 * (2 ^ 52 - 1) := by decide
  apply Nat.eq_of_testBit_eq
  intro i
  rw [metaZone, hmask, Nat.testBit_and, Nat.testBit_two_pow_mul,
    show (4096 : Nat) = 2 ^ 12 from rfl, Nat.testBit_two_pow_mul, Nat.testBit_two_pow_sub_one,
    Nat.testBit_div_two_pow]
  by_cases h12 : 12 ≤ i
  · simp only [h12, decide_true, Bool.true_and, show i - 12 + 12 = i by omega]
    by_cases h64 : i < 64
    · simp [show i - 12 < 52 by omega]
    · have : w.testBit i = false :=
        Nat.testBit_lt_two_pow (hw.trans_le (Nat.pow_le_pow_right (by decide) (by omega)))
      simp [this]
  · simp [h12]

theorem metaIsZone_pack (hz : z % 4096 = 0) (hn : n < 2048) : metaIsZone (metaPack z n) = true := by
  rw [metaIsZone_eq, metaPack_eq hz hn, beq_iff_eq]
  omega

theorem metaZone_pack (hz : z % 4096 = 0) (hz64 : z + 4096 ≤ 2 ^ 64) (hn : n < 2048) :
    metaZone (metaPack z n) = z := by
  rw [metaPack_eq hz hn, metaZone_eq (by omega)]
  omega

theorem metaBlockNum_pack (hz : z % 4096 = 0) (hn : n < 2048) :
    metaBlockNum (metaPack z n) = n := by
  rw [metaBlockNum_eq, metaPack_eq hz hn]
  omega

/-- The header word of a large block is its own address (`malloc.c:86-87`), and does not carry the
zone flag. -/
theorem metaIsZone_aligned (hz : z % 4096 = 0) : metaIsZone z = false := by
  rw [metaIsZone_eq, beq_eq_false_iff_ne]
  omega

theorem metaPack_lt (hz : z % 4096 = 0) (hz64 : z + 4096 ≤ 2 ^ 64) (hn : n < 2048) :
    metaPack z n < 256 ^ 8 := by
  have h8 : 256 ^ 8 = 2 ^ 64 := by decide
  rw [metaPack_eq hz hn, h8]
  omega

/-! ## The zone arithmetic does not wrap -/

/-- `total_size` over the integers: `72 + 13` bytes of header and bitmap and 100 slots, rounded
up to whole pages. -/
def roundTotal (pageSize blockSize : Nat) : Nat :=
  (85 + 100 * (16 + blockSize) + pageSize - 1) / pageSize * pageSize

/-- The number of slots over the integers: the inequality of `malloc.c:26-27`, solved and capped. -/
def slotCount (pageSize blockSize : Nat) : Nat :=
  min 2047 (8 * (roundTotal pageSize blockSize - 72) / (8 * (16 + blockSize) + 1))

/-- The machine arithmetic of `create_zone` is exact, and the parts of a zone of `n` slots lie one
after the other inside it: header, bitmap, requested sizes, slots. -/
structure ZoneFits (pageSize blockSize n : Nat) : Prop where
  total : totalSize pageSize blockSize = roundTotal pageSize blockSize
  slots : nBlocks pageSize blockSize = n
  enough : 100 ≤ n
  cap : n ≤ 2047
  bitmap : bitmapBytes n = (n + 7) / 8
  data : dataOffset n = 72 + (n + 7) / 8 + 8 * n
  room : 72 + (n + 7) / 8 + 8 * n + n * (8 + blockSize) ≤ totalSize pageSize blockSize

theorem wrap_of_lt {n : Nat} (h : n < 2 ^ 64) : wrap n = n := Nat.mod_eq_of_lt h

theorem wrapInt_small {i : Int} (h : -2 ^ 31 ≤ i) (h' : i < 2 ^ 31) : wrapInt i = i :=
  Int.bmod_eq_of_le (by omega) (by omega)

theorem wrapInt_nat {n : Nat} (h : n < 2 ^ 31) : wrapInt n = n :=
  wrapInt_small (by omega) (by omega)

@[simp] theorem wrapInt_add (i j : Int) : wrapInt (wrapInt i + j) = wrapInt (i + j) :=
  Int.bmod_add_bmod

@[simp] theorem wrapInt_add_right (i j : Int) : wrapInt (i + wrapInt j) = wrapInt (i + j) :=
  Int.add_bmod_bmod

@[simp] theorem wrapInt_mul (i j : Int) : wrapInt (wrapInt i * j) = wrapInt (i * j) :=
  Int.bmod_mul_bmod

theorem wrapInt_lt (i : Int) : wrapInt i < 2 ^ 31 := by
  have h := Int.bmod_lt (x := i) (m := 2 ^ 32) (by decide)
  unfold wrapInt
  omega

theorem wrapInt_over {q : Nat} (h : 2 ^ 31 ≤ q) (hq : q < 2 ^ 32) : wrapInt q < 0 := by
  have heq : wrapInt q = q - 2 ^ 32 := by
    unfold wrapInt
    rw [Int.bmod_eq_iff (Nat.two_pow_pos 32)]
    omega
  omega

theorem castInt_of_lt {n : Nat} (h : n < 2 ^ 31) : castInt n = n := by
  unfold castInt
  rw [Int.bmod_eq_of_le (by omega) (by omega)]

theorem castSize_of_nat {n : Nat} (h : n < 2 ^ 64) : castSize (n : Int) = n := by
  unfold castSize
  omega

section Fits

variable {P b : Nat}

theorem roundTotal_bounds (hP : 1 ≤ P) :
    85 + 100 * (16 + b) ≤ roundTotal P b ∧ roundTotal P b < 85 + 100 * (16 + b) + P := by
  unfold roundTotal
  generalize 85 + 100 * (16 + b) = M
  have h1 := Nat.div_add_mod (M + P - 1) P
  have h2 := Nat.mod_lt (M + P - 1) hP
  rw [Nat.mul_comm] at h1
  omega

theorem page_le_roundTotal (hP : 1 ≤ P) : P ≤ roundTotal P b := by
  have hpos : 0 < roundTotal P b := by
    have := (roundTotal_bounds (b := b) hP).1
    omega
  unfold roundTotal at hpos ⊢
  exact Nat.le_mul_of_pos_left P (Nat.pos_of_mul_pos_right hpos)

theorem minSize_eq (hb : b < 2 ^ 32) : minSize b = 85 + 100 * (16 + b) := by
  simp only [minSize, wrap, ZoneT.sizeof, blocksPerZone]
  omega

/-- **`total_size` does not wrap** while `8 * T` fits an `int`, which is what the cast of
`malloc.c:29` needs. -/
theorem totalSize_eq (hP : 1 ≤ P) (hT : 8 * roundTotal P b < 2 ^ 31) :
    totalSize P b = roundTotal P b := by
  have hlo := (roundTotal_bounds (b := b) hP).1
  have hPT := page_le_roundTotal (b := b) hP
  have hround : wrap (minSize b + P + (2 ^ 64 - 1)) = 85 + 100 * (16 + b) + P - 1 := by
    rw [minSize_eq (by omega)]
    unfold wrap
    omega
  unfold totalSize
  rw [hround]
  exact wrap_of_lt (by rw [roundTotal] at hT; omega)

theorem slotCount_bounds (hP : 1 ≤ P) : 100 ≤ slotCount P b ∧ slotCount P b ≤ 2047 ∧
    slotCount P b * (8 * (16 + b) + 1) ≤ 8 * (roundTotal P b - 72) := by
  have hlo := (roundTotal_bounds (b := b) hP).1
  have hge : 100 ≤ 8 * (roundTotal P b - 72) / (8 * (16 + b) + 1) := by
    rw [Nat.le_div_iff_mul_le (by omega)]
    omega
  refine ⟨Nat.le_min.mpr ⟨by decide, hge⟩, Nat.min_le_left _ _, ?_⟩
  exact (Nat.mul_le_mul_right _ (Nat.min_le_right _ _)).trans (Nat.div_mul_le_self _ _)

theorem nBlocks_eq (hP : 1 ≤ P) (hT : 8 * roundTotal P b < 2 ^ 31) :
    nBlocks P b = slotCount P b := by
  have hlo := (roundTotal_bounds (b := b) hP).1
  have hsub : wrap (totalSize P b + (2 ^ 64 - ZoneT.sizeof)) = roundTotal P b - 72 := by
    rw [totalSize_eq hP hT]
    simp only [wrap, ZoneT.sizeof]
    omega
  have hper : perBlock b = 16 + b := by
    simp only [perBlock, wrap]
    omega
  simp only [nBlocks, slotCount]
  rw [hsub, hper, wrap_of_lt (by omega), wrap_of_lt (by omega), castInt_of_lt (by omega),
    castInt_of_lt (by omega), Int.tdiv_eq_ediv_of_nonneg (by omega)]
  generalize roundTotal P b - 72 = R
  rw [show ((8 * R : Nat) : Int) / ((8 * (16 + b) + 1 : Nat) : Int) =
    ((8 * R / (8 * (16 + b) + 1) : Nat) : Int) from rfl]
  generalize 8 * R / (8 * (16 + b) + 1) = q
  split <;> omega

theorem bitmapBytes_eq {n : Nat} (hn : n ≤ 2047) : bitmapBytes n = (n + 7) / 8 := by
  unfold bitmapBytes
  rw [Int.tdiv_eq_ediv_of_nonneg (by omega)]
  exact castSize_of_nat (n := (n + 7) / 8) (by omega)

theorem dataOffset_eq {n : Nat} (hn : n ≤ 2047) :
    dataOffset n = 72 + (n + 7) / 8 + 8 * n := by
  unfold dataOffset
  rw [bitmapBytes_eq hn, castSize_of_nat (by omega)]
  simp only [wrap, ZoneT.sizeof]
  omega

/-- **The parts of a zone fit inside it**: eight times their size is at most `8 * T + 7`. -/
theorem fits_of_small (hP : 1 ≤ P) (hT : 8 * roundTotal P b < 2 ^ 31) :
    ZoneFits P b (slotCount P b) := by
  obtain ⟨h100, hcap, hroom⟩ := slotCount_bounds (b := b) hP
  have hlo := (roundTotal_bounds (b := b) hP).1
  have hexp : slotCount P b * (8 * (16 + b) + 1) =
      8 * (8 * slotCount P b + slotCount P b * (8 + b)) + slotCount P b := by ring
  exact {
    total := totalSize_eq hP hT
    slots := nBlocks_eq hP hT
    enough := h100
    cap := hcap
    bitmap := bitmapBytes_eq hcap
    data := dataOffset_eq hcap
    room := by
      rw [totalSize_eq hP hT]
      omega }

end Fits

end FtMalloc
