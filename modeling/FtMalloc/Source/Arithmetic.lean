import FtMalloc.Lib.Checked
import FtMalloc.Source.Layout

/-!
# The arithmetic of `create_zone`, operation by operation (`malloc.c:21-31, 58-67`)

`Source/Layout.lean` computes the layout of a zone as the machine does, reducing every result to
its width. Here the same expressions are written in arithmetic that stops at an overflow, one
operation a line: `size_t` operations at 64 bits, `int` operations at 32.

* `zoneLayout` is the layout of a zone, `headerOffset` where block `i`'s header word goes, and
  `lastByte` the index and the value of the bitmap byte that is masked.
* `ZoneLayout.parts`: the header, the bitmap, the `requested_sizes` array and the slots.

Results: `zoneLayout_of`, `headerOffset_of`, `lastByte_of`: each is the exact layout when eight
times the zone's size fits an `int`.
-/

namespace FtMalloc

open Lib

/-- `total_size`, `n_blocks`, `bitmap_bytes` and `data_offset`, the four numbers `create_zone` lays
a zone out with. -/
structure ZoneLayout where
  totalSize : Nat
  nBlocks : Nat
  bitmapBytes : Nat
  dataOffset : Nat
  deriving DecidableEq, Repr

namespace Checked

open Lib.Checked

/-- `min_size` (`malloc.c:21-23`). -/
def minSize (blockSize : Nat) : Option Nat := do
  let bits ← addInt 32 blocksPerZone 7
  let bytes ← divInt 32 bits 8
  let bytes ← toSize 64 bytes
  let head ← add 64 ZoneT.sizeof bytes
  let words ← add 64 8 8
  let slot ← add 64 words blockSize
  let slots ← mul 64 blocksPerZone slot
  add 64 head slots

/-- `total_size` (`malloc.c:24`), from the inside out. -/
def totalSize (pageSize blockSize : Nat) : Option Nat := do
  let min ← minSize blockSize
  let sum ← add 64 min pageSize
  let sum ← sub sum 1
  let pages ← div sum pageSize
  mul 64 pages pageSize

/-- `n_blocks`, with its `int` casts and its cap (`malloc.c:28-31`): a value that an `int` does not
hold stops the evaluation too. -/
def nBlocks (total blockSize : Nat) : Option Int := do
  let half ← add 64 8 blockSize
  let perBlock ← add 64 half 8
  let room ← sub total ZoneT.sizeof
  let room ← mul 64 8 room
  let room ← toInt 32 room
  let need ← mul 64 8 perBlock
  let need ← add 64 need 1
  let need ← toInt 32 need
  let n ← divInt 32 room need
  pure (if n > 2047 then 2047 else n)

/-- `bitmap_bytes` (`malloc.c:48`). -/
def bitmapBytes (n : Int) : Option Nat := do
  let sum ← addInt 32 n 7
  let bytes ← divInt 32 sum 8
  toSize 64 bytes

/-- `data_offset` (`malloc.c:59`). -/
def dataOffset (n : Int) (bytes : Nat) : Option Nat := do
  let head ← add 64 ZoneT.sizeof bytes
  let n ← toSize 64 n
  let sizes ← mul 64 n 8
  add 64 head sizes

/-- The layout of a zone, or nothing when an operation overflows. -/
def zoneLayout (pageSize blockSize : Nat) : Option ZoneLayout := do
  let total ← totalSize pageSize blockSize
  let n ← nBlocks total blockSize
  let bytes ← bitmapBytes n
  let data ← dataOffset n bytes
  pure ⟨total, n.toNat, bytes, data⟩

/-- `data_offset + i * (sizeof(void *) + block_size)` of the header loop (`malloc.c:61`). -/
def headerOffset (data blockSize : Nat) (i : Int) : Option Nat := do
  let i ← toSize 64 i
  let stride ← add 64 8 blockSize
  let skip ← mul 64 i stride
  add 64 data skip

/-- `bitmap_bytes - 1` and `(1 << (n_blocks % 8)) - 1`, for the byte that is not full
(`malloc.c:55-56`). -/
def lastByte (n : Int) (bytes : Nat) : Option (Nat × Int) := do
  let r ← modInt 32 n 8
  let bit ← fitInt 32 (2 ^ r.toNat)
  let mask ← subInt 32 bit 1
  let last ← sub bytes 1
  pure (last, mask)

end Checked

namespace ZoneLayout

/-- The start and the length of each part of a zone: header, bitmap, requested sizes, slots. -/
def parts (L : ZoneLayout) (blockSize : Nat) : List (Nat × Nat) :=
  (0, ZoneT.sizeof) :: (ZoneT.sizeof, L.bitmapBytes) ::
    (ZoneT.sizeof + L.bitmapBytes, 8 * L.nBlocks) ::
      (List.range L.nBlocks).map fun i => (L.dataOffset + i * (8 + blockSize), 8 + blockSize)

end ZoneLayout

/-- The layout over the integers. -/
def exactLayout (pageSize blockSize : Nat) : ZoneLayout where
  totalSize := roundTotal pageSize blockSize
  nBlocks := slotCount pageSize blockSize
  bitmapBytes := (slotCount pageSize blockSize + 7) / 8
  dataOffset := 72 + (slotCount pageSize blockSize + 7) / 8 + 8 * slotCount pageSize blockSize

namespace Checked

open Lib.Checked

variable {P b n i : Nat}

theorem minSize_of (hb : b < 2 ^ 32) : minSize b = some (85 + 100 * (16 + b)) := by
  unfold minSize
  refine step (addInt_of (a := 100) (b := 7) (by decide)) ?_
  refine step (divInt_of (a := 107) (b := 8) (by decide) (by decide)) ?_
  refine step (toSize_of (n := 13) (by decide)) ?_
  refine step (add_of (by decide)) ?_
  refine step (add_of (by decide)) ?_
  refine step (add_of (by omega)) ?_
  refine step (mul_of (by simp only [blocksPerZone]; omega)) ?_
  exact add_of (by simp only [blocksPerZone, ZoneT.sizeof]; omega)

theorem totalSize_of (hP : 1 ≤ P) (hT : 8 * roundTotal P b < 2 ^ 31) :
    totalSize P b = some (roundTotal P b) := by
  have hlo := (roundTotal_bounds (b := b) hP).1
  have hPT := page_le_roundTotal (b := b) hP
  unfold totalSize
  refine step (minSize_of (by omega)) ?_
  refine step (add_of (by omega)) ?_
  refine step (sub_of (by omega)) ?_
  refine step (div_of hP) ?_
  have hfit : roundTotal P b < 2 ^ 64 := by omega
  exact mul_of hfit

theorem nBlocks_of (hP : 1 ≤ P) (hT : 8 * roundTotal P b < 2 ^ 31) :
    nBlocks (roundTotal P b) b = some (slotCount P b : Int) := by
  have hlo := (roundTotal_bounds (b := b) hP).1
  have hquot : 8 * (roundTotal P b - 72) / (8 * (8 + b + 8) + 1) < 2 ^ 31 :=
    (Nat.div_le_self _ _).trans_lt (by omega)
  unfold nBlocks
  refine step (add_of (by omega)) ?_
  refine step (add_of (by omega)) ?_
  refine step (sub_of (by simp only [ZoneT.sizeof]; omega)) ?_
  refine step (mul_of (by omega)) ?_
  refine step (toInt_of (by omega)) ?_
  refine step (mul_of (by omega)) ?_
  refine step (add_of (by omega)) ?_
  refine step (toInt_of (by omega)) ?_
  refine step (divInt_of (by omega) hquot) ?_
  unfold slotCount
  rw [show 8 + b + 8 = 16 + b by omega]
  generalize 8 * (roundTotal P b - ZoneT.sizeof) / (8 * (16 + b) + 1) = q
  change some (if (q : Int) > 2047 then 2047 else (q : Int)) = _
  split <;> simp <;> omega

theorem bitmapBytes_of (hn : n ≤ 2047) : bitmapBytes n = some ((n + 7) / 8) := by
  unfold bitmapBytes
  refine step (addInt_of (a := n) (b := 7) (by omega)) ?_
  refine step (divInt_of (a := n + 7) (b := 8) (by decide) (by omega)) ?_
  exact toSize_of (by omega)

theorem dataOffset_of (hn : n ≤ 2047) :
    dataOffset n ((n + 7) / 8) = some (72 + (n + 7) / 8 + 8 * n) := by
  unfold dataOffset
  refine step (add_of (by simp only [ZoneT.sizeof]; omega)) ?_
  refine step (toSize_of (by omega)) ?_
  refine step (mul_of (by omega)) ?_
  rw [Nat.mul_comm 8 n]
  exact add_of (by simp only [ZoneT.sizeof]; omega)

/-- **No operation overflows**, and the layout is the exact one. -/
theorem zoneLayout_of (hP : 1 ≤ P) (hT : 8 * roundTotal P b < 2 ^ 31) :
    zoneLayout P b = some (exactLayout P b) := by
  have hcap := (slotCount_bounds (b := b) hP).2.1
  unfold zoneLayout
  refine step (totalSize_of hP hT) ?_
  refine step (nBlocks_of hP hT) ?_
  refine step (bitmapBytes_of hcap) ?_
  exact step (dataOffset_of hcap) rfl

/-- Nor does the address arithmetic of the header loop. -/
theorem headerOffset_of (hP : 1 ≤ P) (hT : 8 * roundTotal P b < 2 ^ 31) (hi : i < slotCount P b) :
    headerOffset (exactLayout P b).dataOffset b i =
      some ((exactLayout P b).dataOffset + i * (8 + b)) := by
  have hroom := (fits_of_small hP hT).room
  rw [(fits_of_small hP hT).total] at hroom
  have hmul := Nat.mul_le_mul_right (8 + b) hi.le
  have hcap := (slotCount_bounds (b := b) hP).2.1
  have hlo := (roundTotal_bounds (b := b) hP).1
  unfold headerOffset exactLayout
  refine step (toSize_of (by omega)) ?_
  refine step (add_of (by omega)) ?_
  refine step (mul_of (by omega)) ?_
  exact add_of (by simp only; omega)

/-- Nor does that of the masked byte. -/
theorem lastByte_of (hn : 1 ≤ n) :
    lastByte n ((n + 7) / 8) = some ((n + 7) / 8 - 1, ((2 ^ (n % 8) - 1 : Nat) : Int)) := by
  have hlt : n % 8 < 8 := Nat.mod_lt _ (by decide)
  have hpow : 2 ^ (n % 8) ≤ 2 ^ 7 := Nat.pow_le_pow_right (by decide) (by omega)
  have hbit : fitInt 32 (2 ^ (n % 8)) = some ((2 ^ (n % 8) : Nat) : Int) := by
    exact_mod_cast fitInt_nat (w := 32) (n := 2 ^ (n % 8)) (by omega)
  unfold lastByte
  refine step (modInt_of (a := n) (b := 8) (by decide) (by omega)) ?_
  rw [Int.toNat_natCast]
  refine step hbit ?_
  refine step (subInt_of (a := 2 ^ (n % 8)) (b := 1) Nat.one_le_two_pow (by omega)) ?_
  exact step (sub_of (by omega)) rfl

end Checked

end FtMalloc
