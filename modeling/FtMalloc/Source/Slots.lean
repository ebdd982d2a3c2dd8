import FtMalloc.Source.Bonus

/-!
# The bitmap updates of `find_free_block` and `free` (`malloc.c:141-143`, `238-239`)

The stores with which the two functions take and release a slot, as functions of their own, with
the bit operations as C does them: the byte is promoted to `int`, and the result is cut to a byte
again. `findFreeBlockWith_take` and `freeZoneBlock_release` say where they are in the functions;
the bonus allocator has the same stores (`malloc_bonus.c:155-157`, `256-257`).
-/

namespace FtMalloc

open Lib

/-- A byte as an `int`. -/
def promote (byte : Byte) : BitVec 32 := byte.setWidth 32

/-- `byte & ~(1 << j)`, stored in a byte (`malloc.c:141`): the complement is that of an `int`. -/
def clearedByte (j : Nat) (byte : Byte) : Byte := (promote byte &&& ~~~(1#32 <<< j)).setWidth 8

/-- `byte | (1 << j)`, stored in a byte (`malloc.c:238`). -/
def setByte (j : Nat) (byte : Byte) : Byte := (promote byte ||| 1#32 <<< j).setWidth 8

/-- The stores of `find_free_block` for slot `k` (`malloc.c:141-143`): its bit, its requested size
and the count. -/
def takeSlot (zone k size : Nat) : C Unit := do
  updateBitmap zone k (clearedByte (k % 8))
  let sizes ← load 8 (zone + ZoneT.requestedSizes)
  store 8 (sizes + 8 * k) size
  addFreeCount zone (-1)

/-- The rest of `find_free_block` (`malloc.c:147-163`): the zone may be full now. -/
def afterTake (zone k : Nat) : C Nat := do
  let e ← retireIfFull zone
  if e ≠ 0 then pure null else calculateZoneBlockAddress zone k

/-- The stores of `free` for block number `k` (`malloc.c:238-239`): its bit and the count, not the
requested size. -/
def releaseSlot (zone k : Nat) : C Unit := do
  updateBitmap zone k (setByte (k % 8))
  addFreeCount zone 1

/-- The rest of `free` for a zone's block (`malloc.c:242-261`): the zone may be empty now, or no
longer full. -/
def afterRelease [Platform] (zone : Nat) : C Unit := do
  let count ← loadInt (zone + ZoneT.freeCount)
  let n ← loadInt (zone + ZoneT.numberOfBlocks)
  if count = n then reclaimZone zone
  else if count = 1 then reopenZone zone
  else pure ()

variable {j : Nat}

/-- The bits of `1 << j`. -/
theorem getLsbD_one_shift {i : Nat} (hi : i < 8) : (1#32 <<< j).getLsbD i = decide (i = j) := by
  rw [BitVec.getLsbD_shiftLeft, BitVec.getLsbD_one]
  by_cases h : i = j
  · subst h
    simp
    omega
  · by_cases hlt : i < j
    · simp [hlt, h]
    · have hne : i - j ≠ 0 := by omega
      simp [hne, h]

theorem getLsbD_promote (byte : Byte) {i : Nat} (hi : i < 8) :
    (promote byte).getLsbD i = byte.getLsbD i := by
  unfold promote
  rw [BitVec.getLsbD_setWidth, decide_eq_true (by omega), Bool.true_and]

/-- The promotion makes no difference to the low bits. -/
theorem clearedByte_eq (j : Nat) (byte : Byte) : clearedByte j byte = byte &&& ~~~bitMask j := by
  apply BitVec.eq_of_getLsbD_eq
  intro i hi
  unfold clearedByte
  rw [getLsbD_and_not_bitMask _ hi, BitVec.getLsbD_setWidth, decide_eq_true hi, Bool.true_and,
    BitVec.getLsbD_and, BitVec.getLsbD_not, getLsbD_promote byte hi, getLsbD_one_shift hi,
    decide_eq_true (by omega), Bool.true_and]

theorem setByte_eq (j : Nat) (byte : Byte) : setByte j byte = byte ||| bitMask j := by
  apply BitVec.eq_of_getLsbD_eq
  intro i hi
  unfold setByte
  rw [getLsbD_or_bitMask _ hi, BitVec.getLsbD_setWidth, decide_eq_true hi, Bool.true_and,
    BitVec.getLsbD_or, getLsbD_promote byte hi, getLsbD_one_shift hi]

/-- `find_free_block` takes the slot it found. -/
theorem findFreeBlockWith_take (find : Nat → C Int) (zone size : Nat) :
    findFreeBlockWith find zone size = (if zone = null then pure null
      else do
        let bit ← find zone
        if bit = -1 then pure null
        else do
          takeSlot zone bit.toNat size
          afterTake zone bit.toNat) := by
  have hclear : ∀ k : Nat, (fun byte : Byte => byte &&& ~~~bitMask (k % 8)) = clearedByte (k % 8) :=
    fun k => funext fun byte => (clearedByte_eq (k % 8) byte).symm
  unfold findFreeBlockWith takeSlot afterTake
  simp only [hclear, bind_assoc]

/-- `free` releases the slot of the block. -/
theorem freeZoneBlock_release [Platform] (zone k : Nat) : freeZoneBlock zone k = (do
    releaseSlot zone k
    afterRelease zone) := by
  have hset : (fun byte : Byte => byte ||| bitMask (k % 8)) = setByte (k % 8) :=
    funext fun byte => (setByte_eq (k % 8) byte).symm
  unfold freeZoneBlock releaseSlot afterRelease
  simp only [hset, bind_assoc]

end FtMalloc
