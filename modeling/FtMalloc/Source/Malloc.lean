import FtMalloc.Lib.Bitmap
import FtMalloc.Source.List

/-!
# The mandatory allocator (`src/malloc.c`)

The functions of `malloc.c` in the order of the file, under the source's names. A `zone_t *` or
`block_t *` is an address, a field access a load or store at the field's offset.

`bonus/src/malloc_bonus.c` repeats `create_zone`, `create_block`, `setup_global_heap`,
`calculate_zone_block_address`, the body of `find_free_block`, `find_free_large_block` and the
body of `free` (there `free_ptr`). The functions it changes take the changed part as a
parameter here (`scanBytes`, `findFreeBlockWith`, `allocBlockWith`), and
`Source/Bonus.lean` gives it the bonus part.

`while` loops over a list have the fuel of `lastOf`: one node per mapped region.
-/

namespace FtMalloc

open Lib

/-! ## Zones and blocks -/

/-- `ft_memset(p, c, len)` (`libft/ft_memset.c:17-32`), which `create_zone` fills the bitmap
with. -/
def ftMemset (p : Nat) (c : Byte) (len : Nat) : C Unit :=
  Prog.forUp (fun i => storeByte (p + i) c) 0 len

/-- `zone->bitmap[bitmap_bytes - 1] = (unsigned char)((1 << (n_blocks % 8)) - 1)`, when the last
byte is not full (`malloc.c:55-56`). -/
def maskLastByte (bitmap bytes : Nat) (n : Int) : C Unit :=
  if n.tmod 8 ≠ 0 then storeByte (bitmap + (bytes - 1)) (lowMask (n.tmod 8).toNat) else pure ()

/-- The header loop of `create_zone` (`malloc.c:60-63`): block `i`'s header word is
`META_PACK(zone, i)`. The slots are `sizeof(void *) + block_size` bytes apart. -/
def writeHeaders (zone off blockSize : Nat) (n : Int) : C Unit :=
  Prog.forUp (fun i => store 8 (zone + off + i * (8 + blockSize)) (metaPack zone i)) 0 n.toNat

/-- The list a new zone of this block size joins (`malloc.c:66-72`). A block size that is neither of
the two would leave the zone on no list. -/
def insertZone (blockSize zone : Nat) : C Unit :=
  if blockSize = tinyBlockSize then lstAddBack .freeTinyZones zone
  else if blockSize = smallBlockSize then lstAddBack .freeSmallZones zone
  else pure ()

/-- The fields and arrays of a new zone, in the order in which `create_zone` writes them
(`malloc.c:37-64`). -/
def initZone (zone total blockSize : Nat) (n : Int) : C Unit := do
  store 8 (zone + ZoneT.base) zone
  store 8 (zone + ZoneT.zoneSize) total
  storeInt (zone + ZoneT.numberOfBlocks) n
  storeInt (zone + ZoneT.freeCount) n
  store 8 (zone + ZoneT.next) null
  store 8 (zone + ZoneT.prev) null
  storeInt (zone + ZoneT.type) (if blockSize = tinyBlockSize then tinyBlock else smallBlock)
  store 8 (zone + ZoneT.bitmap) (zone + ZoneT.sizeof)
  let bitmap ← load 8 (zone + ZoneT.bitmap)
  store 8 (zone + ZoneT.requestedSizes) (bitmap + bitmapBytes n)
  ftMemset bitmap 0xFF#8 (bitmapBytes n)
  maskLastByte bitmap (bitmapBytes n) n
  writeHeaders zone (dataOffset n) blockSize n
  store 8 (zone + ZoneT.memory) (zone + dataOffset n + 8)

/-- `create_zone` (`malloc.c:14-74`): 1 when its `mmap` fails, before anything is written, and 0
otherwise. -/
def createZone (blockSize : Nat) : C Int := do
  let pageSize ← getpagesize
  let zone ← mmap (totalSize pageSize blockSize)
  if zone = mapFailed then
    pure 1
  else
    initZone zone (totalSize pageSize blockSize) blockSize (nBlocks pageSize blockSize)
    insertZone blockSize zone
    pure 0

variable [Platform]

/-- `create_block` (`malloc.c:76-89`): a mapping of its own for one large block. A failing `mmap` is
reported by `perror`. -/
def createBlock (size : Nat) : C Nat := do
  let block ← mmap (wrap (BlockT.sizeof + 8 + size))
  if block = mapFailed then
    Platform.perror
    pure null
  else
    store 8 (block + BlockT.size) size
    storeInt (block + BlockT.type) largeBlock
    storeInt (block + BlockT.free) 1
    store 8 (block + BlockT.sizeof) block
    pure block

/-- `setup_global_heap` (`malloc.c:91-103`). A tiny zone that was made stays when the small one
cannot be: `initialized` is still 0, and the next call makes another. -/
def setupGlobalHeap : C Int := do
  let e ← createZone tinyBlockSize
  if e ≠ 0 then
    pure 1
  else
    let e ← createZone smallBlockSize
    if e ≠ 0 then
      pure 1
    else
      Prog.modify fun w => { w with heap := { w.heap with initialized := 1 } }
      pure 0

/-! ## Finding a block -/

/-- The inner loop of `find_set_bit` (`malloc.c:113-119`): the first set bit of byte `i` from bit
`j` on. -/
def scanByte (byte : Byte) (i : Nat) : Nat → Nat → Option Nat
  | _, 0 => none
  | j, k + 1 => if byte &&& bitMask j ≠ 0#8 then some (i * 8 + j) else scanByte byte i (j + 1) k

/-- The outer loop of `find_set_bit` (`malloc.c:111-120`), from byte `i` on; `found` is what the
function returns for the bit it finds, which is where the two files differ. -/
def scanBytes (bitmap : Nat) (found : Nat → Int) : Nat → Nat → C Int
  | _, 0 => pure (-1)
  | i, k + 1 => do
    let byte ← loadByte (bitmap + i)
    match scanByte byte i 0 8 with
    | some b => pure (found b)
    | none => scanBytes bitmap found (i + 1) k

/-- `find_set_bit` (`malloc.c:105-123`): -1 when no bit is set, and for NULL. -/
def findSetBit (zone : Nat) : C Int := do
  if zone = null then
    pure (-1)
  else
    let n ← loadInt (zone + ZoneT.numberOfBlocks)
    let bitmap ← load 8 (zone + ZoneT.bitmap)
    scanBytes bitmap (fun b => (b : Int)) 0 ((wrapInt (n + 7)).tdiv 8).toNat

/-- `ZONE_BLOCK_SIZE(z)` (`malloc.h:46`): every type but `TINY_BLOCK` counts as small. -/
def zoneBlockSize (zone : Nat) : C Nat := do
  let t ← loadInt (zone + ZoneT.type)
  pure (if t = tinyBlock then tinyBlockSize else smallBlockSize)

/-- `calculate_zone_block_address` (`malloc.c:125-129`): where the payload of block `k` begins. -/
def calculateZoneBlockAddress (zone k : Nat) : C Nat := do
  let mem ← load 8 (zone + ZoneT.memory)
  let size ← zoneBlockSize zone
  pure (mem + k * (8 + size))

/-- `zone->bitmap[k / 8] = f(zone->bitmap[k / 8])`, with the `&= ~(1 << j)` of `malloc.c:141` or the
`|= (1 << j)` of `malloc.c:238` for `f`. -/
def updateBitmap (zone k : Nat) (f : Byte → Byte) : C Unit := do
  let bitmap ← load 8 (zone + ZoneT.bitmap)
  let byte ← loadByte (bitmap + k / 8)
  storeByte (bitmap + k / 8) (f byte)

/-- `zone->free_count += d`, with -1 in `find_free_block` (`malloc.c:143`) and 1 in `free`
(`malloc.c:239`). -/
def addFreeCount (zone : Nat) (d : Int) : C Unit := do
  let count ← loadInt (zone + ZoneT.freeCount)
  storeInt (zone + ZoneT.freeCount) (count + d)

/-- The full-zone branch of `find_free_block` (`malloc.c:149-160`): move the zone to the full list
of its class and map another one. The result is the error of `create_zone`. -/
def retireZone (zone : Nat) : C Int := do
  let t ← loadInt (zone + ZoneT.type)
  if t = tinyBlock then
    lstDetach .freeTinyZones zone
    lstAddBack .fullTinyZones zone
    createZone tinyBlockSize
  else if t = smallBlock then
    lstDetach .freeSmallZones zone
    lstAddBack .fullSmallZones zone
    createZone smallBlockSize
  else
    pure 0

/-- `if (zone->free_count == 0)` and its body (`malloc.c:147-161`). -/
def retireIfFull (zone : Nat) : C Int := do
  let count ← loadInt (zone + ZoneT.freeCount)
  if count = 0 then retireZone zone else pure 0

/-- `find_free_block` (`malloc.c:133-164`), over the `find_set_bit` of either file. The slot is
taken before the next zone is mapped: when that fails, NULL is returned and the slot stays taken. -/
def findFreeBlockWith (find : Nat → C Int) (zone size : Nat) : C Nat := do
  if zone = null then
    pure null
  else
    let bit ← find zone
    if bit = -1 then
      pure null
    else
      updateBitmap zone bit.toNat fun byte => byte &&& ~~~bitMask (bit.toNat % 8)
      let sizes ← load 8 (zone + ZoneT.requestedSizes)
      store 8 (sizes + 8 * bit.toNat) size
      addFreeCount zone (-1)
      let e ← retireIfFull zone
      if e ≠ 0 then pure null else calculateZoneBlockAddress zone bit.toNat

/-- The search loop of `find_free_large_block` (`malloc.c:167-176`): the first block of the free
list that is large enough, or NULL. Its size is not changed when it is reused. -/
def findFit (size : Nat) : Nat → Nat → C Nat
  | 0, block => if block = null then pure null else Prog.fault
  | fuel + 1, block => do
    if block = null then
      pure null
    else
      let s ← load 8 (block + BlockT.size)
      if s ≥ size then
        pure block
      else
        let next ← load 8 (block + BlockT.next)
        findFit size fuel next

/-- `find_free_large_block` (`malloc.c:166-185`): a block of the free list, else a new one. Either
goes to the end of the full list. -/
def findFreeLargeBlock (size : Nat) : C Nat := do
  let w ← Prog.get
  let block ← findFit size w.os.regions.length w.heap.freeLargeBlocks
  if block ≠ null then
    blockDetach .freeLargeBlocks block
    blockAddBack .fullLargeBlocks block
    pure (block + BlockT.sizeof + 8)
  else
    let block ← createBlock size
    if block = null then
      pure null
    else
      blockAddBack .fullLargeBlocks block
      pure (block + BlockT.sizeof + 8)

/-- `alloc_block` (`malloc.c:187-204`), over the `find_set_bit` of either file: the class is the
request's size alone, and a zone is always the first of its free list. -/
def allocBlockWith (find : Nat → C Int) (size : Nat) : C Nat := do
  let w ← Prog.get
  if size ≤ tinyBlockSize then findFreeBlockWith find w.heap.freeTinyZones size
  else if size ≤ smallBlockSize then findFreeBlockWith find w.heap.freeSmallZones size
  else findFreeLargeBlock size

/-- `find_free_block` (`malloc.c:133-164`), with the `find_set_bit` of `malloc.c`. -/
def findFreeBlock : Nat → Nat → C Nat := findFreeBlockWith findSetBit

/-- `alloc_block` (`malloc.c:187-204`), likewise: by size a tiny, a small or a large block. -/
def allocBlock : Nat → C Nat := allocBlockWith findSetBit

/-! ## The entry points -/

/-- `if (global_heap.initialized == 0) setup_global_heap()` (`malloc.c:213-219`), and the error it
returns. -/
def ensureSetup : C Int := do
  let w ← Prog.get
  if w.heap.initialized = 0 then setupGlobalHeap else pure 0

/-- `malloc` (`malloc.c:206-224`): a size of zero and one above `PTRDIFF_MAX` are refused before the
heap is looked at. -/
def malloc (size : Nat) : C Nat := do
  if size = 0 ∨ size > ptrdiffMax then
    pure null
  else
    let e ← ensureSetup
    if e ≠ 0 then pure null else allocBlock size

/-- The list of a class's free zones, from the type read in a zone (`malloc.c:244-246`). -/
def freeListOf (t : Int) : Head := if t = tinyBlock then .freeTinyZones else .freeSmallZones

/-- A zone whose blocks are all free again is unmapped unless it is alone in its list
(`malloc.c:242-251`). The result of `munmap` is not looked at. -/
def reclaimZone (zone : Nat) : C Unit := do
  let t ← loadInt (zone + ZoneT.type)
  let prev ← load 8 (zone + ZoneT.prev)
  let next ← load 8 (zone + ZoneT.next)
  if prev ≠ null ∨ next ≠ null then
    lstDetach (freeListOf t) zone
    let base ← load 8 (zone + ZoneT.base)
    let size ← load 8 (zone + ZoneT.zoneSize)
    let _ ← munmap base size
    pure ()
  else
    pure ()

/-- A full zone that has a free block again goes back to the free list of its class
(`malloc.c:252-261`). -/
def reopenZone (zone : Nat) : C Unit := do
  let t ← loadInt (zone + ZoneT.type)
  if t = tinyBlock then
    lstDetach .fullTinyZones zone
    lstAddBack .freeTinyZones zone
  else if t = smallBlock then
    lstDetach .fullSmallZones zone
    lstAddBack .freeSmallZones zone
  else
    pure ()

/-- The zone branch of `free` (`malloc.c:234-261`). -/
def freeZoneBlock (zone k : Nat) : C Unit := do
  updateBitmap zone k fun byte => byte ||| bitMask (k % 8)
  addFreeCount zone 1
  let count ← loadInt (zone + ZoneT.freeCount)
  let n ← loadInt (zone + ZoneT.numberOfBlocks)
  if count = n then reclaimZone zone
  else if count = 1 then reopenZone zone
  else pure ()

/-- The large branch of `free` (`malloc.c:262-271`): a block of more than 100 kilobytes is unmapped,
a smaller one is kept for reuse. -/
def freeLargeBlock (block : Nat) : C Unit := do
  blockDetach .fullLargeBlocks block
  let size ← load 8 (block + BlockT.size)
  if size > smallBlockSize * blocksPerZone then
    let _ ← munmap block (wrap (BlockT.sizeof + 8 + size))
    pure ()
  else
    storeInt (block + BlockT.free) 1
    blockAddBack .freeLargeBlocks block

/-- `free` past its NULL test (`malloc.c:233-272`), which is also `free_ptr` of the bonus allocator
(`malloc_bonus.c:247-291`). The word in front of the pointer says which branch is taken. -/
def freePtr (ptr : Nat) : C Unit := do
  let word ← load 8 (ptr - 8)
  if metaIsZone word then freeZoneBlock (metaZone word) (metaBlockNum word)
  else freeLargeBlock word

/-- `free` (`malloc.c:226-273`). Nothing is checked but NULL: any other pointer is taken for one of
the allocator's. -/
def free (ptr : Nat) : C Unit :=
  if ptr = null then pure () else freePtr ptr

/-- `ft_memcpy(dst, src, n)` (`libft/ft_memcpy.c:16-29`), byte by byte in ascending order. -/
def ftMemcpy (dst src n : Nat) : C Unit :=
  if dst = null then pure ()
  else Prog.forUp (fun i => do let b ← loadByte (src + i); storeByte (dst + i) b) 0 n

/-- The size `realloc` compares a request with (`malloc.c:285-293`): the class size of a zone block,
the recorded size of a large block, never the size that was requested. -/
def currentSize (word : Nat) : C Nat :=
  if metaIsZone word then zoneBlockSize (metaZone word) else load 8 (word + BlockT.size)

/-- `realloc` (`malloc.c:276-311`): in place when the block is large enough, size 0 included, else a
new block, a copy and a release. When there is no new block the old one stays. -/
def realloc (ptr size : Nat) : C Nat := do
  if ptr = null then
    malloc size
  else
    let word ← load 8 (ptr - 8)
    let current ← currentSize word
    if size ≤ current then
      pure ptr
    else
      let new ← malloc size
      if new = null then
        pure null
      else
        ftMemcpy new ptr (if size < current then size else current)
        free ptr
        pure new

end FtMalloc
