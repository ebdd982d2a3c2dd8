import FtMalloc.Source.Malloc

/-!
# The report of `show_alloc_mem` (`src/show_alloc_mem.c:45-107`)

`show_alloc_mem` walks the zone lists and the list of handed out large blocks, writes one line
`start - end : bytes bytes` for each block, and adds the sizes up. `bonus/src/show_alloc_mem.c`
has the same `show_zone` and `show_alloc_mem`.

The functions return what the source writes: a `ShowLine` has the three numbers of a line, a
`Report` the three headings, the lines below each and the total. How a number is spelled
(`write_hex`, `write_dec`) is not modelled here.

`while` loops over a list have the fuel of `lastOf`: one node per mapped region.
-/

namespace FtMalloc

open Lib

/-- The numbers of a line `start - end : bytes bytes` (`show_alloc_mem.c:52-57`, `94-99`). -/
structure ShowLine where
  start : Nat
  stop : Nat
  bytes : Nat
  deriving DecidableEq, Repr

/-- The lines written so far, and the sum of their sizes as a `size_t`. -/
structure Shown where
  lines : List ShowLine
  total : Nat
  deriving DecidableEq, Repr

namespace Shown

/-- Write the line of a block of `bytes` bytes, and `total += bytes`. -/
def line (sh : Shown) (start bytes : Nat) : Shown :=
  ⟨sh.lines ++ [⟨start, wrap (start + bytes), bytes⟩], wrap (sh.total + bytes)⟩

/-- `total += show_zone(zone)`, with the lines `show_zone` wrote. -/
def append (sh s : Shown) : Shown := ⟨sh.lines ++ s.lines, wrap (sh.total + s.total)⟩

end Shown

/-- The body of `show_zone`'s loop (`show_alloc_mem.c:48-59`): a block whose bit is set is free and
not shown. -/
def showBlock (zone i : Nat) (sh : Shown) : C Shown := do
  let bitmap ← load 8 (zone + ZoneT.bitmap)
  let byte ← loadByte (bitmap + i / 8)
  if byte &&& bitMask (i % 8) = 0#8 then
    let sizes ← load 8 (zone + ZoneT.requestedSizes)
    let req ← load 8 (sizes + 8 * i)
    let start ← calculateZoneBlockAddress zone i
    pure (sh.line start req)
  else
    pure sh

/-- `show_zone`'s loop, `k` blocks from block `i` on (`show_alloc_mem.c:47-60`). -/
def showBlocks (zone : Nat) : Nat → Nat → Shown → C Shown
  | _, 0, sh => pure sh
  | i, k + 1, sh => do
    let sh ← showBlock zone i sh
    showBlocks zone (i + 1) k sh

/-- `show_zone` (`show_alloc_mem.c:45-62`). -/
def showZone (zone : Nat) : C Shown := do
  let n ← loadInt (zone + ZoneT.numberOfBlocks)
  showBlocks zone 0 n.toNat ⟨[], 0⟩

/-- `while (zone) { total += show_zone(zone); zone = zone->next; }` (`show_alloc_mem.c:73`, `75`,
`83`, `85`). -/
def showZones : Nat → Nat → Shown → C Shown
  | 0, zone, sh => if zone = null then pure sh else Prog.fault
  | fuel + 1, zone, sh => do
    if zone = null then
      pure sh
    else
      let s ← showZone zone
      let next ← load 8 (zone + ZoneT.next)
      showZones fuel next (sh.append s)

/-- `while (block)`, the loop over the large blocks (`show_alloc_mem.c:91-102`), whose size is the
recorded one. -/
def showLarge : Nat → Nat → Shown → C Shown
  | 0, block, sh => if block = null then pure sh else Prog.fault
  | fuel + 1, block, sh => do
    if block = null then
      pure sh
    else
      let size ← load 8 (block + BlockT.size)
      let next ← load 8 (block + BlockT.next)
      showLarge fuel next (sh.line (block + BlockT.sizeof + 8) size)

/-- A heading and the lines below it. -/
structure Section where
  head : Nat
  lines : List ShowLine
  deriving DecidableEq, Repr

/-- What `show_alloc_mem` writes, as numbers; `Text.showAllocMem` has the text. -/
structure Report where
  tiny : Section
  small : Section
  large : Section
  total : Nat
  deriving DecidableEq, Repr

/-- The lines of the report, in the order they are written. -/
def Report.lines (r : Report) : List ShowLine := r.tiny.lines ++ r.small.lines ++ r.large.lines

/-- The two lists of a class, the free zones first (`show_alloc_mem.c:67-75`, `77-85`), with the
total before and after. -/
def showClass (free full : Head) (total : Nat) : C (Section × Nat) := do
  let w ← Prog.get
  let first := if w.heap.get free ≠ null then w.heap.get free else w.heap.get full
  let sh ← showZones w.os.regions.length (w.heap.get free) ⟨[], total⟩
  let sh ← showZones w.os.regions.length (w.heap.get full) sh
  pure (⟨first, sh.lines⟩, sh.total)

/-- `show_alloc_mem` (`show_alloc_mem.c:64-107`). -/
def showAllocMem : C Report := do
  let tiny ← showClass .freeTinyZones .fullTinyZones 0
  let small ← showClass .freeSmallZones .fullSmallZones tiny.2
  let w ← Prog.get
  let large ← showLarge w.os.regions.length w.heap.fullLargeBlocks ⟨[], small.2⟩
  pure ⟨tiny.1, small.1, ⟨w.heap.fullLargeBlocks, large.lines⟩, large.total⟩

end FtMalloc
