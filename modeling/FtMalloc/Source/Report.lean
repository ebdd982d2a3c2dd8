import FtMalloc.Source.Debug
import FtMalloc.Source.Dump
import FtMalloc.Source.Numbers
import FtMalloc.Source.Show

/-!
# The text of the report (`src/show_alloc_mem.c:45-107`, `bonus/src/show_alloc_mem.c:79-208`)

`show_alloc_mem` and, of the bonus allocator, `show_alloc_mem_ex`, with what they write.
`Source/Show.lean` has the numbers of the same functions.

* `show_zone_ex` and `show_alloc_mem_ex` are `show_zone` and `show_alloc_mem` with a `hex_dump`
  after every line of a block (`ex`).
* `calculate_zone_block_address` has a debug line, so with `DEBUG` set (`debug`), as it is in both
  headers, there is one before the line of every block of a zone.
* The buffers of `write_hex` and `write_dec` are not initialised: `Locals` has what the stack has
  there, which may be something else at every call, and what `write` returns to `ft_printf`. The
  calls are told apart by how much was written before them.
* `while` loops over a list have the fuel of `lastOf`: one node per mapped region.
-/

namespace FtMalloc

open Lib

/-- What `char buf[18]` and `char buf[21]` hold before, after so many bytes of output, and what
`write` returns. -/
structure Locals where
  hex : Nat → Vector Byte 18
  dec : Nat → Vector Byte 21
  kernel : Printf.Kernel

/-- What was written so far, and the sum of the sizes as a `size_t`. -/
structure Printed where
  text : List Byte
  total : Nat
  deriving DecidableEq, Repr

/-- More text. -/
def Printed.put (out : Printed) (t : List Byte) : Printed := { out with text := out.text ++ t }

namespace Text

variable (debug ex : Bool) (L : Locals)

/-- `write_str` (`show_alloc_mem.c:7-10`), one `write` for each byte. -/
def writeStr (s : List Char) (out : Printed) : C Printed := pure (out.put (ascii s))

/-- `write_hex` (`show_alloc_mem.c:12-28`), from whatever its buffer held. -/
def writeHex (val : Nat) (out : Printed) : C Printed :=
  match Show.writeHex (L.hex out.text.length) (BitVec.ofNat 64 val) with
  | some t => pure (out.put t)
  | none => Prog.fault

/-- `write_dec` (`show_alloc_mem.c:30-43`). -/
def writeDec (val : Nat) (out : Printed) : C Printed :=
  match Show.writeDec (L.dec out.text.length) (BitVec.ofNat 64 val) with
  | some t => pure (out.put t)
  | none => Prog.fault

/-- The dump of `show_alloc_mem_ex` (`bonus/src/show_alloc_mem.c:156`, `199`). -/
def hexDump (addr size : Nat) (out : Printed) : C Printed :=
  if ex then do
    let t ← Bonus.hexDumpText addr size
    pure (out.put t)
  else
    pure out

/-- The line of a block, its dump, and `total += bytes` (`bonus/src/show_alloc_mem.c:86-92`,
`150-157`). -/
def line (start bytes : Nat) (out : Printed) : C Printed := do
  let out ← writeHex L start out
  let out ← writeStr [' ', '-', ' '] out
  let out ← writeHex L (wrap (start + bytes)) out
  let out ← writeStr [' ', ':', ' '] out
  let out ← writeDec L bytes out
  let out ← writeStr [' ', 'b', 'y', 't', 'e', 's', '\n'] out
  let out ← hexDump ex start bytes out
  pure { out with total := wrap (out.total + bytes) }

/-- The arguments of the debug line of `calculate_zone_block_address` (`malloc.c:127`). -/
def addressArgs (zone i addr : Nat) : List Printf.Arg :=
  [.pointer (BitVec.ofNat 64 zone), .int (BitVec.ofNat 32 i), .pointer (BitVec.ofNat 64 addr)]

/-- `DBG(...)` in `calculate_zone_block_address`: the report calls it between its own lines, so that
with `DEBUG` set both are in one output. -/
def debugAddress (zone i addr : Nat) (out : Printed) : C Printed :=
  if debug then
    match addressCall.run L.kernel (addressArgs zone i addr) out.text with
    | .ok r => pure { out with text := r.2 }
    | .error _ => Prog.fault
  else
    pure out

/-- The body of the loop of `show_zone` and `show_zone_ex` (`bonus/src/show_alloc_mem.c:82-93`,
`146-158`). -/
def showBlock (zone i : Nat) (out : Printed) : C Printed := do
  let bitmap ← load 8 (zone + ZoneT.bitmap)
  let byte ← loadByte (bitmap + i / 8)
  if byte &&& bitMask (i % 8) = 0#8 then
    let sizes ← load 8 (zone + ZoneT.requestedSizes)
    let req ← load 8 (sizes + 8 * i)
    let start ← calculateZoneBlockAddress zone i
    let out ← debugAddress debug L zone i start out
    line ex L start req out
  else
    pure out

/-- The loop, `k` blocks from block `i` on. -/
def showBlocks (zone : Nat) : Nat → Nat → Printed → C Printed
  | _, 0, out => pure out
  | i, k + 1, out => do
    let out ← showBlock debug ex L zone i out
    showBlocks zone (i + 1) k out

/-- `total += show_zone(zone)`, or of `show_zone_ex`, whose own total starts at zero
(`bonus/src/show_alloc_mem.c:79-96`, `143-161`). -/
def showZone (zone : Nat) (out : Printed) : C Printed := do
  let n ← loadInt (zone + ZoneT.numberOfBlocks)
  let s ← showBlocks debug ex L zone 0 n.toNat ⟨out.text, 0⟩
  pure ⟨s.text, wrap (out.total + s.total)⟩

/-- `while (zone) { total += show_zone(zone); zone = zone->next; }` (`show_alloc_mem.c:73`). -/
def showZones : Nat → Nat → Printed → C Printed
  | 0, zone, out => if zone = null then pure out else Prog.fault
  | fuel + 1, zone, out => do
    if zone = null then
      pure out
    else
      let out ← showZone debug ex L zone out
      let next ← load 8 (zone + ZoneT.next)
      showZones fuel next out

/-- `while (block)`, the loop over the large blocks (`bonus/src/show_alloc_mem.c:125-136`,
`190-202`). -/
def showLarge : Nat → Nat → Printed → C Printed
  | 0, block, out => if block = null then pure out else Prog.fault
  | fuel + 1, block, out => do
    if block = null then
      pure out
    else
      let size ← load 8 (block + BlockT.size)
      let out ← line ex L (block + BlockT.sizeof + 8) size out
      let next ← load 8 (block + BlockT.next)
      showLarge fuel next out

/-- A heading: `write_str(name); write_hex(first); write_char('\n');`. The address is that of the
first node, or `0x0`. -/
def heading (name : List Char) (first : Nat) (out : Printed) : C Printed := do
  let out ← writeStr name out
  let out ← writeHex L first out
  writeStr ['\n'] out

/-- The heading and the two lists of a class, the free zones first
(`bonus/src/show_alloc_mem.c:101-109`). -/
def showClass (name : List Char) (free full : Head) (out : Printed) : C Printed := do
  let w ← Prog.get
  let first := if w.heap.get free ≠ null then w.heap.get free else w.heap.get full
  let out ← heading L name first out
  let out ← showZones debug ex L w.os.regions.length (w.heap.get free) out
  showZones debug ex L w.os.regions.length (w.heap.get full) out

/-- The headings. -/
def tinyName : List Char := ['T', 'I', 'N', 'Y', ' ', ':', ' ']

def smallName : List Char := ['S', 'M', 'A', 'L', 'L', ' ', ':', ' ']

def largeName : List Char := ['L', 'A', 'R', 'G', 'E', ' ', ':', ' ']

def totalName : List Char := ['T', 'o', 't', 'a', 'l', ' ', ':', ' ']

/-- What both functions write (`bonus/src/show_alloc_mem.c:98-141`, `163-208`), with the last line,
that of the total. -/
def report : C (List Byte) := do
  let out ← showClass debug ex L tinyName .freeTinyZones .fullTinyZones ⟨[], 0⟩
  let out ← showClass debug ex L smallName .freeSmallZones .fullSmallZones out
  let w ← Prog.get
  let out ← heading L largeName w.heap.fullLargeBlocks out
  let out ← showLarge ex L w.os.regions.length w.heap.fullLargeBlocks out
  let out ← writeStr totalName out
  let out ← writeDec L out.total out
  let out ← writeStr [' ', 'b', 'y', 't', 'e', 's', '\n'] out
  pure out.text

/-- `show_alloc_mem`. -/
def showAllocMem : C (List Byte) := report debug false L

/-- `show_alloc_mem_ex`. -/
def showAllocMemEx : C (List Byte) := report debug true L

end Text

end FtMalloc
