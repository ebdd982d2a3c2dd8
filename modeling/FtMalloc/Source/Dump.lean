import FtMalloc.Lib.Text
import FtMalloc.Source.World

/-!
# The text of a dump (`bonus/src/show_alloc_mem.c:45-77`)

`hex_dump` as a program that reads memory and returns the text it writes, character by character
in the order of its `write_char` calls. `Source/Traverse.lean` has the memory accesses of the same
function without the text.

The loop over the lines runs while `i < size`; `(size + 15) / 16` rounds are enough unless `i`
wraps, and needing more is a fault.
-/

namespace FtMalloc

open Lib

namespace Bonus

/-- `write_hex_byte` (`show_alloc_mem.c:45-50`): always two digits. -/
def writeHexByte (b : Byte) : List Byte :=
  let hi := ((b >>> 4) &&& 0xF#8).toNat
  let lo := (b &&& 0xF#8).toNat
  [hexChar true hi, hexChar true lo]

/-- The byte of `c` in the right column: itself when it can be printed, else a dot
(`show_alloc_mem.c:73`). -/
def shownChar (c : Byte) : Byte := if 32 ≤ c.toNat ∧ c.toNat < 127 then c else chr '.'

/-- The `j` loop over the hexadecimal columns (`show_alloc_mem.c:59-68`), `k` columns from column
`j` on. Columns past the last byte are blank. -/
def dumpColumns (addr size i : Nat) : Nat → Nat → C (List Byte)
  | _, 0 => pure []
  | j, k + 1 => do
    let cell ← (if i + j < size then do
        let b ← loadByte (addr + (i + j))
        pure (writeHexByte b ++ ascii [' '])
      else
        pure (ascii [' ', ' ', ' ']))
    let gap := if j = 7 then ascii [' '] else []
    let rest ← dumpColumns addr size i (j + 1) k
    pure (cell ++ gap ++ rest)

/-- The `j` loop over the characters (`show_alloc_mem.c:71-74`), at most `k` from character `j`
on. -/
def dumpChars (addr size i : Nat) : Nat → Nat → C (List Byte)
  | _, 0 => pure []
  | j, k + 1 =>
    if i + j < size then do
      let c ← loadByte (addr + (i + j))
      let rest ← dumpChars addr size i (j + 1) k
      pure (shownChar c :: rest)
    else
      pure []

/-- The line of byte `i` (`show_alloc_mem.c:55-75`), whose offset has four digits. -/
def dumpLine (addr size i : Nat) : C (List Byte) := do
  let columns ← dumpColumns addr size i 0 16
  let chars ← dumpChars addr size i 0 16
  pure (ascii [' ', ' ', '0', 'x'] ++
    writeHexByte (BitVec.ofNat 8 ((i >>> 8) &&& 0xFF)) ++
    writeHexByte (BitVec.ofNat 8 (i &&& 0xFF)) ++
    ascii [':', ' '] ++ columns ++ ascii [' ', '|'] ++ chars ++ ascii ['|', '\n'])

/-- The `i` loop over the lines (`show_alloc_mem.c:54-76`), from byte `i` on. -/
def dumpFrom (addr size : Nat) : Nat → Nat → C (List Byte)
  | 0, i => if i < size then Prog.fault else pure []
  | fuel + 1, i =>
    if i < size then do
      let line ← dumpLine addr size i
      let rest ← dumpFrom addr size fuel (wrap (i + 16))
      pure (line ++ rest)
    else
      pure []

/-- The text `hex_dump` writes (`show_alloc_mem.c:52-77`), with one line for sixteen bytes. -/
def hexDumpText (addr size : Nat) : C (List Byte) := dumpFrom addr size ((size + 15) / 16) 0

end Bonus

end FtMalloc
