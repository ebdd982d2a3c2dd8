import FtMalloc.Lib.Text

/-!
# The numbers of the report (`src/show_alloc_mem.c:3-43`, the same lines of the bonus file)

`write_hex` and `write_dec` fill a local buffer from its end, one digit a round, and write what
they filled.

* The buffer is a list of bytes of the declared length with any contents; a store or a load
  outside of it is `none`, and so is a loop that does not end.
* The result is the text handed to `write`, in the order of the `write_char` calls. What `write`
  returns is not looked at.
* A number of 64 bits has at most 20 digits, so 21 rounds are enough for either loop.
-/

namespace FtMalloc

open Lib

namespace Show

/-- `buf[i] = x`, or nothing when `i` is not an index of the array. -/
def storeAt (buf : List Byte) (i : Int) (x : Byte) : Option (List Byte) :=
  if 0 ≤ i ∧ i < buf.length then some (buf.set i.toNat x) else none

/-- `buf[i]`, likewise. -/
def loadAt (buf : List Byte) (i : Int) : Option Byte :=
  if 0 ≤ i ∧ i < buf.length then buf[i.toNat]? else none

/-- `write_str(buf + i)` (`show_alloc_mem.c:7-10`): the bytes up to the first NUL. -/
def writeStr (buf : List Byte) : Nat → Int → Option (List Byte)
  | 0, _ => none
  | fuel + 1, i => do
    let c ← loadAt buf i
    if c = 0#8 then pure []
    else do
      let rest ← writeStr buf fuel (i + 1)
      pure (c :: rest)

/-- `while (val > 0) { buf[--i] = digit(val); val = rest(val); }` (`show_alloc_mem.c:20-24`,
`38-41`), with `i` and the buffer after it. -/
def fillDigits (digit : Nat → Byte) (rest : Nat → Nat) : Nat → Nat → Int → List Byte →
    Option (Int × List Byte)
  | 0, _, _, _ => none
  | fuel + 1, val, i, buf =>
    if val > 0 then do
      let buf ← storeAt buf (i - 1) (digit val)
      fillDigits digit rest fuel (rest val) (i - 1) buf
    else
      pure (i, buf)

/-- `digit < 10 ? '0' + digit : 'A' + digit - 10`, of the low four bits
(`show_alloc_mem.c:21-22`). -/
def hexDigit (val : Nat) : Byte :=
  let digit := val &&& 0xF
  if digit < 10 then BitVec.ofNat 8 (48 + digit) else BitVec.ofNat 8 (65 + digit - 10)

/-- `'0' + (val % 10)`, the digit `write_dec` stores (`show_alloc_mem.c:30-43`). -/
def decDigit (val : Nat) : Byte := BitVec.ofNat 8 (48 + val % 10)

/-- `buf[--i] = 'x'; buf[--i] = '0'; write_str(buf + i);` (`show_alloc_mem.c:25-27`): with sixteen
digits the second store is to `buf[-1]`. -/
def writePrefixed (buf : List Byte) (i : Int) : Option (List Byte) := do
  let buf ← storeAt buf (i - 1) (chr 'x')
  let buf ← storeAt buf (i - 1 - 1) (chr '0')
  writeStr buf (buf.length + 1) (i - 1 - 1)

/-- `write_hex` (`show_alloc_mem.c:12-28`), `buf` being the local buffer before. The prefix comes
last, below the digits. -/
def writeHex (buf : Vector Byte 18) (val : BitVec 64) : Option (List Byte) := do
  let buf ← storeAt buf.toList 17 0#8
  if val.toNat = 0 then pure (ascii ['0', 'x', '0'])
  else do
    let r ← fillDigits hexDigit (· >>> 4) 21 val.toNat 17 buf
    writePrefixed r.2 r.1

/-- `write_dec` (`show_alloc_mem.c:30-43`), `buf` being the local buffer before. -/
def writeDec (buf : Vector Byte 21) (val : BitVec 64) : Option (List Byte) := do
  let buf ← storeAt buf.toList 20 0#8
  if val.toNat = 0 then pure [chr '0']
  else do
    let r ← fillDigits decDigit (· / 10) 21 val.toNat 20 buf
    writeStr r.2 (r.2.length + 1) r.1

end Show

end FtMalloc
