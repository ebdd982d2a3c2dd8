import FtMalloc.Lib.Exec
import FtMalloc.Source.Layout
import FtMalloc.Source.Strings

/-!
# `ft_printf` (`printf/*.c`)

The functions of `printf`, file by file, under the source's names.

* `written` is what was handed to `write(1, ...)` so far. A `Kernel` says what each call returns,
  from what was written before and the buffer; only `ft_putstr` looks at it.
* `args` is the `va_list`. `va_arg` with nothing left, or with an argument of another type, is
  undefined and stops the run (`Fault.argument`), as does a read of the format outside of the
  string (`Fault.outside`).
* An `int` that leaves its range wraps, as the compiled code does (`wrapInt`).

A loop has fuel for every round it can take; the recursion of `ft_putnbr_base` divides a `long` by
the base and so has at most 64 levels.
-/

namespace FtMalloc

open Lib

namespace Printf

/-! ## The machine -/

/-- An argument after the format, with the type it was passed as. -/
inductive Arg
  | int (i : BitVec 32)
  | unsigned (n : BitVec 32)
  | size (n : BitVec 64)
  | pointer (n : BitVec 64)
  | string (s : Option CString)

/-- Why a run stops: a read outside of the format, an argument that is missing or of another type, a
digit outside of its base, or no end. -/
inductive Fault
  | outside (i : Int)
  | argument
  | digit
  | endless

/-- The `va_list` and the output. -/
structure Console where
  args : List Arg
  written : List Byte

/-- What `write` returns for a buffer, after the bytes written before. The bytes are taken as
written whatever it returns. -/
abbrev Kernel := List Byte → List Byte → Int

/-- `(long)n` of an `unsigned long`. -/
def toLong (n : Nat) : Int := (n : Int).bmod (2 ^ 64)

/-- `LLONG_MIN`. -/
abbrev llongMin : Int := -2 ^ 63

variable (k : Kernel)

/-- `write(1, bs, n)`. -/
def write (bs : List Byte) : Exec Fault Console Int := fun c =>
  .ok (k c.written bs, { c with written := c.written ++ bs })

/-- The next argument, read with `pick`. -/
def vaArg {α : Type} (pick : Arg → Option α) : Exec Fault Console α := fun c =>
  match c.args with
  | [] => .error .argument
  | a :: rest =>
    match pick a with
    | some v => .ok (v, { c with args := rest })
    | none => .error .argument

/-- `va_arg(args, int)`, for `%d`, `%i` and `%c` (`ft_flagcheck.c:37-40`). -/
def Arg.int? : Arg → Option (BitVec 32)
  | .int i => some i
  | _ => none

/-- `va_arg(args, unsigned int)`, for `%u` (`ft_flagcheck.c:43-44`), `%x` and `%X` (`:23`). -/
def Arg.unsigned? : Arg → Option (BitVec 32)
  | .unsigned n => some n
  | _ => none

/-- `va_arg(args, size_t)`, for `%zu` (`ft_flagcheck.c:49-50`). -/
def Arg.size? : Arg → Option (BitVec 64)
  | .size n => some n
  | _ => none

/-- `va_arg(args, unsigned long long)`, for `%p` (`ft_flagcheck.c:47-48`). -/
def Arg.pointer? : Arg → Option (BitVec 64)
  | .pointer n => some n
  | _ => none

/-- `va_arg(args, char *)`, for `%s` (`ft_flagcheck.c:41-42`). -/
def Arg.string? : Arg → Option (Option CString)
  | .string s => some s
  | _ => none

/-! ## The output functions -/

/-- `ft_putchar` (`ft_putchar.c:15-19`): 1, whatever `write` returned. -/
def ftPutchar (c : Byte) : Exec Fault Console Int := do
  let _ ← write k [c]
  pure 1

/-- The loop of `ft_putstr` (`ft_putstr.c:23-28`), which adds up what `write` returns. -/
def putstrFrom : List Byte → Int → Exec Fault Console Int
  | [], i => pure i
  | c :: s, i => do
    let n ← write k [c]
    putstrFrom s (wrapInt (i + n))

/-- `ft_putstr` (`ft_putstr.c:15-30`), with `(null)` for NULL. -/
def ftPutstr : Option CString → Exec Fault Console Int
  | none => do
    let n ← write k (ascii ['(', 'n', 'u', 'l', 'l', ')'])
    pure (wrapInt n)
  | some s => putstrFrom k s.bytes 0

/-- The loop of `ft_numlen_base` (`ft_numlen_base.c:20-24`). -/
def numlenFrom (base : Nat) : Nat → Nat → Nat → Nat
  | 0, _, i => i
  | fuel + 1, n, i => if n ≥ base then numlenFrom base fuel (n / base) (i + 1) else i

/-- `ft_numlen_base` (`ft_numlen_base.c:15-26`), the number of digits of an unsigned number. -/
def ftNumlenBase (n base : Nat) : Nat := numlenFrom base 64 n 1

/-- `write(1, &base[i], 1)` (`ft_puthex.c:25`, `ft_putnbr_base.c:36`). -/
def putDigit (base : List Byte) (i : Int) : Exec Fault Console Unit :=
  match base[i.toNat]? with
  | some c => do
    let _ ← write k [c]
    pure ()
  | none => Exec.stop .digit

/-- `if (n < 0) { i++; n = n * (-1); write(1, "-", 1); }` (`ft_putnbr_base.c:25-30`), with `i` and
`n` after it. -/
def putSign (n : Int) : Exec Fault Console (Int × Int) :=
  if n < 0 then do
    let _ ← write k [chr '-']
    pure (1, -n)
  else
    pure (0, n)

/-- `ft_putnbr_base` (`ft_putnbr_base.c:15-38`), at most `fuel` levels deep. `LLONG_MIN`, which has
no negation, is written with a text of its own, and not the right one. -/
def putnbrFrom (base : List Byte) (nbrBase : Int) : Nat → Int → Exec Fault Console Int
  | 0, _ => Exec.stop .endless
  | fuel + 1, n =>
    if n = llongMin then do
      let _ ← write k (ascii ['-', '9', '2', '2', '3', '3', '7', '2', '0', '3', '6', '8', '5', '4',
        '7', '7', '5', '8', '0', '7'])
      pure 20
    else do
      let r ← putSign k n
      let _ ← (if r.2 ≥ nbrBase then putnbrFrom base nbrBase fuel (r.2.tdiv nbrBase) else pure 0)
      putDigit k base (r.2.tmod nbrBase)
      pure (wrapInt (r.1 + ftNumlenBase r.2.toNat nbrBase.toNat))

/-- `ft_putnbr_base` (`ft_putnbr_base.c:15-38`), with a level for every digit a `long` can have. -/
def ftPutnbrBase (n : Int) (base : List Byte) (nbrBase : Int) : Exec Fault Console Int :=
  putnbrFrom k base nbrBase 65 n

/-- `ft_puthex` (`ft_puthex.c:15-27`): all digits but the last are left to `ft_putnbr_base`, as a
`long`. -/
def ftPuthex (n : Nat) (base : List Byte) (nbrBase : Nat) : Exec Fault Console Int := do
  let _ ← (if n ≥ nbrBase then ftPutnbrBase k (toLong (n / nbrBase)) base nbrBase else pure 0)
  putDigit k base (n % nbrBase : Nat)
  pure (wrapInt (ftNumlenBase n 16))

/-- `"0123456789"`. -/
def decimalBase : List Byte := ascii ['0', '1', '2', '3', '4', '5', '6', '7', '8', '9']

/-- `"0123456789abcdef"`. -/
def lowerBase : List Byte := ascii ['0', '1', '2', '3', '4', '5', '6', '7', '8', '9', 'a', 'b', 'c',
  'd', 'e', 'f']

/-- `"0123456789ABCDEF"`. -/
def upperBase : List Byte := ascii ['0', '1', '2', '3', '4', '5', '6', '7', '8', '9', 'A', 'B', 'C',
  'D', 'E', 'F']

/-- `ft_putpointer` (`ft_putpointer.c:15-33`), with texts of their own for two values. -/
def ftPutpointer (n : Nat) : Exec Fault Console Int :=
  if toLong n = -2 ^ 63 then do
    let _ ← write k (ascii ['0', 'x', '8', '0', '0', '0', '0', '0', '0', '0', '0', '0', '0', '0',
      '0', '0', '0', '0'])
    pure 18
  else if toLong n = 2 ^ 63 - 1 then do
    let _ ← write k (ascii ['0', 'x', '7', 'f', 'f', 'f', 'f', 'f', 'f', 'f', 'f', 'f', 'f', 'f',
      'f', 'f', 'f', 'f'])
    pure 18
  else do
    let _ ← ftPutstr k (some (.ofChars ['0', 'x']))
    let i ← ftPuthex k n lowerBase 16
    pure (wrapInt (i + 2))

/-! ## Conversions -/

/-- `t_format` (`ft_printf.h:24-29`). -/
structure Format where
  zero : Int
  width : Int
  type : Byte

/-- The padding loop of `put_padded_hex` (`ft_flagcheck.c:26-30`). -/
def padFrom (f : Format) (len : Int) : Nat → Int → Exec Fault Console Int
  | 0, pad => pure pad
  | fuel + 1, pad =>
    if f.zero ≠ 0 ∧ wrapInt (len + pad) < f.width then do
      let _ ← ftPutchar k (chr '0')
      padFrom f len fuel (wrapInt (pad + 1))
    else
      pure pad

/-- `put_padded_hex` (`ft_flagcheck.c:15-33`). -/
def putPaddedHex (f : Format) : Exec Fault Console Int := do
  let base := if f.type = chr 'x' then lowerBase else upperBase
  let n ← vaArg Arg.unsigned?
  let len : Int := castInt (ftNumlenBase n.toNat 16)
  let pad ← padFrom k f len f.width.toNat 0
  let _ ← ftPuthex k n.toNat base 16
  pure (wrapInt (len + pad))

/-- `ft_flagcheck` (`ft_flagcheck.c:35-54`): a type it does not know writes nothing and takes no
argument. `%i`, `%d`, `%u` and `%zu` all go through a `long`. -/
def ftFlagcheck (f : Format) : Exec Fault Console Int :=
  if f.type = chr 'd' ∨ f.type = chr 'i' then do
    let i ← vaArg Arg.int?
    ftPutnbrBase k i.toInt decimalBase 10
  else if f.type = chr 'c' then do
    let i ← vaArg Arg.int?
    ftPutchar k (i.setWidth 8)
  else if f.type = chr 's' then do
    let s ← vaArg Arg.string?
    ftPutstr k s
  else if f.type = chr 'u' then do
    let n ← vaArg Arg.unsigned?
    ftPutnbrBase k n.toNat decimalBase 10
  else if f.type = chr 'x' ∨ f.type = chr 'X' then
    putPaddedHex k f
  else if f.type = chr 'p' then do
    let n ← vaArg Arg.pointer?
    ftPutpointer k n.toNat
  else if f.type = chr 'z' then do
    let n ← vaArg Arg.size?
    ftPutnbrBase k (toLong n.toNat) decimalBase 10
  else if f.type = chr '%' then
    ftPutchar k (chr '%')
  else
    pure 0

/-! ## The format -/

/-- `s[i]`. -/
def readAt (s : CString) (i : Int) : Exec Fault Console Byte := fun c =>
  match s.at? i with
  | some b => .ok (b, c)
  | none => .error (.outside i)

/-- A digit the width may contain: `'1'` to `'9'`, not `'0'` (`ft_printf.c:25`). -/
def isWidthDigit (c : Byte) : Bool := 49 ≤ c.toNat ∧ c.toNat ≤ 57

/-- The width loop of `parse_format` (`ft_printf.c:25-29`), with the width and the index after
it. -/
def widthFrom (s : CString) : Nat → Int → Int → Exec Fault Console (Int × Int)
  | 0, _, _ => Exec.stop .endless
  | fuel + 1, i, width => do
    let c ← readAt s i
    if isWidthDigit c then
      widthFrom s fuel (wrapInt (i + 1)) (wrapInt (width * 10 + (c.toNat - 48)))
    else
      pure (width, i)

/-- `parse_format` (`ft_printf.c:15-33`), with the index after it, which is that of the type, or of
the byte after a `z`. -/
def parseFormat (s : CString) (i : Int) : Exec Fault Console (Format × Int) := do
  let i := wrapInt (i + 1)
  let c ← readAt s i
  let zero : Int := if c = chr '0' then 1 else 0
  let i := if c = chr '0' then wrapInt (i + 1) else i
  let r ← widthFrom s (s.length + 1) i 0
  let type ← readAt s r.2
  let i := if type = chr 'z' then wrapInt (r.2 + 1) else r.2
  pure (⟨zero, r.1, type⟩, i)

/-- The loop of `ft_printf` (`ft_printf.c:47-57`), from index `i` with `j` bytes counted. A format
that ends inside a conversion takes `i` past its terminator. -/
def printFrom (s : CString) : Nat → Int → Int → Exec Fault Console Int
  | 0, _, _ => Exec.stop .endless
  | fuel + 1, i, j => do
    let c ← readAt s i
    if c = 0#8 then
      pure j
    else if c = chr '%' then do
      let r ← parseFormat s i
      let n ← ftFlagcheck k r.1
      printFrom s fuel (wrapInt (r.2 + 1)) (wrapInt (j + n))
    else do
      let n ← ftPutchar k c
      printFrom s fuel (wrapInt (i + 1)) (wrapInt (j + n))

/-- `ft_printf` (`ft_printf.c:35-60`). -/
def ftPrintf (s : CString) : Exec Fault Console Int := do
  let c ← readAt s 0
  if c = 0#8 then pure 0 else printFrom k s (s.length + 1) 0 0

end Printf

end FtMalloc
