import FtMalloc.Source.Layout
import FtMalloc.Source.Strings

/-!
# `ft_strtrim`, `ft_split`, `ft_atoi` and what they call (`libft/*.c`)

The functions of `libft`, file by file, under the source's names. A string is read with
`CString.at?`; a pointer `s + start` into it is the string with the offset `start`. A buffer from
`malloc` is a list of bytes. `none` is an access outside of a string or a buffer, or a loop that
does not end; `some none` is a `NULL` that was returned.

`char` is signed: `*s` is compared as a number from -128 to 127 with an `(unsigned char)`. An `int`
that leaves its range wraps (`wrapInt`).
-/

namespace FtMalloc

open Lib

namespace Libft

/-- `malloc`, one call: `NULL`, or a buffer of the size with any contents. -/
structure Malloc where
  reply : Nat → Option (List Byte)
  length : ∀ n p, reply n = some p → p.length = n

/-- `p[i] = x`, or nothing when `i` is outside of the buffer. -/
def store (p : List Byte) (i : Nat) (x : Byte) : Option (List Byte) :=
  if i < p.length then some (p.set i x) else none

/-- `(unsigned int)i`. -/
def castUInt (i : Int) : Nat := (i % 2 ^ 32).toNat

/-- `(unsigned char)c`. -/
def castUChar (c : Int) : Int := c % 2 ^ 8

/-- `while (s[i]) i++`, from `s + start` (`ft_strlen.c:21-22`). -/
def strlenFrom (s : CString) (start : Nat) : Nat → Nat → Option Nat
  | 0, _ => none
  | fuel + 1, i => do
    let x ← s.at? (start + i : Nat)
    if x = 0#8 then pure i else strlenFrom s start fuel (i + 1)

/-- `ft_strlen(s + start)` (`ft_strlen.c:16-24`). -/
def ftStrlen (s : CString) (start : Nat) : Option Nat := strlenFrom s start (s.length + 1) 0

/-- The loop of `ft_strchr` (`ft_strchr.c:18-20`), with the offset of the byte it found. The
terminator is compared before it ends the loop. -/
def strchrFrom (s : CString) (c : Int) : Nat → Nat → Option (Option Nat)
  | 0, _ => none
  | fuel + 1, i => do
    let x ← s.at? i
    if x.toInt = castUChar c then pure (some i)
    else if x = 0#8 then pure none
    else strchrFrom s c fuel (i + 1)

/-- `ft_strchr` (`ft_strchr.c:16-22`); `c` is converted to an `unsigned char`, the string's bytes
are not. -/
def ftStrchr (s : CString) (c : Int) : Option (Option Nat) := strchrFrom s c (s.length + 1) 0

/-- The loop of `ft_memset` (`ft_memset.c:24-30`). -/
def memsetFrom (x : Byte) : Nat → Nat → List Byte → Option (List Byte)
  | 0, _, p => pure p
  | len + 1, i, p => do
    let p ← store p i x
    memsetFrom x len (i + 1) p

/-- `ft_bzero`, `ft_memset` with 0 (`ft_bzero.c:17-23`). -/
def ftBzero (p : List Byte) (n : Nat) : Option (List Byte) := memsetFrom 0#8 n 0 p

/-- `ft_calloc` (`ft_calloc.c:22-31`). -/
def ftCalloc (m : Malloc) (count size : Nat) : Option (Option (List Byte)) :=
  match m.reply (wrap (size * count)) with
  | none => pure none
  | some p => do
    let p ← ftBzero p (wrap (size * count))
    pure (some p)

/-- The copying loop of `ft_strlcpy` (`ft_strlcpy.c:27-31`), with the index and the buffer after
it. -/
def copyFrom (s : CString) (start dstsize : Nat) : Nat → Nat → List Byte →
    Option (Nat × List Byte)
  | 0, _, _ => none
  | fuel + 1, i, p =>
    if i < dstsize - 1 then do
      let x ← s.at? (start + i : Nat)
      if x = 0#8 then pure (i, p)
      else do
        let p ← store p i x
        copyFrom s start dstsize fuel (i + 1) p
    else
      pure (i, p)

/-- `ft_strlcpy(p, s + start, dstsize)` (`ft_strlcpy.c:16-37`), with its result and the buffer after
it. -/
def ftStrlcpy (p : List Byte) (s : CString) (start dstsize : Nat) : Option (Nat × List Byte) :=
  if dstsize = 0 then do
    let n ← strlenFrom s start (s.length + 1) 0
    pure (n, p)
  else do
    let r ← copyFrom s start dstsize (s.length + 1) 0 p
    let p ← (if r.1 < dstsize then store r.2 r.1 0#8 else pure r.2)
    let n ← strlenFrom s start (s.length + 1) r.1
    pure (n, p)

/-- `ft_strdup` (`ft_strdup.c:16-30`), whose buffer comes from `ft_calloc`. -/
def ftStrdup (m : Malloc) (s : CString) : Option (Option (List Byte)) := do
  let x ← s.at? 0
  if x = 0#8 then ftCalloc m 1 1
  else do
    let n ← ftStrlen s 0
    let q ← ftCalloc m 1 (wrap (n + 1))
    match q with
    | none => pure none
    | some p => do
      let n ← ftStrlen s 0
      let r ← ftStrlcpy p s 0 (wrap (n + 1))
      pure (some r.2)

/-- `ft_substr` (`ft_substr.c:16-31`). -/
def ftSubstr (m : Malloc) (s : Option CString) (start len : Nat) : Option (Option (List Byte)) :=
  match s with
  | none => pure none
  | some s => do
    let n ← ftStrlen s 0
    let len := if n < start then 0 else len
    let n ← ftStrlen s start
    let len := if n < len then n else len
    match m.reply (wrap (len + 1)) with
    | none => pure none
    | some p => do
      let r ← ftStrlcpy p s start (wrap (len + 1))
      pure (some r.2)

/-- `while (i <= len / 2 && ft_strchr(set, s1[i]) != NULL) i++` (`ft_strtrim.c:28-29`). -/
def leftFrom (s1 set : CString) (len : Int) : Nat → Int → Option Int
  | 0, _ => none
  | fuel + 1, i =>
    if i ≤ len.tdiv 2 then do
      let x ← s1.at? i
      let q ← ftStrchr set x.toInt
      if q ≠ none then leftFrom s1 set len fuel (i + 1) else pure i
    else
      pure i

/-- `while (j >= len / 2 && ft_strchr(set, s1[j]) != NULL) j--` (`ft_strtrim.c:30-31`). -/
def rightFrom (s1 set : CString) (len : Int) : Nat → Int → Option Int
  | 0, _ => none
  | fuel + 1, j =>
    if j ≥ len.tdiv 2 then do
      let x ← s1.at? j
      let q ← ftStrchr set x.toInt
      if q ≠ none then rightFrom s1 set len fuel (j - 1) else pure j
    else
      pure j

/-- `ft_strtrim` (`ft_strtrim.c:17-36`): the two loops meet in the middle of the string, whatever
the set is. -/
def ftStrtrim (m : Malloc) (s1 : Option CString) (set : CString) : Option (Option (List Byte)) :=
  match s1 with
  | none => pure none
  | some s1 => do
    let n ← ftStrlen s1 0
    let len := castInt n
    let i ← leftFrom s1 set len (s1.length + 2) 0
    let j ← rightFrom s1 set len (s1.length + 2) (len - 1)
    if i > j then ftStrdup m (.ofChars [])
    else do
      let len := j - i
      ftSubstr m (some s1) (castUInt i) (castSize (len + 1))

/-! ## `ft_split` -/

/-- An entry of an array of strings: what `malloc` left there, `NULL` or a buffer. -/
inductive Entry
  | unset
  | null
  | buffer (p : List Byte)
  deriving DecidableEq

/-- The pointer a function returned. -/
def Entry.ofPointer : Option (List Byte) → Entry
  | none => .null
  | some p => .buffer p

/-- `array[i] = e`. -/
def setEntry (array : List Entry) (i : Nat) (e : Entry) : Option (List Entry) :=
  if i < array.length then some (array.set i e) else none

/-- `free_memory` (`ft_split.c:18-32`): it does nothing for an array, and the loop under
`array == NULL` would read `NULL[0]`. -/
def freeMemory : Option (List Entry) → Option Unit
  | none => none
  | some _ => pure ()

/-- `while (*s == c) s++`, from `s + i` (`ft_split.c:41-42`). -/
def skipFrom (s : CString) (c : Byte) : Nat → Nat → Option Nat
  | 0, _ => none
  | fuel + 1, i => do
    let x ← s.at? i
    if x = c then skipFrom s c fuel (i + 1) else pure i

/-- `while (*s != c && *s != '\0') s++`, from `s + i` (`ft_split.c:45-46`). -/
def passFrom (s : CString) (c : Byte) : Nat → Nat → Option Nat
  | 0, _ => none
  | fuel + 1, i => do
    let x ← s.at? i
    if x ≠ c ∧ x ≠ 0#8 then passFrom s c fuel (i + 1) else pure i

/-- The outer loop of `ft_countchr` (`ft_split.c:39-47`), from `s + i`, `n` being the count. -/
def countFrom (s : CString) (c : Byte) : Nat → Nat → Int → Option Int
  | 0, _, _ => none
  | fuel + 1, i, n => do
    let x ← s.at? i
    if x = 0#8 then pure n
    else do
      let i ← skipFrom s c (s.length + 1) i
      let x ← s.at? i
      let n := if x ≠ 0#8 then wrapInt (n + 1) else n
      let i ← passFrom s c (s.length + 1) i
      countFrom s c fuel i n

/-- `ft_countchr` (`ft_split.c:34-49`), which counts in an `int`. -/
def ftCountchr (s : CString) (c : Byte) : Option Int := countFrom s c (s.length + 1) 0 0

/-- `while (*s && *s != c && ++len) ++s`, from `s + i` (`ft_split.c:68-69`), with the place and
`len` after it. -/
def wordFrom (s : CString) (c : Byte) : Nat → Nat → Nat → Option (Nat × Nat)
  | 0, _, _ => none
  | fuel + 1, i, len => do
    let x ← s.at? i
    if x ≠ 0#8 ∧ x ≠ c then
      if wrap (len + 1) ≠ 0 then wordFrom s c fuel (i + 1) (wrap (len + 1))
      else pure (i, wrap (len + 1))
    else
      pure (i, len)

/-- The loop of `ft_split` (`ft_split.c:63-75`) from `s + start`, with `i` and the array after it.
Entry `i` is the reply to call `i + 1` of `malloc`, and is stored unchecked. -/
def splitFrom (ms : Nat → Malloc) (s : CString) (c : Byte) : Nat → Nat → Nat → List Entry →
    Option (Nat × List Entry)
  | 0, _, _, _ => none
  | fuel + 1, start, i, ret => do
    let x ← s.at? start
    if x = 0#8 then pure (i, ret)
    else if x ≠ c then do
      let r ← wordFrom s c (s.length + 1) start 0
      let p ← ftSubstr (ms (i + 1)) (some (s.shift (r.1 - r.2))) 0 r.2
      let ret ← setEntry ret i (.ofPointer p)
      freeMemory (some ret)
      splitFrom ms s c fuel r.1 (wrap (i + 1)) ret
    else
      splitFrom ms s c fuel (start + 1) i ret

/-- `ft_split` (`ft_split.c:51-78`), `ms` being the calls of `malloc` in their order: the array
first, then one for each word. -/
def ftSplit (ms : Nat → Malloc) (s : Option CString) (c : Byte) : Option (Option (List Entry)) :=
  match s with
  | none => pure none
  | some s => do
    let n ← ftCountchr s c
    match (ms 0).reply (wrap (8 * castSize (wrapInt (n + 1)))) with
    | none => pure none
    | some p => do
      let r ← splitFrom ms s c (s.length + 1) 0 0 (List.replicate (p.length / 8) .unset)
      let ret ← setEntry r.2 r.1 .null
      pure (some ret)

/-! ## `ft_atoi` -/

/-- `*str == ' ' || *str == '\t' || ...` (`ft_atoi.c:23-24`). -/
def isSpace (x : Byte) : Bool :=
  x = chr ' ' || x = chr '\t' || x = chr '\n' || x = 12#8 || x = 11#8 || x = chr '\r'

/-- `*str >= '0' && *str <= '9'` (`ft_atoi.c:31-35`), `char` being signed. -/
def isDigit (x : Byte) : Bool := x.toInt ≥ 48 && x.toInt ≤ 57

/-- `(*str >= 'A' && *str <= 'Z') || (*str >= 'a' && *str <= 'z') || *str == '\e'`. -/
def isLetter (x : Byte) : Bool :=
  x.toInt ≥ 65 && x.toInt ≤ 90 || x.toInt ≥ 97 && x.toInt ≤ 122 || x = 27#8

/-- The loop over the white space, from `str + i` (`ft_atoi.c:23-25`). -/
def spacesFrom (s : CString) : Nat → Nat → Option Nat
  | 0, _ => none
  | fuel + 1, i => do
    let x ← s.at? i
    if isSpace x then spacesFrom s fuel (i + 1) else pure i

/-- The loop over the digits, from `str + i` (`ft_atoi.c:35-39`); `temp` is an `int` that wraps. -/
def digitsFrom (s : CString) : Nat → Nat → Int → Option Int
  | 0, _, _ => none
  | fuel + 1, i, temp => do
    let x ← s.at? i
    if isDigit x then digitsFrom s fuel (i + 1) (wrapInt (wrapInt (temp * 10) + (x.toInt - 48)))
    else pure temp

/-- `ft_atoi` (`ft_atoi.c:16-41`): one byte that is no digit is skipped, sign or not, and also the
terminator. The test of `ft_atoi.c:33` is never true. -/
def ftAtoi (s : CString) : Option Int := do
  let i ← spacesFrom s (s.length + 1) 0
  let x ← s.at? i
  if isLetter x then pure 0
  else do
    let sign : Int := if x = chr '-' then -1 else 1
    let i := if x.toInt < 48 ∨ x.toInt > 57 then i + 1 else i
    let x ← s.at? i
    if (x.toInt < 48 ∧ x.toInt > 57) ∧ x ≠ chr '-' ∧ x ≠ chr '+' then pure 0
    else do
      let temp ← digitsFrom s (s.length + 1) i 0
      pure (wrapInt (temp * sign))

end Libft

end FtMalloc
