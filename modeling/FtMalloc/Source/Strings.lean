import FtMalloc.Lib.Text

/-!
# C strings

A `CString` is the bytes before the terminating NUL. `at` reads `s[i]`: a byte, the terminator at
the length, and nothing outside of the string.
-/

namespace FtMalloc

open Lib

/-- A NUL-terminated string: the bytes before its terminator, none of which is NUL. -/
structure CString where
  bytes : List Byte
  noNul : 0#8 ∉ bytes

namespace CString

/-- `strlen(s)`. -/
def length (s : CString) : Nat := s.bytes.length

/-- `s[i]`, which may be the terminator but nothing after it. -/
def at? (s : CString) (i : Int) : Option Byte :=
  if 0 ≤ i ∧ i < s.length then s.bytes[i.toNat]?
  else if i = s.length then some 0#8
  else none

/-- `s + n`, a pointer into the string. -/
def shift (s : CString) (n : Nat) : CString where
  bytes := s.bytes.drop n
  noNul h := s.noNul (List.mem_of_mem_drop h)

/-- The string of some characters. -/
def ofChars (cs : List Char) (h : 0#8 ∉ ascii cs := by decide) : CString := ⟨ascii cs, h⟩

variable {s : CString} {n : Nat} {c : Byte} {t : List Byte}

theorem at_cons (h : s.bytes.drop n = c :: t) : s.at? n = some c := by
  have hlt : n < s.bytes.length := by
    by_contra hge
    rw [List.drop_eq_nil_of_le (by omega)] at h
    cases h
  unfold at? length
  rw [if_pos ⟨Int.natCast_nonneg n, by exact_mod_cast hlt⟩, Int.toNat_natCast]
  rw [List.drop_eq_getElem_cons hlt] at h
  rw [List.getElem?_eq_getElem hlt, (List.cons.inj h).1]

theorem at_end : s.at? s.length = some 0#8 := by
  unfold at?
  rw [if_neg (by omega), if_pos rfl]

theorem at_outside {i : Int} (h : i < 0 ∨ s.length < i) : s.at? i = none := by
  unfold at?
  rw [if_neg (by omega), if_neg (by omega)]

/-- The bytes of a string are not NUL. -/
theorem ne_nul (h : s.bytes.drop n = c :: t) : c ≠ 0#8 := by
  rintro rfl
  exact s.noNul (List.mem_of_mem_drop (h ▸ List.mem_cons_self))

theorem length_drop (h : s.bytes.drop n = t) (hn : n ≤ s.length) : s.length = n + t.length := by
  rw [← h, List.length_drop]
  unfold length at *
  omega

/-- The byte at an offset, from what is left there. -/
theorem at_drop (h : s.bytes.drop n = t) (hn : n ≤ s.length) : s.at? n = some (t.headD 0#8) := by
  cases t with
  | nil =>
    have hlen := length_drop h hn
    rw [List.length_nil, Nat.add_zero] at hlen
    rw [← hlen]
    exact at_end
  | cons x t => exact at_cons h

theorem drop_succ (h : s.bytes.drop n = c :: t) : s.bytes.drop (n + 1) = t := by
  rw [← List.drop_drop, h]
  rfl

theorem length_cons_drop (h : s.bytes.drop n = c :: t) (hn : n ≤ s.length) :
    n + 1 ≤ s.length := by
  have hlen := length_drop h hn
  rw [List.length_cons] at hlen
  omega

end CString

end FtMalloc
