import FtMalloc.Refine.Libft

/-!
# What `ft_strtrim` trims (`libft/ft_strtrim.c`)

The loop from the left stops after `len / 2` and the one from the right before it
(`ft_strtrim.c:28-31`): a prefix or a suffix that reaches past the middle is cut in two.

Results:
* `strtrim_halves`: the result is the trimmed string exactly if every character is in the set, or
  the prefix has at most `len / 2 + 1` characters and the suffix at most `len - len / 2`.
* `strtrim_long_prefix`: `"aaaab"` trimmed of `a` is `"ab"`.
-/

namespace FtMalloc

open Lib

namespace Libft

variable {s set : CString} {m : Malloc} {p t u : List Byte}

/-- The string without the longest prefix and the longest suffix made of characters of the set. -/
def trimmed (s set : CString) : List Byte :=
  (s.bytes.dropWhile (inSet set)).rdropWhile (inSet set)

/-- The string at the start of a buffer. -/
def HoldsString (p t : List Byte) : Prop := ∃ rest, p = t ++ 0#8 :: rest

/-- `ft_strtrim` returns the trimmed string. -/
def Trims (m : Malloc) (s set : CString) : Prop :=
  ∃ p, ftStrtrim m (some s) set = some (some p) ∧ HoldsString p (trimmed s set)

/-- What the loop from the left cuts off, -/
def cutLeft (s set : CString) : Nat := min (leading s set) (s.length / 2 + 1)

/-- and the loop from the right. -/
def cutRight (s set : CString) : Nat := min (trailing s set) (s.length - s.length / 2)

/-- `malloc` gives the call its buffer, which is for what lies between the two loops and the NUL
(`ft_strtrim.c:32-35`). -/
def Allocated (m : Malloc) (s set : CString) : Prop :=
  m.reply (s.length - cutLeft s set - cutRight s set + 1) ≠ none

/-! ## The trimmed string -/

/-- The parts of a string that is not all in the set. -/
structure Parts (s set : CString) (u v : List Byte) : Prop where
  parts : s.bytes = u ++ (trimmed s set ++ v)
  leading : leading s set = u.length
  trailing : trailing s set = v.length

theorem trimmed_nil (h : trimmed s set = []) : ∀ x ∈ s.bytes, x ∈ set.bytes := by
  have hall := List.rdropWhile_eq_nil_iff.mp h
  have hnil : s.bytes.dropWhile (inSet set) = [] := by
    by_contra hne
    have hhead := List.head?_dropWhile_not (inSet set) s.bytes
    rw [List.head?_eq_some_head hne] at hhead
    exact absurd (hall _ (List.head_mem hne)) (by simpa using hhead)
  intro x hx
  have hin := List.dropWhile_eq_nil_iff.mp hnil x hx
  simpa [inSet] using hin

theorem trimmed_parts (h : trimmed s set ≠ []) : ∃ u v, Parts s set u v := by
  have htrailing := rtakeWhile_append (u := s.bytes.takeWhile (inSet set)) h
  rw [List.takeWhile_append_dropWhile] at htrailing
  exact ⟨s.bytes.takeWhile (inSet set), (s.bytes.dropWhile (inSet set)).rtakeWhile (inSet set),
    { parts := by
        rw [trimmed, List.rdropWhile_append_rtakeWhile, List.takeWhile_append_dropWhile]
      leading := rfl
      trailing := by rw [trailing, htrailing] }⟩

/-! ## The buffer -/

/-- A buffer holds one string. -/
theorem holdsString_iff (hu : 0#8 ∉ u) (ht : 0#8 ∉ t) : HoldsString (u ++ [0#8]) t ↔ u = t := by
  constructor
  · rintro ⟨rest, h⟩
    rw [← before_append hu [], h, before_append ht]
  · rintro rfl
    exact ⟨[], rfl⟩

theorem trimmed_noNul : 0#8 ∉ trimmed s set := fun h =>
  s.noNul (List.dropWhile_subset _ ((List.rdropWhile_prefix _ _).subset h))

/-- The part of the string that `ft_strtrim` returns. -/
def kept (s set : CString) : List Byte :=
  (s.bytes.drop (cutLeft s set)).take (s.length - cutLeft s set - cutRight s set)

theorem kept_noNul : 0#8 ∉ kept s set := fun h =>
  s.noNul (List.mem_of_mem_drop (List.mem_of_mem_take h))

/-- One allocation, and the part that is kept in the buffer it gives. -/
theorem strtrim_reply (m : Malloc) (hascii : ∀ x ∈ set.bytes, x.toNat < 128)
    (hlen : s.length < 2 ^ 31) : ftStrtrim m (some s) set =
      some ((m.reply (s.length - cutLeft s set - cutRight s set + 1)).map fun _ =>
        kept s set ++ [0#8]) := by
  rw [ftStrtrim_run hascii hlen (a := cutLeft s set) (e := cutRight s set) rfl rfl]
  split
  · rename_i hle
    have hzero : s.length - cutLeft s set - cutRight s set = 0 := by omega
    rw [ftStrdup_empty, kept, hzero, List.take_zero]
    rfl
  · rename_i hle
    rw [ftSubstr_run (by omega) (by omega)]
    rfl

theorem strtrim_kept (hascii : ∀ x ∈ set.bytes, x.toNat < 128) (hlen : s.length < 2 ^ 31)
    (hm : Allocated m s set) : ftStrtrim m (some s) set = some (some (kept s set ++ [0#8])) := by
  obtain ⟨p, hp⟩ := Option.ne_none_iff_exists'.mp hm
  rw [strtrim_reply m hascii hlen, hp]
  rfl

theorem kept_all (h : ∀ x ∈ s.bytes, x ∈ set.bytes) : kept s set = [] := by
  have hin : ∀ x ∈ s.bytes, inSet set x = true := fun x hx => by simpa [inSet] using h x hx
  have hleading : leading s set = s.length :=
    congrArg List.length (List.takeWhile_eq_self_iff.mpr hin)
  have htrailing : trailing s set = s.length :=
    congrArg List.length (List.rtakeWhile_eq_self_iff.mpr hin)
  have hcut : s.length - cutLeft s set - cutRight s set = 0 := by
    unfold cutLeft cutRight
    omega
  rw [kept, hcut, List.take_zero]

theorem trimmed_all (h : ∀ x ∈ s.bytes, x ∈ set.bytes) : trimmed s set = [] := by
  have hin : ∀ x ∈ s.bytes, inSet set x = true := fun x hx => by simpa [inSet] using h x hx
  rw [trimmed, List.dropWhile_eq_nil_iff.mpr hin, List.rdropWhile_nil]

/-- What is kept is the trimmed string when the middle stops neither loop. -/
theorem kept_eq_iff : kept s set = trimmed s set ↔ (∀ x ∈ s.bytes, x ∈ set.bytes) ∨
    leading s set ≤ s.length / 2 + 1 ∧ trailing s set ≤ s.length - s.length / 2 := by
  by_cases hall : ∀ x ∈ s.bytes, x ∈ set.bytes
  · rw [kept_all hall, trimmed_all hall]
    exact ⟨fun _ => .inl hall, fun _ => rfl⟩
  · have hne : trimmed s set ≠ [] := fun h => hall (trimmed_nil h)
    obtain ⟨u, v, hparts, hleading, htrailing⟩ := trimmed_parts hne
    have hlen : s.length = leading s set + ((trimmed s set).length + trailing s set) := by
      have happ := congrArg List.length hparts
      rw [List.length_append, List.length_append] at happ
      rw [hleading, htrailing]
      exact happ
    have hpos := List.length_pos_iff.mpr hne
    have hcut : leading s set ≤ s.length / 2 + 1 ∧ trailing s set ≤ s.length - s.length / 2 ↔
        cutLeft s set = leading s set ∧ cutRight s set = trailing s set := by
      unfold cutLeft cutRight
      omega
    rw [or_iff_right hall, hcut]
    constructor
    · intro h
      have hkept := congrArg List.length h
      have hleft : cutLeft s set ≤ leading s set := Nat.min_le_left _ _
      have hright : cutRight s set ≤ trailing s set := Nat.min_le_left _ _
      rw [kept, List.length_take, List.length_drop, ← CString.length] at hkept
      omega
    · rintro ⟨hl, hr⟩
      rw [kept, hl, hr, show s.length - leading s set - trailing s set = (trimmed s set).length by
        omega, hleading, hparts, List.drop_left, List.take_left]

/-- **`ft_strtrim`** trims exactly the strings whose prefix and suffix are short enough. -/
theorem strtrim_halves (m : Malloc) (s set : CString) (hascii : ∀ x ∈ set.bytes, x.toNat < 128)
    (hlen : s.length < 2 ^ 31) (hm : Allocated m s set) :
    Trims m s set ↔ (∀ x ∈ s.bytes, x ∈ set.bytes) ∨
      leading s set ≤ s.length / 2 + 1 ∧ trailing s set ≤ s.length - s.length / 2 := by
  rw [← kept_eq_iff, ← holdsString_iff kept_noNul trimmed_noNul, Trims,
    strtrim_kept hascii hlen hm]
  constructor
  · rintro ⟨p, hp, h⟩
    cases hp
    exact h
  · exact fun h => ⟨_, rfl, h⟩

theorem strtrim_halves_sample :
    Trims succeeding (.ofChars [' ', 'a', ' ', 'b', ' ']) (.ofChars [' ']) :=
  (strtrim_halves succeeding (.ofChars [' ', 'a', ' ', 'b', ' ']) (.ofChars [' ']) (by decide)
    (by decide) nofun).mpr (.inr (by decide +kernel))

/-- **A prefix past the middle**: three of the four characters are trimmed. -/
theorem strtrim_long_prefix :
    let s := CString.ofChars ['a', 'a', 'a', 'a', 'b']
    let set := CString.ofChars ['a']
    ftStrtrim succeeding (some s) set = some (some [chr 'a', chr 'b', 0#8]) ∧
      trimmed s set = [chr 'b'] ∧ ¬ Trims succeeding s set := by
  have hrun : ftStrtrim succeeding (some (.ofChars ['a', 'a', 'a', 'a', 'b'])) (.ofChars ['a']) =
      some (some ([chr 'a', chr 'b'] ++ [0#8])) := by decide +kernel
  have htrim : trimmed (.ofChars ['a', 'a', 'a', 'a', 'b']) (.ofChars ['a']) = [chr 'b'] := by
    decide +kernel
  refine ⟨hrun, htrim, ?_⟩
  rintro ⟨p, hp, h⟩
  rw [hrun] at hp
  cases hp
  rw [htrim, holdsString_iff (by decide) (by decide)] at h
  exact absurd h (by decide)

end Libft

end FtMalloc
