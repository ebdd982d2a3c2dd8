import FtMalloc.Abstract.Number
import FtMalloc.Refine.Libft

/-!
# What `ft_atoi` reads (`libft/ft_atoi.c`)

The function skips one character that is no digit, whatever it is, and returns early for a letter
or an escape only; the test after the skip (`*str < '0' && *str > '9'`) is never true. The digits
are summed up before the sign, so that `-2147483648` leaves the range of `temp` on its way.

Results:
* `ftAtoi_spaces`, `ftAtoi_letter`, `ftAtoi_digit`, `ftAtoi_skip`: what `ft_atoi` returns, by the
  first character that is no white space.
* `atoi_reads`: for which strings that is the value of the longest number they begin with.
* `atoi_misreads`: the empty string, and `"!5"`.
-/

namespace FtMalloc

open Lib

namespace Libft

variable {s : CString} {x : Byte} {t u : List Byte}

/-! ## The run -/

/-- Where the white space ends. -/
theorem spaces_end (s : CString) :
    spacesFrom s (s.length + 1) 0 = some (s.bytes.takeWhile isSpace).length := by
  have hstep : ∀ fuel i x, s.at? (i : Nat) = some x → spacesFrom s (fuel + 1) i =
      if isSpace x = true then spacesFrom s fuel (i + 1) else some i := fun fuel i x hat => by
    rw [spacesFrom, bind_some_of hat]
    rfl
  have hrun := scan_run (fun fuel i x _ => hstep fuel i x) s.bytes (s.length + 1) 0 List.drop_zero
    (Nat.zero_le _) (Nat.lt_succ_self _) (.inr fun fuel i => hstep fuel i 0#8)
  rwa [Nat.zero_add] at hrun

/-- What stands there. -/
theorem drop_spaces (hdrop : s.bytes.dropWhile isSpace = t) :
    s.bytes.drop (s.bytes.takeWhile isSpace).length = t ∧
      (s.bytes.takeWhile isSpace).length ≤ s.length :=
  ⟨(drop_takeWhile isSpace s.bytes).trans hdrop, (List.takeWhile_prefix isSpace).length_le⟩

theorem digit_value (hx : isDigit x = true) : x.toInt - 48 = digitValue x := by
  revert x
  decide +kernel

/-- The digits read so far stand for the accumulator. -/
theorem digitsFrom_run (t : List Byte) : ∀ fuel i (done : List Nat), s.bytes.drop i = t →
    i ≤ s.length → t.length < fuel →
    digitsFrom s fuel i (wrapInt (numeralValue 10 done)) =
      some (wrapInt (numeralValue 10 (done ++ (t.takeWhile isDigit).map digitValue))) := by
  induction t with
  | nil =>
    intro fuel i done hd hle hfuel
    cases fuel with
    | zero => cases hfuel
    | succ fuel =>
      rw [digitsFrom, bind_some_of (CString.at_drop hd hle), List.takeWhile_nil, List.map_nil,
        List.append_nil]
      rfl
  | cons x t ih =>
    intro fuel i done hd hle hfuel
    rw [List.length_cons] at hfuel
    cases fuel with
    | zero => cases hfuel
    | succ fuel =>
      rw [digitsFrom, bind_some_of (CString.at_drop hd hle), List.headD_cons]
      cases hx : isDigit x with
      | false =>
        rw [List.takeWhile_cons_of_neg (by simp [hx]), List.map_nil, List.append_nil]
        rfl
      | true =>
        have hstep : wrapInt (wrapInt (wrapInt (numeralValue 10 done) * 10) + (x.toInt - 48)) =
            wrapInt (numeralValue 10 (done ++ [digitValue x])) := by
          rw [numeralValue_concat, digit_value hx, wrapInt_mul, wrapInt_add]
          rfl
        have hrest := ih fuel (i + 1) (done ++ [digitValue x]) (CString.drop_succ hd)
          (CString.length_cons_drop hd hle) (by omega)
        rw [if_pos rfl, hstep, hrest, List.takeWhile_cons_of_pos hx, List.append_assoc,
          List.singleton_append, List.map_cons]

/-- The white space is over at `x`, and the digits are read from `u` on. -/
theorem ftAtoi_from {j : Nat} (hdrop : s.bytes.dropWhile isSpace = x :: t)
    (hletter : isLetter x = false)
    (hj : (if x.toInt < 48 ∨ x.toInt > 57 then (s.bytes.takeWhile isSpace).length + 1
      else (s.bytes.takeWhile isSpace).length) = j)
    (hd : s.bytes.drop j = u) (hle : j ≤ s.length) :
    ftAtoi s =
      some (wrapInt (digitsValue (u.takeWhile isDigit) * if x = chr '-' then -1 else 1)) := by
  obtain ⟨hplace, hlen⟩ := drop_spaces hdrop
  have hat := CString.at_drop hplace hlen
  have hdigits := digitsFrom_run u (s.length + 1) j [] hd hle (by
    have hrest := CString.length_drop hd hle
    omega)
  rw [ftAtoi, bind_some_of (spaces_end s), bind_some_of hat, List.headD_cons, hletter,
    if_neg nofun]
  simp only [hj]
  have hzero : wrapInt (numeralValue 10 [] : Nat) = 0 := by decide
  rw [hzero, List.nil_append] at hdigits
  rw [bind_some_of (CString.at_drop hd hle), if_neg (by omega), bind_some_of hdigits]
  exact congrArg some (wrapInt_mul _ _)

theorem digit_range (x : Byte) : ¬(x.toInt < 48 ∨ x.toInt > 57) ↔ isDigit x = true := by
  unfold isDigit
  rw [Bool.and_eq_true, decide_eq_true_eq, decide_eq_true_eq]
  omega

theorem digit_no_letter (hx : isDigit x = true) : isLetter x = false := by
  revert x
  decide +kernel

/-- **White space only**: the terminator is skipped, and the byte after it is read. -/
theorem ftAtoi_spaces (hdrop : s.bytes.dropWhile isSpace = []) : ftAtoi s = none := by
  have hadd := length_takeWhile_add isSpace s.bytes
  rw [hdrop, List.length_nil, Nat.add_zero] at hadd
  have hskip := spaces_end s
  rw [hadd] at hskip
  have hpast : s.at? ((s.length + 1 : Nat) : Int) = none := CString.at_outside (.inr (by omega))
  have hend : s.at? (s.bytes.length : Nat) = some 0#8 := CString.at_end
  rw [ftAtoi, bind_some_of hskip, bind_some_of hend]
  refine (if_neg (by decide)).trans ?_
  exact congrArg (· >>= _) hpast

/-- A letter in front. -/
theorem ftAtoi_letter (hdrop : s.bytes.dropWhile isSpace = x :: t) (hx : isLetter x = true) :
    ftAtoi s = some 0 := by
  obtain ⟨hplace, hlen⟩ := drop_spaces hdrop
  have hat := CString.at_drop hplace hlen
  rw [ftAtoi, bind_some_of (spaces_end s), bind_some_of hat, List.headD_cons, if_pos hx]
  rfl

/-- A digit in front. -/
theorem ftAtoi_digit (hdrop : s.bytes.dropWhile isSpace = x :: t) (hx : isDigit x = true) :
    ftAtoi s = some (wrapInt (digitsValue ((x :: t).takeWhile isDigit))) := by
  obtain ⟨hplace, hlen⟩ := drop_spaces hdrop
  have hrun := ftAtoi_from hdrop (digit_no_letter hx) (if_neg ((digit_range x).mpr hx)) hplace
    hlen
  rw [if_neg (digit_no_sign hx).2.1, Int.mul_one] at hrun
  exact hrun

/-- Any other character in front is skipped. -/
theorem ftAtoi_skip (hdrop : s.bytes.dropWhile isSpace = x :: t) (hletter : isLetter x = false)
    (hx : isDigit x = false) : ftAtoi s =
      some (wrapInt (digitsValue (t.takeWhile isDigit) * if x = chr '-' then -1 else 1)) := by
  obtain ⟨hplace, hlen⟩ := drop_spaces hdrop
  have hrange : x.toInt < 48 ∨ x.toInt > 57 := by
    by_contra h
    rw [(digit_range x).mp h] at hx
    cases hx
  exact ftAtoi_from hdrop hletter (if_pos hrange) (CString.drop_succ hplace)
    (CString.length_cons_drop hplace hlen)

/-- Past the white space there is something to skip or to read. -/
theorem ftAtoi_returns (hdrop : s.bytes.dropWhile isSpace = x :: t) : ∃ r, ftAtoi s = some r := by
  cases hletter : isLetter x with
  | true => exact ⟨_, ftAtoi_letter hdrop hletter⟩
  | false =>
    cases hdigit : isDigit x with
    | true => exact ⟨_, ftAtoi_digit hdrop hdigit⟩
    | false => exact ⟨_, ftAtoi_skip hdrop hletter hdigit⟩

/-! ## Which strings are read right -/

/-- `ft_atoi` returns the value of the longest number, whenever that is an `int`. -/
def ReadsNumber (s : CString) : Prop := ∃ r, ftAtoi s = some r ∧
  ∀ p v, LongestNumber s.bytes p v → -2 ^ 31 ≤ v → v < 2 ^ 31 → r = v

/-- After the white space there is a digit, a sign, a letter or an escape, or a character that is
followed by digits of no value. -/
def Handled (t : List Byte) : Prop := ∃ x u, t.dropWhile isSpace = x :: u ∧
  (isDigit x = true ∨ x = chr '+' ∨ x = chr '-' ∨ isLetter x = true ∨
    2 ^ 32 ∣ digitsValue (u.takeWhile isDigit))

theorem readsNumber_iff {r : Int} (hr : ftAtoi s = some r) : ReadsNumber s ↔
    (-2 ^ 31 ≤ reads s.bytes → reads s.bytes < 2 ^ 31 → r = reads s.bytes) := by
  constructor
  · rintro ⟨r', hr', h⟩ h1 h2
    rw [hr] at hr'
    cases hr'
    exact h _ _ (longestNumber_reads s.bytes) h1 h2
  · intro h
    refine ⟨r, hr, fun p v hp h1 h2 => ?_⟩
    obtain rfl := longestNumber_value hp
    exact h h1 h2

theorem letter_no_sign (hx : isLetter x = true) :
    x ≠ chr '+' ∧ x ≠ chr '-' ∧ isDigit x = false := by
  revert x
  decide +kernel

theorem sign_no_letter (hx : x = chr '+' ∨ x = chr '-') :
    isLetter x = false ∧ isDigit x = false := by
  rcases hx with rfl | rfl <;> decide

theorem wrapInt_eq_zero (n : Nat) : wrapInt n = 0 ↔ 2 ^ 32 ∣ n := by
  unfold wrapInt
  rw [← Int.dvd_iff_bmod_eq_zero]
  exact Int.natCast_dvd_natCast

/-- A digit in front is read right, -/
theorem digit_reads (hdrop : s.bytes.dropWhile isSpace = x :: u) (hd : isDigit x = true) :
    ReadsNumber s := by
  rw [readsNumber_iff (ftAtoi_digit hdrop hd), reads_digit hdrop hd]
  exact wrapInt_small

/-- so is a sign, -/
theorem sign_reads (hdrop : s.bytes.dropWhile isSpace = x :: u) (hx : x = chr '+' ∨ x = chr '-') :
    ReadsNumber s := by
  obtain ⟨hletter, hdigit⟩ := sign_no_letter hx
  rw [readsNumber_iff (ftAtoi_skip hdrop hletter hdigit), reads_sign hdrop hx]
  exact wrapInt_small

/-- and a letter, with which no number begins. -/
theorem letter_reads (hdrop : s.bytes.dropWhile isSpace = x :: u) (hx : isLetter x = true) :
    ReadsNumber s := by
  obtain ⟨hp, hm, hd⟩ := letter_no_sign hx
  rw [readsNumber_iff (ftAtoi_letter hdrop hx), reads_other hdrop hp hm hd]
  exact fun _ _ => rfl

/-- Any other character is skipped, and the digits after it are read. -/
theorem other_reads (hdrop : s.bytes.dropWhile isSpace = x :: u) (hd : isDigit x = false)
    (hx : ¬(x = chr '+' ∨ x = chr '-')) (hletter : isLetter x = false) :
    ReadsNumber s ↔ 2 ^ 32 ∣ digitsValue (u.takeWhile isDigit) := by
  obtain ⟨hp, hm⟩ := not_or.mp hx
  rw [readsNumber_iff (ftAtoi_skip hdrop hletter hd), reads_other hdrop hp hm hd, if_neg hm,
    Int.mul_one, wrapInt_eq_zero]
  exact ⟨fun h => h (by decide) (by decide), fun h _ _ => h⟩

theorem readsNumber_handled (s : CString) : ReadsNumber s ↔ Handled s.bytes := by
  cases hdrop : s.bytes.dropWhile isSpace with
  | nil =>
    refine ⟨?_, ?_⟩
    · rintro ⟨r, hr, -⟩
      rw [ftAtoi_spaces hdrop] at hr
      cases hr
    · rintro ⟨x, u, h, -⟩
      rw [hdrop] at h
      cases h
  | cons x u =>
    have hiff : Handled s.bytes ↔ isDigit x = true ∨ (x = chr '+' ∨ x = chr '-') ∨
        isLetter x = true ∨ 2 ^ 32 ∣ digitsValue (u.takeWhile isDigit) := by
      unfold Handled
      simp [hdrop, or_assoc]
    rw [hiff]
    by_cases hd : isDigit x = true
    · exact iff_of_true (digit_reads hdrop hd) (.inl hd)
    by_cases hx : x = chr '+' ∨ x = chr '-'
    · exact iff_of_true (sign_reads hdrop hx) (.inr (.inl hx))
    by_cases hl : isLetter x = true
    · exact iff_of_true (letter_reads hdrop hl) (.inr (.inr (.inl hl)))
    rw [other_reads hdrop (by simpa using hd) hx (by simpa using hl), or_iff_right hd,
      or_iff_right hx, or_iff_right hl]

/-- **`ft_atoi`** reads the longest number of exactly the strings that are `Handled`, and reads past
the terminator of exactly those that are white space only. -/
theorem atoi_reads (s : CString) : (ReadsNumber s ↔ Handled s.bytes) ∧
    (ftAtoi s = none ↔ ∀ x ∈ s.bytes, isSpace x = true) := by
  refine ⟨readsNumber_handled s, ?_⟩
  rw [← List.dropWhile_eq_nil_iff]
  constructor
  · intro h
    cases hdrop : s.bytes.dropWhile isSpace with
    | nil => rfl
    | cons x u =>
      obtain ⟨r, hr⟩ := ftAtoi_returns hdrop
      rw [h] at hr
      cases hr
  · exact ftAtoi_spaces

/-- **The empty string** is read past its terminator, and `"!5"` is 5. -/
theorem atoi_misreads :
    (ftAtoi (.ofChars []) = none ∧ ¬ ReadsNumber (.ofChars [])) ∧
    ftAtoi (.ofChars ['!', '5']) = some 5 ∧ LongestNumber (ascii ['!', '5']) [] 0 ∧
      ¬ ReadsNumber (.ofChars ['!', '5']) := by
  have hempty : ftAtoi (.ofChars []) = none := by decide +kernel
  have hfive : ftAtoi (.ofChars ['!', '5']) = some 5 := by decide +kernel
  have hlongest := longestNumber_reads (ascii ['!', '5'])
  have hnumber : numberPrefix (ascii ['!', '5']) = [] := by decide +kernel
  have hzero : reads (ascii ['!', '5']) = 0 := by decide +kernel
  rw [hnumber, hzero] at hlongest
  refine ⟨⟨hempty, ?_⟩, hfive, hlongest, ?_⟩
  · rintro ⟨r, hr, -⟩
    rw [hempty] at hr
    cases hr
  · rintro ⟨r, hr, h⟩
    rw [hfive] at hr
    cases hr
    exact absurd (h _ _ hlongest (by decide) (by decide)) (by decide)

end Libft

end FtMalloc
