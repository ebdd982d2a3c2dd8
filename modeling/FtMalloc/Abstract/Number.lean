import FtMalloc.Lib.Numeral
import FtMalloc.Source.Libft

/-!
# The number a text begins with

What `ft_atoi` is for: white space, an optional sign and digits, as many of them as there are.

* `Denotes p v`: `p` has that form and the value `v`.
* `LongestNumber t p v`: `p` is the longest prefix of `t` that does.
* `reads`, `numberPrefix`: the value and the prefix by cutting the text from the left.

Results:
* `longestNumber_reads`, `longestNumber_value`: the longest prefix exists, and its value is `reads`.
* `reads_digit`, `reads_sign`, `reads_other`: the value by the character after the white space.
-/

namespace FtMalloc

open Lib

namespace Libft

variable {x : Byte} {t u p q : List Byte} {v e : Int}

/-- The value of a digit. -/
def digitValue (x : Byte) : Nat := x.toNat - 48

/-- The value of some digits, read in decimal. -/
def digitsValue (ds : List Byte) : Nat := numeralValue 10 (ds.map digitValue)

theorem digitsValue_nil : digitsValue [] = 0 := rfl

/-- An optional sign, and what it multiplies the value with. -/
inductive Sign : List Byte → Int → Prop
  | none : Sign [] 1
  | plus : Sign [chr '+'] 1
  | minus : Sign [chr '-'] (-1)

/-- White space, an optional sign and digits: the form of a number, with its parts and its value. -/
structure Number (p : List Byte) (v : Int) (ws sg ds : List Byte) (e : Int) : Prop where
  parts : p = ws ++ (sg ++ ds)
  spaces : ∀ x ∈ ws, isSpace x = true
  sign : Sign sg e
  digits : ∀ x ∈ ds, isDigit x = true
  value : v = e * digitsValue ds

/-- `p` has the form of a number, of value `v`. -/
def Denotes (p : List Byte) (v : Int) : Prop := ∃ ws sg ds e, Number p v ws sg ds e

/-- The longest prefix of `t` that has the form of a number, and its value. -/
structure LongestNumber (t p : List Byte) (v : Int) : Prop where
  isPrefix : p <+: t
  denotes : Denotes p v
  longest : ∀ q w, q <+: t → Denotes q w → q.length ≤ p.length

/-- The sign of a text without white space, with what it multiplies with and what follows. -/
def splitSign : List Byte → List Byte × Int × List Byte
  | [] => ([], 1, [])
  | x :: t =>
    if x = chr '+' then ([x], 1, t)
    else if x = chr '-' then ([x], -1, t)
    else ([], 1, x :: t)

/-- The value of the number a text begins with: 0 for a text that begins with none. -/
def reads (t : List Byte) : Int :=
  let r := splitSign (t.dropWhile isSpace)
  r.2.1 * digitsValue (r.2.2.takeWhile isDigit)

/-- The number itself. -/
def numberPrefix (t : List Byte) : List Byte :=
  let r := splitSign (t.dropWhile isSpace)
  t.takeWhile isSpace ++ (r.1 ++ r.2.2.takeWhile isDigit)

theorem splitSign_other (hp : x ≠ chr '+') (hm : x ≠ chr '-') :
    splitSign (x :: t) = ([], 1, x :: t) := by
  rw [splitSign, if_neg hp, if_neg hm]

/-- Any text is cut into an optional sign and the rest, in one way. -/
theorem splitSign_parts (t : List Byte) :
    Sign (splitSign t).1 (splitSign t).2.1 ∧ (splitSign t).1 ++ (splitSign t).2.2 = t := by
  cases t with
  | nil => exact ⟨.none, rfl⟩
  | cons x t =>
    by_cases hp : x = chr '+'
    · subst hp
      exact ⟨.plus, rfl⟩
    by_cases hm : x = chr '-'
    · subst hm
      exact ⟨.minus, rfl⟩
    rw [splitSign_other hp hm]
    exact ⟨.none, rfl⟩

theorem digit_no_sign (hx : isDigit x = true) :
    x ≠ chr '+' ∧ x ≠ chr '-' ∧ isSpace x = false := by
  revert x
  decide +kernel

/-- A sign or a digit ends the white space and is where the number goes on. -/
theorem splitSign_of_sign {sg ds : List Byte} (rest : List Byte) (hs : Sign sg e)
    (hd : ∀ x ∈ ds, isDigit x = true) (hne : sg ++ ds ≠ []) :
    splitSign (sg ++ (ds ++ rest)) = (sg, e, ds ++ rest) ∧
      ∃ y u, sg ++ (ds ++ rest) = y :: u ∧ isSpace y = false := by
  cases hs with
  | plus => exact ⟨rfl, _, _, rfl, rfl⟩
  | minus => exact ⟨rfl, _, _, rfl, rfl⟩
  | none =>
    cases ds with
    | nil => exact absurd rfl hne
    | cons y ds =>
      obtain ⟨hp, hm, hspace⟩ := digit_no_sign (hd y List.mem_cons_self)
      exact ⟨splitSign_other hp hm, _, _, rfl, hspace⟩

theorem numberPrefix_denotes (t : List Byte) : Denotes (numberPrefix t) (reads t) := by
  exact ⟨_, _, _, _, rfl, fun x hx => List.mem_takeWhile_imp hx, (splitSign_parts _).1,
    fun x hx => List.mem_takeWhile_imp hx, rfl⟩

theorem numberPrefix_begins (t : List Byte) : numberPrefix t <+: t := by
  have hdigits := List.takeWhile_prefix isDigit (l := (splitSign (t.dropWhile isSpace)).2.2)
  have hrest := List.prefix_append_right_inj (splitSign (t.dropWhile isSpace)).1 |>.mpr hdigits
  rw [(splitSign_parts _).2] at hrest
  have hall := List.prefix_append_right_inj (t.takeWhile isSpace) |>.mpr hrest
  rw [List.takeWhile_append_dropWhile] at hall
  exact hall

/-- **Every number a text begins with** is at most as long as `numberPrefix`, and has the value
`reads` when it is as long. -/
theorem denotes_le (hp : q <+: t) (hd : Denotes q v) : q.length ≤ (numberPrefix t).length ∧
    (q.length = (numberPrefix t).length → v = reads t) := by
  obtain ⟨rest, rfl⟩ := hp
  obtain ⟨ws, sg, ds, e, rfl, hws, hsg, hds, rfl⟩ := hd
  have hassoc : ws ++ (sg ++ ds) ++ rest = ws ++ (sg ++ (ds ++ rest)) := by
    simp only [List.append_assoc]
  unfold reads numberPrefix
  rw [hassoc, List.takeWhile_append_of_pos hws, List.dropWhile_append_of_pos hws]
  by_cases hne : sg ++ ds = []
  · -- white space only: what comes after it adds to the length
    obtain ⟨rfl, rfl⟩ := List.append_eq_nil_iff.mp hne
    simp only [List.length_append, List.length_nil, List.nil_append]
    refine ⟨by omega, fun hlen => ?_⟩
    have hnil := List.eq_nil_of_length_eq_zero
      (l := (splitSign (rest.dropWhile isSpace)).2.2.takeWhile isDigit) (by omega)
    rw [hnil, digitsValue_nil, Int.natCast_zero, Int.mul_zero, Int.mul_zero]
  · obtain ⟨hsplit, y, u, hcons, hy⟩ := splitSign_of_sign rest hsg hds hne
    have htake : (sg ++ (ds ++ rest)).takeWhile isSpace = [] := by
      rw [hcons, List.takeWhile_cons_of_neg (by simp [hy])]
    have hdrop : (sg ++ (ds ++ rest)).dropWhile isSpace = sg ++ (ds ++ rest) := by
      rw [hcons, List.dropWhile_cons_of_neg (by simp [hy])]
    rw [htake, hdrop, hsplit, List.append_nil]
    simp only
    rw [List.takeWhile_append_of_pos hds]
    refine ⟨by simp only [List.length_append]; omega, fun hlen => ?_⟩
    simp only [List.length_append] at hlen
    rw [List.eq_nil_of_length_eq_zero (l := rest.takeWhile isDigit) (by omega), List.append_nil]

/-- **The longest number a text begins with** has the value `reads`, -/
theorem longestNumber_value (h : LongestNumber t p v) : v = reads t := by
  obtain ⟨hle, heq⟩ := denotes_le h.isPrefix h.denotes
  have hge := h.longest _ _ (numberPrefix_begins t) (numberPrefix_denotes t)
  exact heq (Nat.le_antisymm hle hge)

/-- and there is one. -/
theorem longestNumber_reads (t : List Byte) : LongestNumber t (numberPrefix t) (reads t) where
  isPrefix := numberPrefix_begins t
  denotes := numberPrefix_denotes t
  longest _ _ hq hd := (denotes_le hq hd).1

/-- A number does not begin with `x`, so the value is 0. -/
theorem reads_other (hdrop : t.dropWhile isSpace = x :: u) (hp : x ≠ chr '+') (hm : x ≠ chr '-')
    (hd : isDigit x = false) : reads t = 0 := by
  unfold reads
  rw [hdrop, splitSign_other hp hm]
  simp only
  rw [List.takeWhile_cons_of_neg (by simp [hd])]
  rfl

theorem reads_digit (hdrop : t.dropWhile isSpace = x :: u) (hd : isDigit x = true) :
    reads t = digitsValue ((x :: u).takeWhile isDigit) := by
  obtain ⟨hp, hm, -⟩ := digit_no_sign hd
  unfold reads
  rw [hdrop, splitSign_other hp hm]
  exact Int.one_mul _

theorem reads_sign (hdrop : t.dropWhile isSpace = x :: u) (hx : x = chr '+' ∨ x = chr '-') :
    reads t = digitsValue (u.takeWhile isDigit) * if x = chr '-' then -1 else 1 := by
  unfold reads
  rw [hdrop]
  rcases hx with rfl | rfl
  · exact Int.mul_comm _ _
  · exact Int.mul_comm _ _

end Libft

end FtMalloc
