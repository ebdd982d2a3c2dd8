import FtMalloc.Lib.Text
import Mathlib.Data.Nat.Digits.Lemmas

/-!
# Numerals

`numeral b n` is the canonical numeral of `n` in base `b`, as digits, the most significant first:
`Nat.digits` the other way round, with one digit for zero. `numeralText` writes it.

Results:
* `numeral_small`, `numeral_step`: the last digit and the numeral of the rest, which is how a
  printer that divides by the base goes.
* `numeral_value`, `numeral_inj`: a numeral denotes its number, and no other.
* `numeral_head`: only zero has a leading zero.
* `numeralText_inj`: different numbers have different texts.
-/

namespace FtMalloc.Lib

/-- The digits of `n` in base `b`, the most significant first, with one zero for zero and none in
front otherwise. -/
def numeral (b n : Nat) : List Nat := if n = 0 then [0] else (Nat.digits b n).reverse

/-- The value of a numeral, the most significant digit first. -/
def numeralValue (b : Nat) (ds : List Nat) : Nat := Nat.ofDigits b ds.reverse

/-- The text of a numeral in a base up to 16. -/
def numeralText (upper : Bool) (b n : Nat) : List Byte := (numeral b n).map (hexChar upper)

variable {b n m : Nat} {ds : List Nat} {u : Bool}

theorem numeral_small (h : n < b) : numeral b n = [n] := by
  unfold numeral
  split
  · rename_i h0
    rw [h0]
  · rename_i h0
    rw [Nat.digits_of_lt b n h0 h]
    rfl

/-- **The last digit** and what comes before it. -/
theorem numeral_step (hb : 1 < b) (h : b ≤ n) :
    numeral b n = numeral b (n / b) ++ [n % b] := by
  have hn : 0 < n := by omega
  have hq : 0 < n / b := Nat.div_pos h (by omega)
  unfold numeral
  rw [if_neg (by omega), if_neg (by omega), Nat.digits_def' hb hn, List.reverse_cons]

/-- **A numeral denotes its number.** -/
theorem numeral_value (b n : Nat) : numeralValue b (numeral b n) = n := by
  unfold numeralValue numeral
  split
  · rename_i h0
    simp [h0]
  · rw [List.reverse_reverse, Nat.ofDigits_digits]

theorem numeral_inj (h : numeral b n = numeral b m) : n = m := by
  rw [← numeral_value b n, h, numeral_value]

theorem numeral_lt (hb : 1 < b) {d : Nat} (hd : d ∈ numeral b n) : d < b := by
  unfold numeral at hd
  split at hd
  · rw [List.mem_singleton] at hd
    omega
  · exact Nat.digits_lt_base hb (List.mem_reverse.mp hd)

theorem numeral_length_le {j : Nat} (hb : 1 < b) (hj : 0 < j) (h : n < b ^ j) :
    (numeral b n).length ≤ j := by
  unfold numeral
  split
  · exact hj
  · rw [List.length_reverse]
    exact (Nat.digits_length_le_iff hb n).mpr h

theorem numeralValue_concat (b : Nat) (ds : List Nat) (d : Nat) :
    numeralValue b (ds ++ [d]) = numeralValue b ds * b + d := by
  unfold numeralValue
  rw [List.reverse_append, List.reverse_singleton, List.singleton_append, Nat.ofDigits_cons]
  exact (Nat.add_comm d _).trans (congrArg (· + d) (Nat.mul_comm b _))

/-- Zeros in front change nothing. -/
theorem numeralValue_zeros (b j : Nat) (ds : List Nat) :
    numeralValue b (List.replicate j 0 ++ ds) = numeralValue b ds := by
  unfold numeralValue
  rw [List.reverse_append, List.reverse_replicate, Nat.ofDigits_append_replicate_zero]

/-- Only zero starts with a zero, so a numeral is canonical. -/
theorem numeral_head (h : (numeral b n).head? = some 0) : n = 0 := by
  by_contra h0
  unfold numeral at h
  rw [if_neg h0, List.head?_reverse, List.getLast?_eq_getLast_of_ne_nil
    (Nat.digits_ne_nil_iff_ne_zero.mpr h0)] at h
  exact Nat.getLast_digit_ne_zero b h0 (Option.some.inj h)

/-! ## The text -/

theorem hexDigits_map (hd : ∀ d ∈ ds, d < 16) : hexDigits (ds.map (hexChar u)) = ds := by
  induction ds with
  | nil => rfl
  | cons d ds ih =>
    have h1 := hexValue_hexChar (u := u) (hd d List.mem_cons_self)
    have h2 := ih fun x hx => hd x (List.mem_cons_of_mem _ hx)
    unfold hexDigits at h2 ⊢
    rw [List.map_cons, List.filterMap_cons_some h1, h2]

theorem hexDigits_numeralText (hb : 1 < b) (h16 : b ≤ 16) :
    hexDigits (numeralText u b n) = numeral b n :=
  hexDigits_map fun _ hd => (numeral_lt hb hd).trans_le h16

/-- **Different numbers have different texts.** -/
theorem numeralText_inj (hb : 1 < b) (h16 : b ≤ 16) (h : numeralText u b n = numeralText u b m) :
    n = m := by
  refine numeral_inj (b := b) ?_
  rw [← hexDigits_numeralText (u := u) hb h16, h, hexDigits_numeralText hb h16]

theorem length_numeralText (u : Bool) (b n : Nat) :
    (numeralText u b n).length = (numeral b n).length := List.length_map _

end FtMalloc.Lib
