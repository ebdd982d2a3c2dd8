import Mathlib.Tactic.Ring

/-!
# Arithmetic that stops at an overflow

Machine arithmetic at a width of `w` bits in which every operation whose exact result does not fit
is `none`. A computation written in it that returns some value has no intermediate overflow, and
the value is the exact one.

* `add`, `sub`, `mul`, `div`: unsigned numbers.
* `addInt`, `subInt`, `divInt`, `modInt`: signed numbers; division truncates.
* `toInt`, `toSize`: conversions between the two that keep the value.

Results: each operation has its `_of` lemma, the exact result under its own side condition.
-/

namespace FtMalloc.Lib.Checked

/-- A number that fits `w` unsigned bits, or nothing: an overflow ends the computation. -/
def fit (w n : Nat) : Option Nat := if n < 2 ^ w then some n else none

/-- A number that fits `w` signed bits. -/
def fitInt (w : Nat) (i : Int) : Option Int :=
  if -2 ^ (w - 1) ≤ i ∧ i < 2 ^ (w - 1) then some i else none

/-- `a + b`. -/
def add (w a b : Nat) : Option Nat := fit w (a + b)

/-- `a - b`, which must not go below zero. -/
def sub (a b : Nat) : Option Nat := if b ≤ a then some (a - b) else none

/-- `a * b`. -/
def mul (w a b : Nat) : Option Nat := fit w (a * b)

/-- `a / b`, rounded down; there is no division by zero. -/
def div (a b : Nat) : Option Nat := if b = 0 then none else some (a / b)

/-- `i + j`. -/
def addInt (w : Nat) (i j : Int) : Option Int := fitInt w (i + j)

/-- `i - j`. -/
def subInt (w : Nat) (i j : Int) : Option Int := fitInt w (i - j)

/-- `i / j`, rounded towards zero. -/
def divInt (w : Nat) (i j : Int) : Option Int := if j = 0 then none else fitInt w (i.tdiv j)

/-- `i % j`, with the sign of `i`. -/
def modInt (w : Nat) (i j : Int) : Option Int := if j = 0 then none else fitInt w (i.tmod j)

/-- A signed number from an unsigned one. -/
def toInt (w n : Nat) : Option Int := fitInt w n

/-- An unsigned number from a signed one. -/
def toSize (w : Nat) (i : Int) : Option Nat := if 0 ≤ i then fit w i.toNat else none

variable {w a b n : Nat} {i j : Int}

/-- One operation, then the rest of the computation. -/
theorem step {α β : Type} {x : Option α} {f : α → Option β} {v : α} {o : Option β}
    (h : x = some v) (hf : f v = o) : (x >>= f) = o := by
  rw [h]
  exact hf

theorem fit_of (h : n < 2 ^ w) : fit w n = some n := if_pos h

theorem fitInt_of (h1 : -2 ^ (w - 1) ≤ i) (h2 : i < 2 ^ (w - 1)) : fitInt w i = some i :=
  if_pos ⟨h1, h2⟩

theorem add_of (h : a + b < 2 ^ w) : add w a b = some (a + b) := fit_of h

theorem sub_of (h : b ≤ a) : sub a b = some (a - b) := if_pos h

theorem mul_of (h : a * b < 2 ^ w) : mul w a b = some (a * b) := fit_of h

theorem div_of (h : 0 < b) : div a b = some (a / b) := if_neg (by omega)

/-- Natural numbers as signed ones. -/
theorem fitInt_nat (h : n < 2 ^ (w - 1)) : fitInt w (n : Int) = some (n : Int) := by
  have hpos : (0 : Int) < 2 ^ (w - 1) := Int.pow_pos (by decide)
  have hlt : (n : Int) < 2 ^ (w - 1) := by exact_mod_cast h
  exact fitInt_of (by omega) hlt

theorem addInt_of (h : a + b < 2 ^ (w - 1)) : addInt w a b = some ((a + b : Nat) : Int) :=
  fitInt_nat h

theorem subInt_of (hle : b ≤ a) (h : a < 2 ^ (w - 1)) :
    subInt w a b = some ((a - b : Nat) : Int) := by
  have hsub : (a : Int) - b = ((a - b : Nat) : Int) := by omega
  unfold subInt
  rw [hsub]
  exact fitInt_nat (by omega)

theorem divInt_of (hb : 0 < b) (h : a / b < 2 ^ (w - 1)) :
    divInt w a b = some ((a / b : Nat) : Int) := by
  have hdiv : (a : Int).tdiv b = ((a / b : Nat) : Int) := by
    rw [Int.tdiv_eq_ediv_of_nonneg (Int.natCast_nonneg a)]
    rfl
  unfold divInt
  rw [if_neg (by omega), hdiv]
  exact fitInt_nat h

theorem modInt_of (hb : 0 < b) (h : a % b < 2 ^ (w - 1)) :
    modInt w a b = some ((a % b : Nat) : Int) := by
  have hmod : (a : Int).tmod b = ((a % b : Nat) : Int) := by
    rw [Int.tmod_eq_emod_of_nonneg (Int.natCast_nonneg a)]
    rfl
  unfold modInt
  rw [if_neg (by omega), hmod]
  exact fitInt_nat h

theorem toInt_of (h : n < 2 ^ (w - 1)) : toInt w n = some (n : Int) := fitInt_nat h

theorem toSize_of (h : n < 2 ^ w) : toSize w (n : Int) = some n := by
  unfold toSize
  rw [if_pos (Int.natCast_nonneg n), Int.toNat_natCast]
  exact fit_of h

end FtMalloc.Lib.Checked
