import FtMalloc.Lib.ByteMem
import Mathlib.Data.List.DropRight
import Mathlib.Data.List.TakeWhile

/-!
# Text as bytes

Output is a list of bytes. `lines` cuts it at the line ends, `before` and `after` at a character;
`runs` are the parts between delimiters.
`hexChar` writes a digit below 16, in upper or lower case, and `hexValue` reads one of either case;
`hexBytes` reads bytes from pairs of digits.

Results:
* `lines_cons`: the first line of a text.
* `before_append`, `after_append`: cutting at the first occurrence.
* `takeWhile_iff`, `rtakeWhile_append`: the longest prefix and the longest suffix of a predicate.
* `runs_cons`, `runs_delimiter`: the runs of a text from its first byte on.
* `hexValue_hexChar`: a digit that was written is read back; `pairs_byte`: so is a byte.
-/

namespace FtMalloc.Lib

/-- The byte of an ASCII character. -/
def chr (c : Char) : Byte := BitVec.ofNat 8 c.toNat

/-- The bytes of ASCII text. -/
def ascii (cs : List Char) : List Byte := cs.map chr

/-- The lines of a text. -/
def lines : List Byte → List (List Byte)
  | [] => []
  | c :: cs =>
    if c = chr '\n' then [] :: lines cs
    else match lines cs with
      | [] => [[c]]
      | l :: ls => (c :: l) :: ls

/-- What comes before the first `c`. -/
def before (c : Byte) (t : List Byte) : List Byte := t.takeWhile (· ≠ c)

/-- What comes after the first `c`. -/
def after (c : Byte) (t : List Byte) : List Byte := (t.dropWhile (· ≠ c)).drop 1

/-- The maximal runs of elements other than `c`, in order: none is empty. -/
def runs {α : Type} [DecidableEq α] (c : α) (t : List α) : List (List α) :=
  (t.splitOn c).filter (· ≠ [])

/-- A hexadecimal digit. -/
def hexChar (upper : Bool) (d : Nat) : Byte :=
  if d < 10 then BitVec.ofNat 8 (48 + d)
  else if upper then BitVec.ofNat 8 (65 + d - 10)
  else BitVec.ofNat 8 (97 + d - 10)

/-- The value of a hexadecimal digit of either case, and of no other character. -/
def hexValue (c : Byte) : Option Nat :=
  if 48 ≤ c.toNat ∧ c.toNat < 58 then some (c.toNat - 48)
  else if 65 ≤ c.toNat ∧ c.toNat < 71 then some (c.toNat - 65 + 10)
  else if 97 ≤ c.toNat ∧ c.toNat < 103 then some (c.toNat - 97 + 10)
  else none

/-- The digits of a text, whatever stands between them. -/
def hexDigits (t : List Byte) : List Nat := t.filterMap hexValue

/-- The bytes written as pairs of digits. -/
def pairs : List Nat → List Byte
  | hi :: lo :: ds => BitVec.ofNat 8 (16 * hi + lo) :: pairs ds
  | _ => []

/-- The bytes of a text of pairs of digits. -/
def hexBytes (t : List Byte) : List Byte := pairs (hexDigits t)

variable {c : Byte} {l s t : List Byte} {d : Nat}

/-! ## Cutting -/

/-- **The first line.** -/
theorem lines_cons (h : chr '\n' ∉ l) (t : List Byte) :
    lines (l ++ chr '\n' :: t) = l :: lines t := by
  induction l with
  | nil => simp [lines]
  | cons c l ih =>
    have hc : c ≠ chr '\n' := fun e => h (e ▸ List.mem_cons_self)
    rw [List.cons_append, lines, if_neg hc, ih fun hm => h (List.mem_cons_of_mem _ hm)]

theorem before_append (h : c ∉ l) (t : List Byte) : before c (l ++ c :: t) = l := by
  unfold before
  rw [List.takeWhile_append_of_pos fun x hx => by simpa using ne_of_mem_of_not_mem hx h]
  simp

theorem after_append (h : c ∉ l) (t : List Byte) : after c (l ++ c :: t) = t := by
  unfold after
  rw [List.dropWhile_append_of_pos fun x hx => by simpa using ne_of_mem_of_not_mem hx h]
  simp

/-! ## Prefixes and suffixes -/

/-- Up to the end of the longest prefix, an element satisfies `p` if it is in the prefix. -/
theorem takeWhile_iff {α : Type} {p : α → Bool} {l : List α} : ∀ {i : Nat} (hi : i < l.length),
    i ≤ (l.takeWhile p).length → (p l[i] = true ↔ i < (l.takeWhile p).length) := by
  induction l with
  | nil => intro i hi; cases hi
  | cons x l ih =>
    intro i hi hle
    cases hx : p x with
    | false =>
      rw [List.takeWhile_cons_of_neg (by simp [hx])] at hle ⊢
      cases i with
      | zero => simp [hx]
      | succ i => cases hle
    | true =>
      rw [List.takeWhile_cons_of_pos hx] at hle ⊢
      cases i with
      | zero => simp [hx]
      | succ i =>
        have hrest := ih (Nat.lt_of_succ_lt_succ hi) (Nat.le_of_succ_le_succ hle)
        simpa using hrest

theorem drop_takeWhile {α : Type} (p : α → Bool) (l : List α) :
    l.drop (l.takeWhile p).length = l.dropWhile p := by
  calc l.drop (l.takeWhile p).length
      = (l.takeWhile p ++ l.dropWhile p).drop (l.takeWhile p).length := by
        rw [List.takeWhile_append_dropWhile]
    _ = l.dropWhile p := List.drop_left

theorem take_takeWhile {α : Type} (p : α → Bool) (l : List α) :
    l.take (l.takeWhile p).length = l.takeWhile p :=
  (List.prefix_iff_eq_take.mp (List.takeWhile_prefix p)).symm

theorem length_takeWhile_add {α : Type} (p : α → Bool) (l : List α) :
    (l.takeWhile p).length + (l.dropWhile p).length = l.length := by
  rw [← List.length_append, List.takeWhile_append_dropWhile]

/-- What is before an element that does not satisfy `q` does not matter to the longest suffix. -/
theorem rtakeWhile_append {α : Type} {q : α → Bool} {u t : List α} (h : t.rdropWhile q ≠ []) :
    (u ++ t).rtakeWhile q = t.rtakeWhile q := by
  have hlen : (t.reverse.takeWhile q).length ≠ t.reverse.length := by
    intro heq
    have happ := congrArg List.length (t.reverse.takeWhile_append_dropWhile (p := q))
    rw [List.length_append] at happ
    refine h ?_
    rw [List.rdropWhile, List.reverse_eq_nil_iff]
    exact List.eq_nil_of_length_eq_zero (by omega)
  rw [List.rtakeWhile, List.reverse_append, List.takeWhile_append, if_neg hlen, List.rtakeWhile]

/-! ## Runs between delimiters -/

section Runs

variable {α : Type} [DecidableEq α] {c x : α} {t u : List α}

@[simp] theorem runs_nil : runs c [] = [] := by
  simp [runs]

/-- A delimiter in front of a text is in no run. -/
@[simp] theorem runs_delimiter : runs c (c :: t) = runs c t := by
  unfold runs
  rw [List.splitOn_cons_eq_if_modifyHead, if_pos (beq_self_eq_true c)]
  simp

/-- **The first run** goes up to the first delimiter, or to the end. -/
theorem runs_append (hne : u ≠ []) (hu : c ∉ u) (ht : ∀ x ∈ t.head?, x = c) :
    runs c (u ++ t) = u :: runs c t := by
  cases t with
  | nil =>
    unfold runs
    rw [List.append_nil, List.splitOn_eq_singleton hu]
    simp [hne]
  | cons x t =>
    obtain rfl : x = c := ht x rfl
    rw [runs_delimiter]
    unfold runs
    rw [List.splitOn_append_cons_self, List.splitOn_eq_singleton hu, List.singleton_append,
      List.filter_cons_of_pos (by simpa using hne)]

theorem runs_dropWhile (c : α) (t : List α) : runs c (t.dropWhile (· = c)) = runs c t := by
  induction t with
  | nil => rfl
  | cons x t ih =>
    by_cases hx : x = c
    · subst hx
      rw [List.dropWhile_cons_of_pos (by simp), ih, runs_delimiter]
    · rw [List.dropWhile_cons_of_neg (by simpa using hx)]

/-- A text that does not begin with a delimiter begins with its first run. -/
theorem runs_cons (hx : x ≠ c) : runs c (x :: t) =
    (x :: t).takeWhile (· ≠ c) :: runs c ((x :: t).dropWhile (· ≠ c)) := by
  have happ := List.takeWhile_append_dropWhile (p := (· ≠ c)) (l := x :: t)
  conv_lhs => rw [← happ]
  refine runs_append ?_ (fun hc => ?_) fun y hy => ?_
  · rw [List.takeWhile_cons_of_pos (by simpa using hx)]
    exact List.cons_ne_nil _ _
  · simpa using List.mem_takeWhile_imp hc
  · have hhead := List.head?_dropWhile_not (fun y => decide (y ≠ c)) (x :: t)
    rw [Option.mem_def.mp hy] at hhead
    simpa using hhead

/-- Between two runs there is a delimiter. -/
theorem length_runs_le (c : α) (t : List α) : 2 * (runs c t).length ≤ t.length + 1 := by
  induction hn : t.length using Nat.strong_induction_on generalizing t with
  | _ n ih =>
    cases t with
    | nil => simp
    | cons x t =>
      rw [List.length_cons] at hn
      by_cases hx : x = c
      · subst hx
        have hrest := ih t.length (by omega) t rfl
        rw [runs_delimiter]
        omega
      · have hhead := List.head?_dropWhile_not (fun y => decide (y ≠ c)) (x :: t)
        have hlen : ((x :: t).dropWhile (· ≠ c)).length ≤ t.length := by
          rw [List.dropWhile_cons_of_pos (by simpa using hx)]
          exact (List.dropWhile_suffix _).length_le
        rw [runs_cons hx, List.length_cons]
        cases hdrop : (x :: t).dropWhile (· ≠ c) with
        | nil =>
          rw [runs_nil, List.length_nil]
          omega
        | cons y u =>
          rw [hdrop] at hhead hlen
          obtain rfl : y = c := by simpa using hhead
          rw [List.length_cons] at hlen
          have hrest := ih u.length (by omega) u rfl
          rw [runs_delimiter]
          omega

end Runs
/-! ## Hexadecimal -/

/-- **A digit is read back.** -/
theorem hexValue_hexChar {u : Bool} (h : d < 16) : hexValue (hexChar u d) = some d := by
  have hall : ∀ u : Bool, ∀ d : Fin 16, hexValue (hexChar u d) = some (d : Nat) := by decide
  exact hall u ⟨d, h⟩

/-- A digit is no character without a value. -/
theorem hexChar_ne {u : Bool} (hc : hexValue c = none) (h : d < 16) : hexChar u d ≠ c := by
  rintro rfl
  rw [hexValue_hexChar h] at hc
  cases hc

theorem hexDigits_append (s t : List Byte) : hexDigits (s ++ t) = hexDigits s ++ hexDigits t :=
  List.filterMap_append

/-- Two digits make a byte. -/
theorem pairs_byte (b : Byte) (ds : List Nat) :
    pairs (b.toNat / 16 :: b.toNat % 16 :: ds) = b :: pairs ds := by
  rw [pairs, Nat.div_add_mod, BitVec.ofNat_toNat, BitVec.setWidth_eq]

end FtMalloc.Lib
