import FtMalloc.Lib.Numeral
import FtMalloc.Source.Printf
import Mathlib.Data.List.TakeWhile

/-!
# What a format means

A format is a list of pieces: plain bytes and conversions. `scan` cuts a format into them; a
conversion is an optional `0`, the digits 1 to 9 of a width, and a type, with one more byte after
the type `z`. `kinds` are the arguments the conversions take, in order, and `render` is the text the
pieces stand for.

This is a statement of its own of what `ft_printf` is for, over lists and without an index; the
simulation in `Refine/Printf.lean` connects the two. A conversion the format ends inside of is
`cut`.
-/

namespace FtMalloc

open Lib

namespace Printf

/-! ## Pieces -/

/-- A conversion: its flag, its width, its type (NUL when the format ends before it) and the number
of bytes it takes after the percent sign. -/
structure Conversion where
  zero : Bool
  digits : List Byte
  type : Byte
  length : Nat
  cut : Bool
  deriving DecidableEq, Repr

/-- The conversion at the start of what follows a percent sign. -/
def conversion (s : List Byte) : Conversion :=
  let zero := s.head? = some (chr '0')
  let rest := if zero then s.tail else s
  let digits := rest.takeWhile isWidthDigit
  let type := (rest.dropWhile isWidthDigit).headD 0#8
  let length := (if zero then 1 else 0) + digits.length + (if type = chr 'z' then 2 else 1)
  ⟨zero, digits, type, length, s.length < length⟩

/-- A piece of a format. -/
inductive Piece
  | plain (c : Byte)
  | conv (v : Conversion)
  deriving DecidableEq, Repr

/-- The pieces of a format, in order: plain bytes and conversions. -/
def scan : List Byte → List Piece
  | [] => []
  | c :: s =>
    if c = chr '%' then .conv (conversion s) :: scan (s.drop (conversion s).length)
    else .plain c :: scan s
termination_by s => s.length

/-- The format ends inside of the piece, before the last byte of a conversion. -/
def Piece.cut : Piece → Bool
  | .plain _ => false
  | .conv v => v.cut

/-- The format does not end inside a conversion, so its terminator is read as such. -/
def Complete (s : List Byte) : Prop := ∀ p ∈ scan s, p.cut = false

instance (s : List Byte) : Decidable (Complete s) :=
  inferInstanceAs (Decidable (∀ p ∈ scan s, p.cut = false))

/-! ## Arguments -/

/-- The type of an argument. -/
inductive Kind
  | int
  | unsigned
  | size
  | pointer
  | string
  deriving DecidableEq, Repr

/-- The type of an argument. -/
def Arg.kind : Arg → Kind
  | .int _ => .int
  | .unsigned _ => .unsigned
  | .size _ => .size
  | .pointer _ => .pointer
  | .string _ => .string

/-- The argument a conversion takes, by its type; `none` for `%%` and the types `ft_flagcheck` does
not know. -/
def kindOf (type : Byte) : Option Kind :=
  if type = chr 'd' ∨ type = chr 'i' ∨ type = chr 'c' then some .int
  else if type = chr 's' then some .string
  else if type = chr 'u' ∨ type = chr 'x' ∨ type = chr 'X' then some .unsigned
  else if type = chr 'p' then some .pointer
  else if type = chr 'z' then some .size
  else none

/-- The argument a piece takes, if it takes one. -/
def Piece.kind : Piece → Option Kind
  | .plain _ => none
  | .conv v => kindOf v.type

/-- The arguments the pieces take, in the order in which `va_arg` hands them out. -/
def kinds (ps : List Piece) : List Kind := ps.filterMap Piece.kind

/-- There are arguments of the types the format's conversions take, in order. -/
def Typed (s : List Byte) (args : List Arg) : Prop := kinds (scan s) <+: args.map Arg.kind

instance (s : List Byte) (args : List Arg) : Decidable (Typed s args) :=
  inferInstanceAs (Decidable (kinds (scan s) <+: args.map Arg.kind))

/-! ## Text -/

/-- The canonical decimal numeral of an integer. -/
def decimal (i : Int) : List Byte :=
  if i < 0 then chr '-' :: numeralText false 10 i.natAbs else numeralText false 10 i.natAbs

/-- The text `ft_putnbr_base` has for a `long`: that of the least one is another's. -/
def longText (i : Int) : List Byte :=
  if i = llongMin then decimal (llongMin + 1) else decimal i

/-- The number of a width, read in decimal. -/
def widthValue (digits : List Byte) : Nat := numeralValue 10 (digits.map fun c => c.toNat - 48)

/-- The `t_format` of a conversion. -/
def Conversion.format (v : Conversion) : Format :=
  ⟨if v.zero then 1 else 0, wrapInt (widthValue v.digits), v.type⟩

/-- Hexadecimal, padded with zeros to the width when the flag is set, as `put_padded_hex` writes it
(`ft_flagcheck.c:15-33`). -/
def paddedText (f : Format) (n : Nat) : List Byte :=
  let digits := numeralText (f.type = chr 'X') 16 n
  let pad := if f.zero ≠ 0 then f.width.toNat - digits.length else 0
  List.replicate pad (chr '0') ++ digits

/-- The text of an argument, by its type and that of the conversion. -/
def argText (f : Format) : Arg → List Byte
  | .int i => if f.type = chr 'c' then [i.setWidth 8] else decimal i.toInt
  | .unsigned n => if f.type = chr 'u' then decimal n.toNat else paddedText f n.toNat
  | .size n => longText (toLong n.toNat)
  | .pointer n => ascii ['0', 'x'] ++ numeralText false 16 n.toNat
  | .string none => ascii ['(', 'n', 'u', 'l', 'l', ')']
  | .string (some s) => s.bytes

/-- The text of a conversion, and the arguments after it; one that takes no argument leaves them. -/
def convText (f : Format) (args : List Arg) : List Byte × List Arg :=
  match kindOf f.type, args with
  | some _, a :: rest => (argText f a, rest)
  | some _, [] => ([], [])
  | none, args => (if f.type = chr '%' then [chr '%'] else [], args)

/-- The text of some pieces, and the arguments after them: what `ft_printf` is to write. -/
def render : List Piece → List Arg → List Byte × List Arg
  | [], args => ([], args)
  | .plain c :: ps, args => (c :: (render ps args).1, (render ps args).2)
  | .conv v :: ps, args =>
    let r := convText v.format args
    (r.1 ++ (render ps r.2).1, (render ps r.2).2)

/-! ## Cutting a format -/

variable {s : List Byte} {c : Byte} {args rest : List Arg} {ps : List Piece} {v : Conversion}
  {f : Format}

@[simp] theorem scan_nil : scan [] = [] := by
  rw [scan]

theorem scan_plain (h : c ≠ chr '%') (s : List Byte) : scan (c :: s) = .plain c :: scan s := by
  rw [scan, if_neg h]

theorem scan_percent (s : List Byte) : scan (chr '%' :: s) =
    .conv (conversion s) :: scan (s.drop (conversion s).length) := by
  rw [scan, if_pos rfl]

theorem complete_nil : Complete [] := by
  simp [Complete]

theorem complete_plain (h : c ≠ chr '%') : Complete (c :: s) ↔ Complete s := by
  simp [Complete, scan_plain h, Piece.cut]

theorem complete_percent : Complete (chr '%' :: s) ↔
    (conversion s).cut = false ∧ Complete (s.drop (conversion s).length) := by
  simp [Complete, scan_percent, Piece.cut]

/-- The bytes of the flag. -/
def Conversion.flag (v : Conversion) : List Byte := if v.zero then [chr '0'] else []

/-- How many bytes the type has: two for `zu`, of which the second is not looked at. -/
def Conversion.tail (v : Conversion) : Nat := if v.type = chr 'z' then 2 else 1

/-- A conversion is the parts of what follows the percent sign, `t` being what comes after the
width. -/
structure Split (s : List Byte) (v : Conversion) (t : List Byte) : Prop where
  parts : s = v.flag ++ v.digits ++ t
  flag : s.head? = some (chr '0') ↔ v.zero = true
  digits : ∀ c ∈ v.digits, isWidthDigit c = true
  stop : ∀ c ∈ t.head?, isWidthDigit c = false
  type : v.type = t.headD 0#8
  length : v.length = v.flag.length + v.digits.length + v.tail
  cut : v.cut = decide (s.length < v.length)

theorem conversion_split (s : List Byte) : ∃ t, Split s (conversion s) t := by
  let rest := if s.head? = some (chr '0') then s.tail else s
  have hrest : s = (conversion s).flag ++ rest := by
    unfold Conversion.flag conversion rest
    cases s with
    | nil => simp
    | cons c s =>
      by_cases h : c = chr '0'
      · simp [h]
      · simp [h]
  refine ⟨rest.dropWhile isWidthDigit, ?_, ?_, ?_, ?_, rfl, ?_, rfl⟩
  · rw [List.append_assoc]
    exact hrest.trans (congrArg _ List.takeWhile_append_dropWhile.symm)
  · simp [conversion]
  · exact fun c hc => List.mem_takeWhile_imp hc
  · intro c hc
    have hnot := List.head?_dropWhile_not isWidthDigit rest
    rw [Option.mem_def.mp hc] at hnot
    exact hnot
  · have hflag : (conversion s).flag.length = if s.head? = some (chr '0') then 1 else 0 := by
      unfold Conversion.flag conversion
      simp only [decide_eq_true_eq]
      split <;> rfl
    rw [hflag]
    rfl

variable {t : List Byte}

/-- **How far a conversion goes**: at most one byte past what there is, when it is cut. -/
theorem Split.length_le (h : Split s v t) : v.length ≤ s.length + 1 := by
  have hlen := congrArg List.length h.parts
  rw [List.length_append, List.length_append] at hlen
  have htail : v.tail ≤ t.length + 1 := by
    unfold Conversion.tail
    rw [h.type]
    cases t with
    | nil => decide
    | cons c t => split <;> simp
  rw [h.length]
  omega

/-- The parts of what follows the percent sign determine the conversion. -/
theorem Split.unique (h : Split s v t) : conversion s = v := by
  have hzero : decide (s.head? = some (chr '0')) = v.zero := by
    rw [Bool.eq_iff_iff, decide_eq_true_iff]
    exact h.flag
  have hrest : (if s.head? = some (chr '0') then s.tail else s) = v.digits ++ t := by
    simp only [h.flag]
    rw [h.parts, Conversion.flag]
    cases v.zero <;> simp
  have hstop : t.takeWhile isWidthDigit = [] ∧ t.dropWhile isWidthDigit = t := by
    cases t with
    | nil => exact ⟨rfl, rfl⟩
    | cons x t => simp [h.stop x rfl]
  have hdigits : (v.digits ++ t).takeWhile isWidthDigit = v.digits := by
    rw [List.takeWhile_append_of_pos h.digits, hstop.1, List.append_nil]
  have htype : ((v.digits ++ t).dropWhile isWidthDigit).headD 0#8 = v.type := by
    rw [List.dropWhile_append_of_pos h.digits, hstop.2, h.type]
  have hlength : (if s.head? = some (chr '0') then 1 else 0) + v.digits.length +
      (if v.type = chr 'z' then 2 else 1) = v.length := by
    simp only [h.flag]
    rw [h.length, Conversion.flag, Conversion.tail]
    cases v.zero <;> rfl
  simp only [conversion, hrest, hdigits, htype, hlength, hzero, ← h.cut]

/-- A directive of a type alone, without flag and width, is one piece. -/
theorem scan_directive {c : Byte} (h0 : c ≠ chr '0') (hd : isWidthDigit c = false)
    (hlen : s.length + 1 = if c = chr 'z' then 2 else 1) :
    scan (chr '%' :: c :: s) = [.conv ⟨false, [], c, s.length + 1, false⟩] := by
  have hconv : conversion (c :: s) = ⟨false, [], c, s.length + 1, false⟩ :=
    Split.unique (t := c :: s)
      { parts := rfl
        flag := by simp [h0]
        digits := by simp
        stop := by simpa using hd
        type := rfl
        length := by simp [Conversion.flag, Conversion.tail, hlen]
        cut := by simp }
  rw [scan_percent, hconv, List.drop_of_length_le (by simp), scan_nil]

/-! ## Arguments -/

/-- A format without a percent sign takes no arguments and is its own text. -/
theorem kinds_plain (h : ∀ x ∈ s, x ≠ chr '%') : kinds (scan s) = [] := by
  induction s with
  | nil => simp [kinds]
  | cons x s ih =>
    rw [scan_plain (h x List.mem_cons_self), kinds, List.filterMap_cons_none (by rfl)]
    exact ih fun y hy => h y (List.mem_cons_of_mem _ hy)

/-- Pieces that take no arguments leave all of them. -/
theorem render_args (ps : List Piece) (h : kinds ps = []) : (render ps args).2 = args := by
  induction ps with
  | nil => rfl
  | cons p ps ih =>
    have hp : p.kind = none ∧ kinds ps = [] := by
      unfold kinds at h ⊢
      cases hk : p.kind with
      | none => exact ⟨rfl, by rwa [List.filterMap_cons_none hk] at h⟩
      | some q => simp [List.filterMap_cons_some hk] at h
    cases p with
    | plain x => exact ih hp.2
    | conv v =>
      have hconv : (convText v.format args).2 = args := by
        unfold convText
        rw [show kindOf v.format.type = none from hp.1]
      simp only [render, hconv]
      exact ih hp.2

theorem typed_plain (h : c ≠ chr '%') : Typed (c :: s) args ↔ Typed s args := by
  unfold Typed kinds
  rw [scan_plain h, List.filterMap_cons_none (by rfl)]

/-- The argument of a conversion, and those of the rest of the format. -/
theorem typed_percent (h : Typed (chr '%' :: s) args) :
    (∀ k, kindOf (conversion s).type = some k → ∃ a rest, args = a :: rest ∧ a.kind = k) ∧
      Typed (s.drop (conversion s).length) (convText (conversion s).format args).2 := by
  unfold Typed kinds at *
  rw [scan_percent] at h
  have htype : (conversion s).format.type = (conversion s).type := rfl
  unfold convText
  rw [htype]
  cases hk : kindOf (conversion s).type with
  | none =>
    rw [List.filterMap_cons_none (by exact hk)] at h
    constructor
    · intro k hk'
      cases hk'
    · cases args with
      | nil => exact h
      | cons a rest => exact h
  | some k =>
    rw [List.filterMap_cons_some (by exact hk)] at h
    cases args with
    | nil => simp at h
    | cons a rest =>
      rw [List.map_cons, List.cons_prefix_cons] at h
      refine ⟨fun k' hk' => ⟨a, rest, rfl, ?_⟩, h.2⟩
      cases hk'
      exact h.1.symm

end Printf

end FtMalloc
