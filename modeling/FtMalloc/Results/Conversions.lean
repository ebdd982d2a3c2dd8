import FtMalloc.Refine.Printf

/-!
# What the conversions of `ft_printf` write (`printf/ft_flagcheck.c`)

Every decimal goes through `ft_putnbr_base`, which takes a `long` (`ft_flagcheck.c:49-50`): a
`size_t` from `2 ^ 63` on arrives as a negative number. A width is read with a loop over `'1'` to
`'9'` (`ft_printf.c:25`): its first `0` ends it and becomes the type of the conversion.

Results:
* `decimal_output`: `%d`, `%i` and `%u` write the numeral of every argument, `%zu` that of exactly
  the arguments below `2 ^ 63`.
* `decimal_output_half`: what `%zu` writes for `2 ^ 63`.
* `padded_output`: a zero-padded hexadecimal of width `N` is what it should be exactly if `N` has no
  digit 0.
* `padded_output_ten`: the width 10 writes an `x`, and takes no argument.
* `pointer_output`: a pointer is written as its canonical hexadecimal numeral.
-/

namespace FtMalloc

open Lib

namespace Printf

variable {k : Kernel} {a : Arg} {rest : List Arg} {out text bs : List Byte} {b n N : Nat}
  {u : Bool}

/-! ## Decimals -/

/-- The conversion of a type writes `text` for the argument `a` and takes it, whatever the flag and
the width, the arguments after it and the output before it. -/
def Converts (k : Kernel) (type : Byte) (a : Arg) (text : List Byte) : Prop :=
  ∀ zero width rest out, width < 2 ^ 31 → ∃ r,
    ftFlagcheck k ⟨zero, width, type⟩ ⟨a :: rest, out⟩ = .ok (r, ⟨rest, out ++ text⟩)

/-- So does `ft_printf` with a directive. -/
def Formats (k : Kernel) (directive : CString) (a : Arg) (text : List Byte) : Prop :=
  ∀ rest out, ∃ r, ftPrintf k directive ⟨a :: rest, out⟩ = .ok (r, ⟨rest, out ++ text⟩)

/-- A run that writes `bs` writes nothing else. -/
theorem text_iff {run : List Arg → List Byte → Except Fault (Int × Console)}
    (hrun : ∀ rest out, ∃ r, run rest out = .ok (r, ⟨rest, out ++ bs⟩)) :
    (∀ rest out, ∃ r, run rest out = .ok (r, ⟨rest, out ++ text⟩)) ↔ text = bs := by
  constructor
  · intro h
    obtain ⟨r, hr⟩ := h [] []
    obtain ⟨r', hr'⟩ := hrun [] []
    rw [hr] at hr'
    exact (by simpa using hr' : r = r' ∧ text = bs).2
  · rintro rfl
    exact hrun

theorem converts_iff {type : Byte} (hkind : kindOf type = some a.kind)
    (htext : ∀ zero width, argText ⟨zero, width, type⟩ a = bs) :
    Converts k type a text ↔ text = bs := by
  have hrun : ∀ zero width rest out, width < 2 ^ 31 → ∃ r,
      ftFlagcheck k ⟨zero, width, type⟩ ⟨a :: rest, out⟩ = .ok (r, ⟨rest, out ++ bs⟩) := by
    intro zero width rest out hw
    obtain ⟨r, hr, -⟩ := ftFlagcheck_run (k := k) (f := ⟨zero, width, type⟩)
      (c := ⟨a :: rest, out⟩) hw fun q hq => ⟨a, rest, rfl, Option.some.inj (hkind.symm.trans hq)⟩
    have hconv : convText ⟨zero, width, type⟩ (a :: rest) = (bs, rest) := by
      simp only [convText, hkind, htext]
    simp only [hconv] at hr
    exact ⟨r, hr⟩
  constructor
  · intro h
    exact (text_iff fun rest out => hrun 0 0 rest out (by decide)).mp fun rest out =>
      h 0 0 rest out (by decide)
  · rintro rfl
    exact hrun

theorem formats_iff {directive : CString} {v : Conversion}
    (hscan : scan directive.bytes = [.conv v]) (hcut : v.cut = false)
    (hlen : directive.length < 2 ^ 31) (hkind : kindOf v.type = some a.kind)
    (htext : argText v.format a = bs) : Formats k directive a text ↔ text = bs := by
  have hrun : ∀ rest out, ∃ r,
      ftPrintf k directive ⟨a :: rest, out⟩ = .ok (r, ⟨rest, out ++ bs⟩) := by
    intro rest out
    have hargs : Typed directive.bytes (a :: rest) := by
      simp [Typed, kinds, hscan, Piece.kind, hkind]
    have hcomplete : Complete directive.bytes := by simp [Complete, hscan, Piece.cut, hcut]
    have hconv : convText v.format (a :: rest) = (bs, rest) := by
      have hkind' : kindOf v.format.type = some a.kind := hkind
      simp only [convText, hkind', htext]
    obtain ⟨r, hr, -⟩ := ftPrintf_run (k := k) (c := ⟨a :: rest, out⟩) hargs hcomplete hlen
    simp only [hscan, render, hconv, List.append_nil] at hr
    exact ⟨r, hr⟩
  exact text_iff hrun

theorem decimal_negative {i : Int} (h : i < 0) : chr '-' ∈ decimal i := by
  rw [decimal, if_pos h]
  exact List.mem_cons_self

theorem longText_negative {i : Int} (h : i < 0) : chr '-' ∈ longText i := by
  unfold longText
  split
  · exact decimal_negative (by decide)
  · exact decimal_negative h

theorem minus_not_mem (hb : 1 < b) (h16 : b ≤ 16) : chr '-' ∉ numeralText u b n := by
  intro h
  obtain ⟨d, hd, he⟩ := List.mem_map.mp h
  exact hexChar_ne (by decide) ((numeral_lt hb hd).trans_le h16) he

/-- Up to `2 ^ 63` the conversion to a `long` changes nothing, from there on it gives a negative
number. -/
theorem longText_toLong (v : BitVec 64) :
    numeralText false 10 v.toNat = longText (toLong v.toNat) ↔ v.toNat < 2 ^ 63 := by
  constructor
  · intro h
    by_contra hge
    have hlt := toLong_lt v.toNat
    have hneg : toLong v.toNat < 0 := by
      have hmax := v.isLt
      rcases toLong_cases hmax with h1 | ⟨h1, -⟩
      · omega
      · omega
    exact minus_not_mem (by decide) (by decide) (h ▸ longText_negative hneg)
  · intro h
    rw [toLong_small h, longText_decimal (by simp only [llongMin]; omega), decimal,
      if_neg (by omega), Int.natAbs_natCast]

/-- **Decimals**: when `%zu` writes the numeral of its argument, and that `%d`, `%i` and `%u` always
do. -/
theorem decimal_output (k : Kernel) :
    (∀ v : BitVec 64,
      (Converts k (chr 'z') (.size v) (numeralText false 10 v.toNat) ∧
        Formats k (.ofChars ['%', 'z', 'u']) (.size v) (numeralText false 10 v.toNat)) ↔
      v.toNat < 2 ^ 63) ∧
    (∀ i : BitVec 32,
      Converts k (chr 'd') (.int i) (decimal i.toInt) ∧
      Formats k (.ofChars ['%', 'd']) (.int i) (decimal i.toInt) ∧
      Converts k (chr 'i') (.int i) (decimal i.toInt) ∧
      Formats k (.ofChars ['%', 'i']) (.int i) (decimal i.toInt)) ∧
    (∀ n : BitVec 32,
      Converts k (chr 'u') (.unsigned n) (numeralText false 10 n.toNat) ∧
      Formats k (.ofChars ['%', 'u']) (.unsigned n) (numeralText false 10 n.toNat)) := by
  refine ⟨fun v => ?_, fun i => ?_, fun n => ?_⟩
  · have h1 : Converts k (chr 'z') (.size v) (numeralText false 10 v.toNat) ↔
        numeralText false 10 v.toNat = longText (toLong v.toNat) :=
      converts_iff rfl fun _ _ => rfl
    have h2 : Formats k (.ofChars ['%', 'z', 'u']) (.size v) (numeralText false 10 v.toNat) ↔
        numeralText false 10 v.toNat = longText (toLong v.toNat) :=
      formats_iff (scan_directive (by decide) rfl rfl) rfl (by decide) rfl rfl
    rw [h1, h2, and_self, longText_toLong]
  · exact ⟨(converts_iff rfl fun _ _ => rfl).mpr rfl,
      (formats_iff (scan_directive (by decide) rfl rfl) rfl (by decide) rfl rfl).mpr rfl,
      (converts_iff rfl fun _ _ => rfl).mpr rfl,
      (formats_iff (scan_directive (by decide) rfl rfl) rfl (by decide) rfl rfl).mpr rfl⟩
  · have htext : numeralText false 10 n.toNat = decimal n.toNat := by
      rw [decimal, if_neg (by omega), Int.natAbs_natCast]
    rw [htext]
    exact ⟨(converts_iff rfl fun _ _ => rfl).mpr rfl,
      (formats_iff (scan_directive (by decide) rfl rfl) rfl (by decide) rfl rfl).mpr rfl⟩

/-- **`%zu` of `2 ^ 63`** writes a negative number, and not even its own. -/
theorem decimal_output_half :
    let v := BitVec.ofNat 64 (2 ^ 63)
    ftPrintf fullKernel (.ofChars ['%', 'z', 'u']) ⟨[.size v], []⟩ = .ok (20, ⟨[],
      ascii ['-', '9', '2', '2', '3', '3', '7', '2', '0', '3', '6', '8', '5', '4', '7', '7', '5',
        '8', '0', '7']⟩) ∧
    ¬ Formats fullKernel (.ofChars ['%', 'z', 'u']) (.size v) (numeralText false 10 v.toNat) := by
  refine ⟨rfl, fun h => ?_⟩
  obtain ⟨r, hr⟩ := h [] []
  have hrun : ftPrintf fullKernel (.ofChars ['%', 'z', 'u'])
      ⟨[.size (BitVec.ofNat 64 (2 ^ 63))], []⟩ = .ok (20, ⟨[], decimal (llongMin + 1)⟩) := rfl
  rw [hrun] at hr
  simp only [Except.ok.injEq, Prod.mk.injEq, Console.mk.injEq] at hr
  exact minus_not_mem (by decide) (by decide) (hr.2.2 ▸ decimal_negative (by decide))

/-! ## Zero-padded hexadecimal -/

/-- What follows the percent sign in `paddedFormat N`. -/
def paddedTail (N : Nat) : List Byte := chr '0' :: (numeralText false 10 N ++ [chr 'x'])

/-- The directive of a zero-padded hexadecimal of width `N`. -/
def paddedFormat (N : Nat) : List Byte := chr '%' :: paddedTail N

theorem not_mem_paddedTail {x : Byte} (hx : hexValue x = none) (hne : x ≠ chr 'x') :
    x ∉ paddedTail N := by
  intro h
  simp only [paddedTail, List.mem_cons, List.mem_append, List.not_mem_nil, or_false] at h
  rcases h with h | h | h
  · rw [h] at hx
    cases hx
  · obtain ⟨d, hd, he⟩ := List.mem_map.mp h
    exact hexChar_ne hx ((numeral_lt (by decide) hd).trans (by decide)) he
  · exact hne h

theorem noNul_padded (N : Nat) : 0#8 ∉ paddedFormat N := by
  intro h
  rcases List.mem_cons.mp h with h | h
  · exact absurd h (by decide)
  · exact not_mem_paddedTail rfl (by decide) h

/-- The format of that directive. -/
def padded (N : Nat) : CString := ⟨paddedFormat N, noNul_padded N⟩

/-- A zero-padded hexadecimal of width `N`: it takes `n` and writes its value in lowercase digits,
as many as the width or the numeral has, and returns their number. -/
def Pads (k : Kernel) (N : Nat) (n : BitVec 32) : Prop :=
  ∀ rest out, ∃ ds : List Nat, (∀ d ∈ ds, d < 16) ∧ numeralValue 16 ds = n.toNat ∧
    ds.length = max N (numeral 16 n.toNat).length ∧
    ftPrintf k (padded N) ⟨.unsigned n :: rest, out⟩ =
      .ok (ds.length, ⟨rest, out ++ ds.map (hexChar false)⟩)

theorem isWidthDigit_hexChar {d : Nat} (hd : d < 10) :
    isWidthDigit (hexChar false d) = true ↔ d ≠ 0 := by
  have hall : ∀ d : Fin 10, isWidthDigit (hexChar false d) = true ↔ (d : Nat) ≠ 0 := by decide
  exact hall ⟨d, hd⟩

theorem widthValue_map {ds : List Nat} (hd : ∀ d ∈ ds, d < 10) :
    widthValue (ds.map (hexChar false)) = numeralValue 10 ds := by
  have hall : ∀ d : Fin 10, (hexChar false d).toNat - 48 = (d : Nat) := by decide
  have hmap : (ds.map (hexChar false)).map (fun c => c.toNat - 48) = ds := by
    rw [List.map_map]
    exact (List.map_congr_left fun d h => hall ⟨d, hd d h⟩).trans (List.map_id ds)
  rw [widthValue, hmap]

/-- The conversion of the digits `ds` after the flag, `x` being the byte after them. -/
def flagged (ds : List Nat) (x : Byte) : Conversion :=
  ⟨true, ds.map (hexChar false), x, ds.length + 2, false⟩

theorem flagged_split {ds : List Nat} {x : Byte} (hd : ∀ d ∈ ds, d < 10) (h0 : 0 ∉ ds)
    (hx : isWidthDigit x = false) (hz : x ≠ chr 'z') (t : List Byte) :
    Split (chr '0' :: (ds.map (hexChar false) ++ x :: t)) (flagged ds x) (x :: t) where
  parts := rfl
  flag := by simp [flagged]
  digits := fun y hy => by
    obtain ⟨d, hm, rfl⟩ := List.mem_map.mp hy
    exact (isWidthDigit_hexChar (hd d hm)).mpr fun h => h0 (h ▸ hm)
  stop := by simpa using hx
  type := rfl
  length := by
    rw [show (flagged ds x).tail = 1 from if_neg hz]
    simp only [flagged, Conversion.flag, if_true, List.length_singleton, List.length_map]
    omega
  cut := by simp [flagged]

/-- The conversion of a width without a digit 0. -/
def paddedConversion (N : Nat) : Conversion := flagged (numeral 10 N) (chr 'x')

theorem padded_split (h0 : 0 ∉ numeral 10 N) :
    Split (paddedTail N) (paddedConversion N) [chr 'x'] :=
  flagged_split (fun _ hd => numeral_lt (by decide) hd) h0 (by decide) (by decide) []

/-- The digits that are written: zeros up to the width, and the numeral. -/
def paddedDigits (N n : Nat) : List Nat :=
  List.replicate (N - (numeral 16 n).length) 0 ++ numeral 16 n

theorem paddedDigits_lt : ∀ d ∈ paddedDigits N n, d < 16 := by
  intro d hd
  rcases List.mem_append.mp hd with h | h
  · rw [List.eq_of_mem_replicate h]
    decide
  · exact numeral_lt (by decide) h

theorem paddedDigits_length : (paddedDigits N n).length = max N (numeral 16 n).length := by
  rw [paddedDigits, List.length_append, List.length_replicate]
  omega

theorem paddedDigits_value : numeralValue 16 (paddedDigits N n) = n := by
  rw [paddedDigits, numeralValue_zeros, numeral_value]

theorem padded_text (hN : N < 2 ^ 31) (n : Nat) :
    paddedText (paddedConversion N).format n = (paddedDigits N n).map (hexChar false) := by
  have hvalue : widthValue (paddedConversion N).digits = N := by
    rw [paddedConversion, flagged, widthValue_map fun d hd => numeral_lt (by decide) hd,
      numeral_value]
  have hwidth : (paddedConversion N).format.width.toNat = N := by
    rw [Conversion.format, hvalue, wrapInt_nat hN, Int.toNat_natCast]
  have hzero : (paddedConversion N).format.zero ≠ 0 := (by decide : (1 : Int) ≠ 0)
  rw [paddedText_eq, padding, if_pos hzero, hwidth, paddedDigits, List.map_append,
    List.map_replicate]
  rfl

theorem ftFlagcheck_hex {f : Format} (hf : f.type = chr 'x') :
    ftFlagcheck k f = putPaddedHex k f := by
  simp [ftFlagcheck, hf, show chr 'x' ≠ chr 'd' by decide, show chr 'x' ≠ chr 'i' by decide,
    show chr 'x' ≠ chr 'c' by decide, show chr 'x' ≠ chr 's' by decide,
    show chr 'x' ≠ chr 'u' by decide]

theorem padded_run (h0 : 0 ∉ numeral 10 N) (h1 : 0 < N) (hN : N < 2 ^ 31) (n : BitVec 32) :
    Pads k N n := by
  intro rest out
  have hlen10 : (numeral 10 N).length ≤ 10 :=
    numeral_length_le (by decide) (by decide) (hN.trans (by decide))
  have hlen16 := numeral_length_small (b := 16) (by decide)
    (show n.toNat < 2 ^ 64 from n.isLt.trans (by decide))
  have hd : (padded N).bytes.drop 0 = chr '%' :: paddedTail N := rfl
  have hlen : (padded N).length = (numeral 10 N).length + 1 + 2 := by
    simp [CString.length, padded, paddedFormat, paddedTail, length_numeralText]
  have hv := padded_split h0
  have hflag : (paddedConversion N).flag.length = 1 := rfl
  have hdigits : (paddedConversion N).digits.length = (numeral 10 N).length :=
    List.length_map _
  have hconv : (paddedConversion N).length = (numeral 10 N).length + 2 := rfl
  have hread := readAt_run (c := ⟨.unsigned n :: rest, out⟩) hd (Nat.zero_le _) (by decide)
  have hparse := parseFormat_run (c := ⟨.unsigned n :: rest, out⟩) hv hd (Nat.zero_le _) (by omega)
  have hhex := putPaddedHex_run (k := k) (f := (paddedConversion N).format) (.inl rfl)
    (width_lt _) (c := ⟨.unsigned n :: rest, out⟩) (m := n) rfl
  have hsmall : (paddedDigits N n.toNat).length < 2 ^ 31 := by
    rw [paddedDigits_length]
    omega
  rw [← ftFlagcheck_hex rfl, padded_text hN, List.length_map, wrapInt_nat hsmall] at hhex
  refine ⟨paddedDigits N n.toNat, paddedDigits_lt, paddedDigits_value, paddedDigits_length, ?_⟩
  have hdone : (padded N).bytes.drop (0 + (paddedConversion N).length + 1) = [] :=
    List.drop_eq_nil_of_le (by change (padded N).length ≤ _; omega)
  have hend := readAt_run (s := padded N)
    (c := Console.put ⟨rest, out⟩ ((paddedDigits N n.toNat).map (hexChar false)))
    hdone (by omega) (by omega)
  rw [ftPrintf_eq, hlen, printFrom_conv hread hparse hhex, wrapInt_succ, printFrom_end hend,
    Int.zero_add, wrapInt_nat hsmall]
  rfl

/-- A digit 0 of the width is the type of the conversion, which takes no argument. -/
theorem padded_kinds (h0 : 0 ∈ numeral 10 N) : kinds (scan (padded N).bytes) = [] := by
  obtain ⟨ds, es, hds, hnot⟩ := List.eq_append_cons_of_mem h0
  have hlt : ∀ d ∈ ds ++ 0 :: es, d < 10 := fun d hd => numeral_lt (by decide) (hds ▸ hd)
  have hconv : conversion (paddedTail N) = flagged ds (chr '0') := by
    rw [paddedTail, numeralText, hds, List.map_append, List.append_assoc]
    exact (flagged_split (fun d hd => hlt d (List.mem_append_left _ hd)) hnot (by decide)
      (by decide) _).unique
  have hplain : ∀ x ∈ (paddedTail N).drop (ds.length + 2), x ≠ chr '%' := by
    rintro x hx rfl
    exact not_mem_paddedTail rfl (by decide) (List.mem_of_mem_drop hx)
  rw [show (padded N).bytes = chr '%' :: paddedTail N from rfl, scan_percent, hconv, kinds,
    List.filterMap_cons_none (by rfl)]
  exact kinds_plain hplain

theorem padded_fails (h0 : 0 ∈ numeral 10 N) (n : BitVec 32) : ¬ Pads k N n := by
  intro h
  obtain ⟨ds, -, -, -, hrun⟩ := h [] []
  have hkinds := padded_kinds h0
  have hargs : Typed (padded N).bytes [.unsigned n] := by
    rw [Typed, hkinds]
    exact List.nil_prefix
  by_cases hgood : Complete (padded N).bytes ∧ (padded N).length < 2 ^ 31
  · obtain ⟨r, hr, -⟩ := ftPrintf_run (k := k) (c := ⟨[.unsigned n], []⟩) hargs hgood.1 hgood.2
    rw [hrun, render_args _ hkinds] at hr
    cases hr
  · obtain ⟨i, hi, -⟩ := ftPrintf_outside (k := k) (c := ⟨[.unsigned n], []⟩) hargs hgood
    rw [hrun] at hi
    cases hi

/-- **Zero-padded hexadecimal**: when a width is read as it is written. -/
theorem padded_output (k : Kernel) (N : Nat) (n : BitVec 32) (h1 : 1 ≤ N) (hN : N < 2 ^ 31) :
    Pads k N n ↔ 0 ∉ numeral 10 N :=
  ⟨fun h h0 => padded_fails h0 n h, fun h0 => padded_run h0 h1 hN n⟩

theorem padded_output_eight : Pads fullKernel 8 48879#32 :=
  (padded_output fullKernel 8 48879#32 (by decide) (by decide)).mpr (by simp [numeral_small])

/-- **The width 10** writes an `x` and leaves its argument to the next conversion. -/
theorem padded_output_ten :
    ftPrintf fullKernel (padded 10) ⟨[.unsigned 255#32], []⟩ =
      .ok (1, ⟨[.unsigned 255#32], [chr 'x']⟩) ∧
    ¬ Pads fullKernel 10 255#32 :=
  ⟨rfl, padded_fails (by simp [numeral_step, numeral_small]) 255#32⟩

/-! ## Pointers -/

/-- **Pointers**: `0x` and the canonical numeral, which is another one for another pointer. -/
theorem pointer_output (k : Kernel) (c : Console) (v : BitVec 64) :
    (∃ r, ftPutpointer k v.toNat c =
      .ok (r, c.put (ascii ['0', 'x'] ++ numeralText false 16 v.toNat))) ∧
    numeralText false 16 v.toNat = (numeral 16 v.toNat).map (hexChar false) ∧
    numeralValue 16 (numeral 16 v.toNat) = v.toNat ∧
    (∀ d ∈ numeral 16 v.toNat, d < 16) ∧
    ((numeral 16 v.toNat).head? = some 0 → numeral 16 v.toNat = [0]) ∧
    ∀ w : BitVec 64, ascii ['0', 'x'] ++ numeralText false 16 v.toNat =
      ascii ['0', 'x'] ++ numeralText false 16 w.toNat → v = w := by
  refine ⟨⟨_, ftPutpointer_run v.isLt⟩, rfl, numeral_value 16 _, fun d => numeral_lt (by decide),
    fun h => ?_, fun w h => ?_⟩
  · rw [numeral_head h]
    rfl
  · exact BitVec.eq_of_toNat_eq
      (numeralText_inj (by decide) (by decide) (List.append_cancel_left h))

end Printf

end FtMalloc
