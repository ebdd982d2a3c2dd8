import FtMalloc.Run.Client
import FtMalloc.Source.Dump
import Mathlib.Data.Nat.Digits.Defs

/-!
# What a dump says (`bonus/src/show_alloc_mem.c:45-77`)

`hex_dump` writes 16 bytes a line, each line with the low 16 bits of its offset
(`write_hex_byte((i >> 8) & 0xFF)`, `write_hex_byte(i & 0xFF)`).

Results:
* `hexDumpText_reads`: whatever the size, up to `PTRDIFF_MAX`, the text has one line for every 16
  bytes, and the hexadecimal columns, read in order, are the bytes of the range; the number on a
  line is its offset modulo `2 ^ 16`.
* `dump_faithful`: the dump is faithful (`Faithful`) exactly for sizes up to `2 ^ 16`.
* `dump_repeats`: 65537 bytes, the last of them on a second line `0x0000`.
-/

namespace FtMalloc

open Lib

namespace Bonus

/-! ## Reading a dump -/

/-- The number printed after `0x`. -/
def lineOffset (l : List Byte) : Nat :=
  Nat.ofDigits 16 (hexDigits (before (chr ':') (after (chr 'x') l))).reverse

/-- The bytes of the hexadecimal columns. -/
def lineBytes (l : List Byte) : List Byte := hexBytes (before (chr '|') (after (chr ':') l))

/-- The text is a faithful dump of the `size` bytes at `addr`: a line for every 16 bytes, each with
the offset of its first byte, and all bytes in order. -/
structure Faithful (m : Mem) (addr size : Nat) (t : List Byte) : Prop where
  count : (lines t).length = (size + 15) / 16
  offsets : ∀ k l, (lines t)[k]? = some l → lineOffset l = 16 * k
  bytes : (lines t).flatMap lineBytes = (List.range size).map fun x => m (addr + x)

variable {w : World} {m : Mem} {addr size i j k n : Nat} {b : Byte} {t : List Byte}

/-! ## A byte and a column -/

/-- The two digits of a byte. -/
def nibbles (b : Byte) : List Nat := [b.toNat / 16, b.toNat % 16]

theorem writeHexByte_eq (b : Byte) :
    writeHexByte b = [hexChar true (b.toNat / 16), hexChar true (b.toNat % 16)] := by
  have hhi : ∀ b : Byte, ((b >>> 4) &&& 0xF#8).toNat = b.toNat / 16 := by decide
  have hlo : ∀ b : Byte, (b &&& 0xF#8).toNat = b.toNat % 16 := by decide
  unfold writeHexByte
  rw [hhi, hlo]

theorem hexDigits_writeHexByte (b : Byte) : hexDigits (writeHexByte b) = nibbles b := by
  have hb := b.isLt
  rw [writeHexByte_eq]
  simp only [hexDigits, List.filterMap_cons, List.filterMap_nil,
    hexValue_hexChar (show b.toNat / 16 < 16 by omega),
    hexValue_hexChar (show b.toNat % 16 < 16 by omega)]
  rfl

theorem not_mem_writeHexByte {c : Byte} (hc : hexValue c = none) : c ∉ writeHexByte b := by
  have hb := b.isLt
  rw [writeHexByte_eq]
  simp only [List.mem_cons, List.not_mem_nil, or_false, not_or]
  exact ⟨(hexChar_ne hc (by omega)).symm, (hexChar_ne hc (by omega)).symm⟩

theorem hexBytes_nibbles (bs : List Byte) : pairs (bs.flatMap nibbles) = bs := by
  induction bs with
  | nil => rfl
  | cons b bs ih =>
    rw [List.flatMap_cons]
    exact (pairs_byte b _).trans (congrArg (b :: ·) ih)

/-- The bytes of the range among the `k` from byte `i` on. -/
def dumped (m : Mem) (addr size i k : Nat) : List Byte :=
  ((List.range' i k).filter (· < size)).map fun x => m (addr + x)

theorem dumped_succ (m : Mem) (addr size i k : Nat) : dumped m addr size i (k + 1) =
    (if i < size then [m (addr + i)] else []) ++ dumped m addr size (i + 1) k := by
  unfold dumped
  rw [List.range'_succ, List.filter_cons]
  by_cases h : i < size
  · simp [h]
  · simp [h]

theorem dumped_append (m : Mem) (addr size i k n : Nat) :
    dumped m addr size i k ++ dumped m addr size (i + k) n = dumped m addr size i (k + n) := by
  unfold dumped
  rw [← List.map_append, ← List.filter_append, List.range'_append_1]

theorem dumped_all (h : size ≤ n) :
    dumped m addr size 0 n = (List.range size).map fun x => m (addr + x) := by
  obtain ⟨d, rfl⟩ := Nat.exists_eq_add_of_le h
  unfold dumped
  rw [← List.range_eq_range', List.range_add, List.filter_append]
  congr 1
  have hlow : (List.range size).filter (· < size) = List.range size :=
    List.filter_eq_self.mpr fun x hx => by simpa using hx
  have hhigh : ((List.range d).map (size + ·)).filter (· < size) = [] :=
    List.filter_eq_nil_iff.mpr fun x hx => by
      obtain ⟨y, -, rfl⟩ := List.mem_map.mp hx
      simp
  rw [hlow, hhigh, List.append_nil]

/-! ## A line -/

/-- The bytes of the range can be read. -/
def Readable (w : World) (addr size : Nat) : Prop := ∀ x, x < size → w.os.Mapped (addr + x) 1

/-- A cell: the digits of a byte of the range, or blanks. -/
theorem cell_run (hm : Readable w addr size) : ∃ t,
    (if i < size then do
      let b ← loadByte (addr + i)
      pure (writeHexByte b ++ ascii [' '])
    else pure (ascii [' ', ' ', ' ']) : C (List Byte)) w = some (t, w) ∧
      hexDigits t = (if i < size then [w.mem (addr + i)] else []).flatMap nibbles ∧
        ∀ c, hexValue c = none → c ≠ chr ' ' → c ∉ t := by
  by_cases h : i < size
  · refine ⟨_, Prog.if_true_run h (Prog.bind_to (loadByte_of (hm i h)) rfl), ?_, fun c hc hsp => ?_⟩
    · have hspace : hexDigits (ascii [' ']) = [] := rfl
      rw [hexDigits_append, hexDigits_writeHexByte, hspace, if_pos h, List.append_nil,
        List.flatMap_singleton]
    · rw [List.mem_append, not_or]
      exact ⟨not_mem_writeHexByte hc, by simp [ascii, hsp]⟩
  · refine ⟨_, Prog.if_false_run h rfl, ?_, fun c _ hsp => by simp [ascii, hsp]⟩
    rw [if_neg h]
    rfl

/-- **The columns** hold the digits of the bytes and no other, and nothing else but blanks. -/
theorem dumpColumns_run (hm : Readable w addr size) : ∀ k j, ∃ t,
    dumpColumns addr size i j k w = some (t, w) ∧
      hexDigits t = (dumped w.mem addr size (i + j) k).flatMap nibbles ∧
        ∀ c, hexValue c = none → c ≠ chr ' ' → c ∉ t := by
  intro k
  induction k with
  | zero => exact fun j => ⟨[], rfl, rfl, fun c _ _ => List.not_mem_nil⟩
  | succ k ih =>
    intro j
    obtain ⟨cell, hcell, hcellDigits, hcellClean⟩ := cell_run (i := i + j) hm
    obtain ⟨t, hrun, hdigits, hclean⟩ := ih (j + 1)
    let gap := if j = 7 then ascii [' '] else []
    have hgap : hexDigits gap = [] := by
      unfold gap
      split <;> rfl
    have hgapClean : ∀ c, c ≠ chr ' ' → c ∉ gap := by
      intro c hc
      unfold gap
      split <;> simp [ascii, hc]
    refine ⟨cell ++ gap ++ t, Prog.bind_to hcell (Prog.bind_to hrun rfl), ?_, fun c hc hsp => ?_⟩
    · rw [hexDigits_append, hexDigits_append, hcellDigits, hgap, hdigits, dumped_succ,
        List.flatMap_append, List.append_nil, Nat.add_assoc]
    · rw [List.mem_append, List.mem_append, not_or, not_or]
      exact ⟨⟨hcellClean c hc hsp, hgapClean c hsp⟩, hclean c hc hsp⟩

theorem shownChar_ne (c : Byte) : shownChar c ≠ chr '\n' := by
  unfold shownChar
  split
  · rename_i h
    rintro rfl
    exact absurd h.1 (by decide)
  · decide

/-- The right column has no line end. -/
theorem dumpChars_run (hm : Readable w addr size) : ∀ k j, ∃ t,
    dumpChars addr size i j k w = some (t, w) ∧ chr '\n' ∉ t := by
  intro k
  induction k with
  | zero => exact fun j => ⟨[], rfl, List.not_mem_nil⟩
  | succ k ih =>
    intro j
    by_cases h : i + j < size
    · obtain ⟨t, hrun, hclean⟩ := ih (j + 1)
      refine ⟨shownChar (w.mem (addr + (i + j))) :: t, ?_, ?_⟩
      · exact Prog.if_true_run h (Prog.bind_to (loadByte_of (hm _ h)) (Prog.bind_to hrun rfl))
      · rw [List.mem_cons, not_or]
        exact ⟨(shownChar_ne _).symm, hclean⟩
    · exact ⟨[], Prog.if_false_run h rfl, List.not_mem_nil⟩

/-- The number on the line of byte `i`. -/
theorem offset_digits (i : Nat) : Nat.ofDigits 16 (nibbles (BitVec.ofNat 8 ((i >>> 8) &&& 0xFF)) ++
    nibbles (BitVec.ofNat 8 (i &&& 0xFF))).reverse = i % 2 ^ 16 := by
  have hand : ∀ x, (BitVec.ofNat 8 (x &&& 0xFF)).toNat = x % 256 := fun x => by
    rw [BitVec.toNat_ofNat, show 0xFF = 2 ^ 8 - 1 from rfl, Nat.and_two_pow_sub_one_eq_mod]
    omega
  simp only [nibbles, hand, Nat.shiftRight_eq_div_pow, List.cons_append, List.nil_append,
    List.reverse_cons, List.reverse_nil, Nat.ofDigits_cons, Nat.ofDigits_nil]
  norm_num
  omega

/-- **A line**: the low half of its offset, and the bytes of the range from there on. -/
theorem dumpLine_run (hm : Readable w addr size) (i : Nat) : ∃ t,
    dumpLine addr size i w = some (t ++ [chr '\n'], w) ∧ chr '\n' ∉ t ∧
      lineOffset t = i % 2 ^ 16 ∧ lineBytes t = dumped w.mem addr size i 16 := by
  obtain ⟨columns, hcols, hdigits, hclean⟩ := dumpColumns_run (i := i) hm 16 0
  obtain ⟨chars, hchars, hnl⟩ := dumpChars_run (i := i) hm 16 0
  let hi := writeHexByte (BitVec.ofNat 8 ((i >>> 8) &&& 0xFF))
  let lo := writeHexByte (BitVec.ofNat 8 (i &&& 0xFF))
  have hclean' : ∀ c, hexValue c = none → c ∉ hi ++ lo := fun c hc => by
    rw [List.mem_append, not_or]
    exact ⟨not_mem_writeHexByte hc, not_mem_writeHexByte hc⟩
  have hspace : chr ' ' ∉ ascii ['x'] := by decide
  let t := ascii [' ', ' ', '0'] ++ chr 'x' :: ((hi ++ lo) ++ chr ':' ::
    ((ascii [' '] ++ columns ++ ascii [' ']) ++ chr '|' :: (chars ++ ascii ['|'])))
  have hx : after (chr 'x') t = (hi ++ lo) ++ chr ':' ::
      ((ascii [' '] ++ columns ++ ascii [' ']) ++ chr '|' :: (chars ++ ascii ['|'])) :=
    after_append (by decide) _
  have hcolon : after (chr ':') t =
      (ascii [' '] ++ columns ++ ascii [' ']) ++ chr '|' :: (chars ++ ascii ['|']) := by
    have hassoc : t = (ascii [' ', ' ', '0'] ++ chr 'x' :: (hi ++ lo)) ++ chr ':' ::
        ((ascii [' '] ++ columns ++ ascii [' ']) ++ chr '|' :: (chars ++ ascii ['|'])) := by
      simp [t]
    rw [hassoc]
    refine after_append ?_ _
    have h1 : chr ':' ∉ ascii [' ', ' ', '0'] := by decide
    have h2 : chr ':' ≠ chr 'x' := by decide
    rw [List.mem_append, List.mem_cons, not_or, not_or]
    exact ⟨h1, h2, hclean' _ (by decide)⟩
  refine ⟨t, ?_, ?_, ?_, ?_⟩
  · refine Prog.bind_to hcols (Prog.bind_to hchars ?_)
    simp [t, hi, lo, ascii]
  · have h1 : chr '\n' ∉ ascii [' ', ' ', '0'] := by decide
    have h2 : chr '\n' ∉ ascii [' '] := by decide
    have h3 : chr '\n' ∉ ascii ['|'] := by decide
    have h4 : chr '\n' ≠ chr 'x' ∧ chr '\n' ≠ chr ':' ∧ chr '\n' ≠ chr '|' := by decide
    simp only [t, List.mem_append, List.mem_cons, not_or]
    have h5 := hclean' (chr '\n') (by decide)
    rw [List.mem_append, not_or] at h5
    exact ⟨h1, h4.1, h5, h4.2.1, ⟨⟨h2, hclean _ (by decide) (by decide)⟩, h2⟩, h4.2.2, hnl, h3⟩
  · unfold lineOffset
    rw [hx, before_append (hclean' _ (by decide)), hexDigits_append, hexDigits_writeHexByte,
      hexDigits_writeHexByte]
    exact offset_digits i
  · unfold lineBytes
    rw [hcolon, before_append]
    · have hblank : hexDigits (ascii [' ']) = [] := rfl
      unfold hexBytes
      rw [hexDigits_append, hexDigits_append, hblank, hdigits, List.nil_append, List.append_nil]
      exact hexBytes_nibbles _
    · have h1 : chr '|' ∉ ascii [' '] := by decide
      rw [List.mem_append, List.mem_append, not_or, not_or]
      exact ⟨⟨h1, hclean _ (by decide) (by decide)⟩, h1⟩

/-! ## All lines -/

/-- **The lines** from byte `i` on. -/
theorem dumpFrom_run (hsize : size ≤ ptrdiffMax) (hm : Readable w addr size) :
    ∀ fuel i, size ≤ i + 16 * fuel → ∃ t, dumpFrom addr size fuel i w = some (t, w) ∧
      (lines t).length = (size - i + 15) / 16 ∧
      (∀ k l, (lines t)[k]? = some l → lineOffset l = (i + 16 * k) % 2 ^ 16) ∧
        (lines t).flatMap lineBytes = dumped w.mem addr size i (16 * fuel) := by
  intro fuel
  induction fuel with
  | zero =>
    intro i hi
    refine ⟨[], Prog.if_false_run (by omega) rfl, ?_, fun k l hl => ?_, rfl⟩
    · simp only [lines, List.length_nil]
      omega
    · simp [lines] at hl
  | succ fuel ih =>
    intro i hi
    by_cases h : i < size
    · obtain ⟨l, hline, hnl, hoff, hbytes⟩ := dumpLine_run hm i
      obtain ⟨t, hrun, hlen, hoffs, hall⟩ := ih (i + 16) (by omega)
      have hlines : lines (l ++ [chr '\n'] ++ t) = l :: lines t := by
        rw [List.append_assoc]
        exact lines_cons hnl t
      have hnext : wrap (i + 16) = i + 16 := by
        simp only [ptrdiffMax] at hsize
        exact wrap_of_lt (by omega)
      rw [← hnext] at hrun
      refine ⟨l ++ [chr '\n'] ++ t, ?_, ?_, fun k l' hl => ?_, ?_⟩
      · exact Prog.if_true_run h (Prog.bind_to hline (Prog.bind_to hrun rfl))
      · rw [hlines, List.length_cons, hlen]
        omega
      · rw [hlines] at hl
        cases k with
        | zero =>
          cases hl
          rw [hoff]
          rfl
        | succ k =>
          rw [hoffs k l' hl]
          congr 1
          omega
      · rw [hlines, List.flatMap_cons, hbytes, hall, dumped_append]
        congr 1
        omega
    · refine ⟨[], Prog.if_false_run h rfl, ?_, fun k l hl => ?_, ?_⟩
      · simp only [lines, List.length_nil]
        omega
      · simp [lines] at hl
      · have hnone : (List.range' i (16 * (fuel + 1))).filter (· < size) = [] := by
          refine List.filter_eq_nil_iff.mpr fun x hx => ?_
          have := (List.mem_range'_1.mp hx).1
          simp only [decide_eq_true_eq]
          omega
        unfold dumped
        rw [hnone]
        rfl

/-- **A dump**, at any size: the lines and the columns are right, the offsets are truncated. -/
theorem hexDumpText_reads (hsize : size ≤ ptrdiffMax) (hm : Readable w addr size) : ∃ t,
    hexDumpText addr size w = some (t, w) ∧ (lines t).length = (size + 15) / 16 ∧
      (∀ k l, (lines t)[k]? = some l → lineOffset l = 16 * k % 2 ^ 16) ∧
        (lines t).flatMap lineBytes = (List.range size).map fun x => w.mem (addr + x) := by
  obtain ⟨t, hrun, hlen, hoffs, hbytes⟩ := dumpFrom_run hsize hm ((size + 15) / 16) 0 (by omega)
  refine ⟨t, hrun, hlen, fun k l hl => ?_, ?_⟩
  · rw [hoffs k l hl, Nat.zero_add]
  · rw [hbytes]
    exact dumped_all (by omega)

/-- A dump that has a line beyond the first 4096 is not faithful: that line starts again at 0. -/
theorem not_faithful (hcount : (lines t).length = (size + 15) / 16)
    (hoffs : ∀ k l, (lines t)[k]? = some l → lineOffset l = 16 * k % 2 ^ 16)
    (hsize : 2 ^ 16 < size) : ¬Faithful m addr size t := by
  intro hf
  have hlt : 4096 < (lines t).length := by omega
  have hget := List.getElem?_eq_getElem hlt
  have h1 := hoffs _ _ hget
  rw [hf.offsets _ _ hget] at h1
  omega

/-- **A faithful dump**: `hex_dump` returns at every size, and its text is a faithful dump of the
range exactly when the range has no more than `2 ^ 16` bytes. -/
theorem dump_faithful (hsize : size ≤ ptrdiffMax) (hm : Readable w addr size) : ∃ t,
    hexDumpText addr size w = some (t, w) ∧
      (Faithful w.mem addr size t ↔ size ≤ 2 ^ 16) := by
  obtain ⟨t, hrun, hcount, hoffs, hbytes⟩ := hexDumpText_reads hsize hm
  refine ⟨t, hrun, fun hf => ?_, fun hle => ⟨hcount, fun k l hl => ?_, hbytes⟩⟩
  · by_contra hgt
    exact not_faithful hcount hoffs (by omega) hf
  · obtain ⟨hk, -⟩ := List.getElem?_eq_some_iff.mp hl
    rw [hoffs k l hl, Nat.mod_eq_of_lt (by omega)]

/-- A page range that can be read. -/
def dumpSample (size : Nat) : World where
  heap := Heap.init
  mem := fun _ => 0
  os := ⟨4096, [⟨4096, size⟩], [], []⟩

theorem readable_sample (size : Nat) : Readable (dumpSample size) 4096 size := fun x hx => by
  refine ⟨⟨4096, size⟩, List.mem_singleton_self _, Nat.le_add_right _ _, ?_⟩
  have hround : size ≤ roundUp 4096 size := Os.le_roundUp (by decide)
  change 4096 + x + 1 ≤ 4096 + roundUp 4096 size
  omega

theorem dump_faithful_sample : ∃ t, hexDumpText 4096 40 (dumpSample 40) = some (t, dumpSample 40) ∧
    (Faithful (dumpSample 40).mem 4096 40 t ↔ 40 ≤ 2 ^ 16) :=
  dump_faithful (by decide) (readable_sample 40)

/-- **65537 bytes**: the last line of the dump does not carry its offset. -/
theorem dump_repeats : ∃ t,
    hexDumpText 4096 65537 (dumpSample 65537) = some (t, dumpSample 65537) ∧
      ¬Faithful (dumpSample 65537).mem 4096 65537 t := by
  obtain ⟨t, hrun, hcount, hoffs, -⟩ := hexDumpText_reads (by decide) (readable_sample 65537)
  exact ⟨t, hrun, not_faithful hcount hoffs (by decide)⟩

end Bonus

end FtMalloc
