import FtMalloc.Lib.Numeral
import FtMalloc.Source.Numbers

/-!
# The buffers of the report's numbers (`src/show_alloc_mem.c:12-43`)

The digits are filled in from the end of a buffer, which is right for both functions as long as
they fit. `write_dec` has room for the 20 digits of a 64-bit number; the 18 bytes of `write_hex`
have room for the prefix, the terminator and 15 digits, and the prefix is stored unchecked.

Results:
* `fillDigits_run`: the digits of a number are those of its numeral.
* `write_hex_fits`: `write_hex` stays inside its buffer and writes the numeral of exactly the
  numbers below `2 ^ 60`; from there on the `'0'` of the prefix goes before the buffer.
* `write_dec_fits`: `write_dec` does both for every number.
-/

namespace FtMalloc

open Lib

namespace Show

variable {b n : Nat} {digit char : Nat → Byte} {rest : Nat → Nat} {i : Int}
  {buf pre suf t : List Byte} {x y : Byte}

/-! ## The buffer -/

theorem storeAt_run (pre suf : List Byte) (x y : Byte) :
    storeAt (pre ++ y :: suf) pre.length x = some (pre ++ x :: suf) := by
  have hin : (0 : Int) ≤ pre.length ∧ (pre.length : Int) < (pre ++ y :: suf).length := by
    rw [List.length_append, List.length_cons]
    omega
  unfold storeAt
  rw [if_pos hin, Int.toNat_natCast, List.set_append_right _ _ (Nat.le_refl _), Nat.sub_self,
    List.set_cons_zero]

theorem storeAt_outside (h : i < 0 ∨ buf.length ≤ i) : storeAt buf i x = none :=
  if_neg (by omega)

theorem loadAt_run (pre suf : List Byte) (x : Byte) :
    loadAt (pre ++ x :: suf) pre.length = some x := by
  have hin : (0 : Int) ≤ pre.length ∧ (pre.length : Int) < (pre ++ x :: suf).length := by
    rw [List.length_append, List.length_cons]
    omega
  unfold loadAt
  rw [if_pos hin, Int.toNat_natCast, List.getElem?_append_right (Nat.le_refl _), Nat.sub_self,
    List.getElem?_cons_zero]

/-- The string at an offset is written up to its terminator. -/
theorem writeStr_run (suf t : List Byte) : ∀ (fuel : Nat) (pre : List Byte), 0#8 ∉ t →
    t.length < fuel → writeStr (pre ++ (t ++ 0#8 :: suf)) fuel pre.length = some t := by
  induction t with
  | nil =>
    intro fuel pre _ hfuel
    cases fuel with
    | zero => cases hfuel
    | succ fuel =>
      rw [writeStr, List.nil_append, loadAt_run]
      rfl
  | cons x t ih =>
    intro fuel pre ht hfuel
    rw [List.length_cons] at hfuel
    cases fuel with
    | zero => cases hfuel
    | succ fuel =>
      have hx : x ≠ 0#8 := fun h => ht (h ▸ List.mem_cons_self)
      have hrest := ih fuel (pre ++ [x]) (fun h => ht (List.mem_cons_of_mem _ h)) (by omega)
      rw [List.append_assoc, List.singleton_append, List.length_append] at hrest
      rw [writeStr, List.cons_append, loadAt_run]
      simp only [Option.bind_eq_bind, Option.bind_some, if_neg hx]
      rw [show (pre.length : Int) + 1 = ((pre.length + [x].length : Nat) : Int) from rfl, hrest]
      rfl

/-! ## The digits -/

/-- **The loop over the digits** fills in the numeral, the last digit first. -/
theorem fillDigits_run (hb : 1 < b) (hdigit : ∀ v, digit v = char (v % b))
    (hrest : ∀ v, rest v = v / b) : ∀ (fuel n : Nat) (pre junk suf : List Byte),
    (Nat.digits b n).length < fuel → junk.length = (Nat.digits b n).length →
    fillDigits digit rest fuel n (pre.length + junk.length : Nat) (pre ++ (junk ++ suf)) =
      some ((pre.length : Int), pre ++ ((Nat.digits b n).reverse.map char ++ suf)) := by
  intro fuel
  induction fuel with
  | zero => exact fun n pre junk suf hfuel _ => absurd hfuel (Nat.not_lt_zero _)
  | succ fuel ih =>
    intro n pre junk suf hfuel hjunk
    rcases Nat.eq_zero_or_pos n with rfl | hn
    · rw [Nat.digits_zero, List.length_nil] at hjunk
      obtain rfl := List.eq_nil_of_length_eq_zero hjunk
      rw [fillDigits, if_neg (Nat.lt_irrefl 0), Nat.digits_zero]
      rfl
    · -- the last digit goes to the last byte that is free
      rw [Nat.digits_def' hb hn, List.length_cons] at hfuel hjunk
      obtain ⟨front, y, rfl⟩ : ∃ front y, junk = front ++ [y] := by
        refine ⟨junk.dropLast, junk.getLast ?_, (List.dropLast_append_getLast _).symm⟩
        rintro rfl
        cases hjunk
      rw [List.length_append, List.length_singleton] at hjunk
      have hstore := storeAt_run (pre ++ front) suf (digit n) y
      rw [List.append_assoc, List.append_assoc, List.length_append] at hstore
      have hindex : ((pre.length + (front ++ [y]).length : Nat) : Int) - 1 =
          (pre.length + front.length : Nat) := by
        rw [List.length_append, List.length_singleton]
        omega
      have hnext := ih (n / b) pre front (digit n :: suf) (by omega) (by omega)
      rw [fillDigits, if_pos hn, hindex, List.append_assoc, List.singleton_append, hstore]
      simp only [Option.bind_eq_bind, Option.bind_some]
      rw [hrest, hnext, Nat.digits_def' hb hn, List.reverse_cons, List.map_append, hdigit,
        List.append_assoc]
      rfl

theorem hexDigit_eq (v : Nat) : hexDigit v = hexChar true (v % 16) := by
  unfold hexDigit
  rw [show v &&& 0xF = v % 16 from Nat.and_two_pow_sub_one_eq_mod v 4]
  rfl

theorem decDigit_eq (v : Nat) : decDigit v = hexChar false (v % 10) :=
  (if_pos (Nat.mod_lt v (by decide))).symm

/-- The digits of a number other than zero are its numeral. -/
theorem numeralText_digits {u : Bool} (hn : n ≠ 0) :
    numeralText u b n = (Nat.digits b n).reverse.map (hexChar u) := by
  unfold numeralText numeral
  rw [if_neg hn]

theorem numeralText_noNul {u : Bool} (hb : 1 < b) (h16 : b ≤ 16) : 0#8 ∉ numeralText u b n := by
  intro h
  obtain ⟨d, hd, hc⟩ := List.mem_map.mp h
  exact hexChar_ne (by decide) ((numeral_lt hb hd).trans_le h16) hc

/-- A buffer of `N + 1` bytes cut where `k` digits and the terminator begin. -/
theorem buffer_split {N k : Nat} (hbuf : buf.length = N + 1) (hk : k ≤ N) :
    ∃ pre junk : List Byte, ∃ y, buf = pre ++ (junk ++ [y]) ∧ pre.length = N - k ∧
      junk.length = k := by
  have hlast : (buf.drop N).length = 1 := by
    rw [List.length_drop]
    omega
  obtain ⟨y, hy⟩ := List.length_eq_one_iff.mp hlast
  refine ⟨buf.take (N - k), (buf.take N).drop (N - k), y, ?_, ?_, ?_⟩
  · have hfront : buf.take (N - k) = (buf.take N).take (N - k) := by
      rw [List.take_take, Nat.min_eq_left (Nat.sub_le N k)]
    rw [← hy, ← List.append_assoc, hfront, List.take_append_drop, List.take_append_drop]
  · rw [List.length_take]
    omega
  · rw [List.length_drop, List.length_take]
    omega

/-- The terminator and the digits: `pre` is the room that is left in front of them. -/
theorem filled_run {N : Nat} (fuel : Nat) (hb : 1 < b) (hdigit : ∀ v, digit v = char (v % b))
    (hrest : ∀ v, rest v = v / b) (hbuf : buf.length = N + 1)
    (hn : (Nat.digits b n).length ≤ N) (hfuel : (Nat.digits b n).length < fuel) :
    ∃ pre filled : List Byte, pre.length = N - (Nat.digits b n).length ∧
      storeAt buf N 0#8 = some filled ∧ fillDigits digit rest fuel n N filled =
        some ((pre.length : Int), pre ++ ((Nat.digits b n).reverse.map char ++ [0#8])) := by
  obtain ⟨pre, junk, y, rfl, hpre, hjunk⟩ := buffer_split hbuf hn
  have hstore := storeAt_run (pre ++ junk) [] 0#8 y
  have hfill := fillDigits_run hb hdigit hrest fuel n pre junk [0#8] hfuel hjunk
  have hN : pre.length + junk.length = N := by omega
  rw [List.append_assoc, List.append_assoc, List.length_append, hN] at hstore
  rw [hN] at hfill
  exact ⟨pre, pre ++ (junk ++ [0#8]), hpre, hstore, hfill⟩

/-- The number of digits of a 64-bit number. -/
theorem digits_length_le (v : BitVec 64) {j : Nat} (hb : 1 < b) (h : 2 ^ 64 ≤ b ^ j) :
    (Nat.digits b v.toNat).length ≤ j :=
  (Nat.digits_length_le_iff hb v.toNat).mpr (v.isLt.trans_le h)

/-! ## `write_hex` -/

/-- `write_hex` wrote the numeral and stored inside of its buffer. -/
def WritesHex (buf : Vector Byte 18) (v : BitVec 64) : Prop :=
  writeHex buf v = some (ascii ['0', 'x'] ++ numeralText true 16 v.toNat)

/-- The digits are in the buffer, `pre` being the room in front of them. -/
theorem writeHex_eq (buf : Vector Byte 18) {v : BitVec 64} (hv : v.toNat ≠ 0) :
    ∃ pre : List Byte, pre.length = 17 - (Nat.digits 16 v.toNat).length ∧ writeHex buf v =
      writePrefixed (pre ++ (numeralText true 16 v.toNat ++ [0#8])) pre.length := by
  have hlen := digits_length_le v (j := 16) (b := 16) (by decide) (by decide)
  obtain ⟨pre, filled, hpre, hstore, hfill⟩ := filled_run 21 (by decide) hexDigit_eq
    (fun v => Nat.shiftRight_eq_div_pow v 4) buf.length_toList (n := v.toNat)
    (by omega) (by omega)
  have hterm : storeAt buf.toList 17 0#8 = some filled := hstore
  have hdigits : fillDigits hexDigit (· >>> 4) 21 v.toNat 17 filled =
      some ((pre.length : Int), pre ++ (numeralText true 16 v.toNat ++ [0#8])) := by
    rw [numeralText_digits hv]
    exact hfill
  refine ⟨pre, hpre, ?_⟩
  rw [writeHex, hterm]
  simp only [Option.bind_eq_bind, Option.bind_some, if_neg hv, hdigits]

theorem writeHex_zero (buf : Vector Byte 18) : WritesHex buf 0 := by
  have hterm : storeAt buf.toList 17 0#8 = some (buf.toList.set 17 0#8) :=
    if_pos (by rw [Vector.length_toList]; decide)
  unfold WritesHex
  rw [writeHex, hterm]
  rfl

/-- Two free bytes in front of the digits take the prefix. -/
theorem writePrefixed_run (front : List Byte) (y z : Byte) (ht : 0#8 ∉ t) :
    writePrefixed (front ++ y :: z :: (t ++ [0#8])) (front.length + 2 : Nat) =
      some (ascii ['0', 'x'] ++ t) := by
  have hx := storeAt_run (front ++ [y]) (t ++ [0#8]) (chr 'x') z
  have h0 := storeAt_run front (chr 'x' :: (t ++ [0#8])) (chr '0') y
  have hnul : 0#8 ∉ chr '0' :: chr 'x' :: t := by
    simpa using ⟨by decide, by decide, ht⟩
  have hout := writeStr_run [] (chr '0' :: chr 'x' :: t)
    ((front ++ chr '0' :: chr 'x' :: (t ++ [0#8])).length + 1) front hnul
    (by simp only [List.length_append, List.length_cons]; omega)
  have hfirst : ((front.length + 2 : Nat) : Int) - 1 = (front.length + [y].length : Nat) := by
    rw [List.length_singleton]
    omega
  have hsecond : ((front.length + [y].length : Nat) : Int) - 1 = front.length := by
    rw [List.length_singleton]
    omega
  unfold writePrefixed
  rw [hfirst, hsecond]
  have hx' : storeAt (front ++ y :: z :: (t ++ [0#8])) (front.length + [y].length : Nat) (chr 'x') =
      some (front ++ y :: chr 'x' :: (t ++ [0#8])) := by
    rw [List.append_assoc, List.append_assoc, List.length_append] at hx
    exact hx
  rw [hx']
  simp only [Option.bind_eq_bind, Option.bind_some]
  rw [h0]
  exact hout

/-- With one free byte the `'0'` of the prefix goes before the buffer. -/
theorem writePrefixed_outside (y : Byte) : writePrefixed (y :: t) 1 = none := by
  have hx : storeAt (y :: t) 0 (chr 'x') = some (chr 'x' :: t) := storeAt_run [] t (chr 'x') y
  unfold writePrefixed
  rw [show (1 : Int) - 1 = 0 from rfl, hx]
  simp only [Option.bind_eq_bind, Option.bind_some]
  rw [storeAt_outside (.inl (by decide))]
  rfl

/-- Up to 15 digits leave two bytes for the prefix. -/
theorem writeHex_short (buf : Vector Byte 18) {v : BitVec 64} (h : v.toNat < 2 ^ 60) :
    WritesHex buf v := by
  by_cases hv : v.toNat = 0
  · obtain rfl : v = 0 := BitVec.eq_of_toNat_eq hv
    exact writeHex_zero buf
  have hlen : (Nat.digits 16 v.toNat).length ≤ 15 :=
    (Nat.digits_length_le_iff (by decide) v.toNat).mpr h
  obtain ⟨pre, hpre, hrun⟩ := writeHex_eq buf hv
  obtain ⟨front, y, z, rfl⟩ : ∃ front y z, pre = front ++ [y, z] := by
    obtain ⟨y, z, hyz⟩ := List.length_eq_two.mp
      (show (pre.drop (pre.length - 2)).length = 2 by rw [List.length_drop]; omega)
    exact ⟨pre.take (pre.length - 2), y, z, by rw [← hyz, List.take_append_drop]⟩
  have hnul := numeralText_noNul (u := true) (b := 16) (n := v.toNat) (by decide) (by decide)
  unfold WritesHex
  rw [hrun, List.append_assoc, List.length_append]
  exact writePrefixed_run front y z hnul

/-- Sixteen digits leave one. -/
theorem writeHex_long (buf : Vector Byte 18) {v : BitVec 64} (h : 2 ^ 60 ≤ v.toNat) :
    writeHex buf v = none := by
  have hlen : ¬ (Nat.digits 16 v.toNat).length ≤ 15 := fun hle =>
    absurd ((Nat.digits_length_le_iff (by decide) v.toNat).mp hle) (Nat.not_lt.mpr h)
  have hmax := digits_length_le v (j := 16) (b := 16) (by decide) (by decide)
  obtain ⟨pre, hpre, hrun⟩ := writeHex_eq buf (v := v) (fun h0 => by rw [h0] at h; cases h)
  obtain ⟨y, rfl⟩ := List.length_eq_one_iff.mp (show pre.length = 1 by omega)
  rw [hrun]
  exact writePrefixed_outside y

/-- **`write_hex`** stays inside its buffer, and writes the numeral, for exactly the numbers of at
most 15 digits. -/
theorem write_hex_fits (buf : Vector Byte 18) (v : BitVec 64) :
    (WritesHex buf v ↔ v.toNat < 2 ^ 60) ∧ (writeHex buf v = none ↔ 2 ^ 60 ≤ v.toNat) := by
  rcases Nat.lt_or_ge v.toNat (2 ^ 60) with h | h
  · have hrun := writeHex_short buf h
    refine ⟨⟨fun _ => h, fun _ => hrun⟩, fun hnone => ?_, fun hge => absurd h (Nat.not_lt.mpr hge)⟩
    exact absurd (hnone.symm.trans hrun) nofun
  · have hrun := writeHex_long buf h
    refine ⟨⟨fun hhex => ?_, fun hlt => absurd hlt (Nat.not_lt.mpr h)⟩, fun _ => h, fun _ => hrun⟩
    exact absurd (hrun.symm.trans hhex) nofun

/-- `0x1000000000000000` has 16 digits. -/
theorem write_hex_outside : writeHex (Vector.replicate 18 0#8) 0x1000000000000000#64 = none ∧
    ¬ WritesHex (Vector.replicate 18 0#8) 0x1000000000000000#64 := by
  have hrun : writeHex (Vector.replicate 18 0#8) 0x1000000000000000#64 = none := by decide +kernel
  refine ⟨hrun, ?_⟩
  unfold WritesHex
  rw [hrun]
  exact nofun

/-! ## `write_dec` -/

/-- **`write_dec`** has room for every number. -/
theorem write_dec_fits (buf : Vector Byte 21) (v : BitVec 64) :
    writeDec buf v = some (numeralText false 10 v.toNat) := by
  have hlen := digits_length_le v (j := 20) (b := 10) (by decide) (by decide)
  obtain ⟨pre, filled, hpre, hstore, hfill⟩ := filled_run 21 (by decide) decDigit_eq
    (fun v => rfl) buf.length_toList (n := v.toNat) hlen (by omega)
  have hterm : storeAt buf.toList 20 0#8 = some filled := hstore
  rw [writeDec, hterm]
  simp only [Option.bind_eq_bind, Option.bind_some]
  split
  · rename_i h0
    rw [h0]
    rfl
  · rename_i hv
    have hdigits : fillDigits decDigit (· / 10) 21 v.toNat 20 filled =
        some ((pre.length : Int), pre ++ (numeralText false 10 v.toNat ++ [0#8])) := by
      rw [numeralText_digits hv]
      exact hfill
    have hnul := numeralText_noNul (u := false) (b := 10) (n := v.toNat) (by decide) (by decide)
    rw [hdigits]
    exact writeStr_run [] _ _ pre hnul
      (by simp only [List.length_append, List.length_singleton]; omega)

end Show

end FtMalloc
