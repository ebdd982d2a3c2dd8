import FtMalloc.Abstract.Format

/-!
# The output functions write numerals

`ft_numlen_base` counts the digits of the numeral, and the recursion of `ft_putnbr_base` writes
them: the rest of the number first, by induction on the levels, then its last digit.

Results:
* `ftNumlenBase_eq`: the digit counter.
* `putnbrFrom_run`, `ftPutnbrBase_decimal`: a `long` is written as its decimal numeral, but for the
  least one (`longText`).
* `ftPuthex_run`, `ftPutpointer_run`: an `unsigned long` in hexadecimal.
* `putPaddedHex_run`: with zeros in front up to the width.
* `ftFlagcheck_run`: a conversion writes its text and takes its argument.

Each says what was written and what was returned. The two agree when `write` writes everything
(`Full`); only `ft_putstr` asks it.
-/

namespace FtMalloc

open Lib

namespace Printf

/-! ## The machine -/

/-- Every call to `write` writes everything, and says so. -/
def Full (k : Kernel) : Prop := ∀ out bs, k out bs = bs.length

/-- A `write` that writes everything, for the samples. -/
def fullKernel : Kernel := fun _ bs => bs.length

theorem fullKernel_full : Full fullKernel := fun _ _ => rfl

/-- The console after some output. -/
def Console.put (c : Console) (bs : List Byte) : Console := { c with written := c.written ++ bs }

variable {k : Kernel} {c : Console} {i j : Int} {b n : Nat} {u : Bool} {B bs : List Byte}
  {f : Format}

@[simp] theorem put_nil (c : Console) : c.put [] = c := by
  simp [Console.put]

@[simp] theorem put_put (c : Console) (bs cs : List Byte) :
    (c.put bs).put cs = c.put (bs ++ cs) := by
  simp [Console.put]

theorem toLong_small (h : n < 2 ^ 63) : toLong n = n :=
  Int.bmod_eq_of_le (by omega) (by omega)

theorem vaArg_run {α : Type} {pick : Arg → Option α} {a : Arg} {rest : List Arg} {v : α}
    (hargs : c.args = a :: rest) (hpick : pick a = some v) :
    vaArg pick c = .ok (v, { c with args := rest }) := by
  unfold vaArg
  rw [hargs]
  simp only [hpick]

theorem ftPutchar_run (x : Byte) : ftPutchar k x c = .ok (1, c.put [x]) := rfl

/-! ## Counting digits -/

theorem numlenFrom_eq (hb : 1 < b) (fuel : Nat) : ∀ n i, n < b ^ (fuel + 1) →
    numlenFrom b fuel n i + 1 = i + (numeral b n).length := by
  induction fuel with
  | zero =>
    intro n i h
    rw [Nat.zero_add, Nat.pow_one] at h
    rw [numeral_small h]
    rfl
  | succ fuel ih =>
    intro n i h
    unfold numlenFrom
    split
    · rename_i hge
      have hq : n / b < b ^ (fuel + 1) :=
        Nat.div_lt_of_lt_mul (by rw [Nat.mul_comm, ← Nat.pow_succ]; exact h)
      rw [ih _ _ hq, numeral_step hb hge, List.length_append, List.length_singleton]
      omega
    · rename_i hlt
      rw [numeral_small (by omega)]
      rfl

/-- **The digit counter** (`ft_numlen_base.c:15-26`) counts the digits of the numeral. -/
theorem ftNumlenBase_eq (hb : 1 < b) (h : n < 2 ^ 64) :
    ftNumlenBase n b = (numeral b n).length := by
  have hle : n < b ^ 65 :=
    calc n < 2 ^ 65 := by omega
      _ ≤ b ^ 65 := Nat.pow_le_pow_left hb 65
  have h := numlenFrom_eq hb 64 n 1 hle
  unfold ftNumlenBase
  omega

theorem numeral_length_small (hb : 1 < b) (h : n < 2 ^ 64) : (numeral b n).length ≤ 64 :=
  numeral_length_le hb (by decide) (h.trans_le (Nat.pow_le_pow_left hb 64))

/-! ## Writing digits -/

/-- `B` is the string of the digits of base `b`, in upper case for `u`: what the callers pass as
`base`. -/
def IsBase (u : Bool) (b : Nat) (B : List Byte) : Prop := ∀ d < b, B[d]? = some (hexChar u d)

theorem decimalBase_isBase : IsBase false 10 decimalBase := by
  unfold IsBase
  decide

theorem lowerBase_isBase : IsBase false 16 lowerBase := by
  unfold IsBase
  decide

theorem upperBase_isBase : IsBase true 16 upperBase := by
  unfold IsBase
  decide

theorem putDigit_run (hB : IsBase u b B) {d : Nat} (hd : d < b) :
    putDigit k B d c = .ok ((), c.put [hexChar u d]) := by
  unfold putDigit
  rw [Int.toNat_natCast, hB d hd]
  rfl

/-- The sign of an integer, before its digits. -/
def signText (i : Int) : List Byte := if i < 0 then [chr '-'] else []

theorem signText_nat (n : Nat) : signText n = [] := if_neg (by omega)

theorem putSign_run (i : Int) :
    putSign k i c = .ok (((signText i).length, i.natAbs), c.put (signText i)) := by
  unfold putSign signText
  split
  · rename_i h
    refine Exec.bind_ok (a := k c.written [chr '-']) rfl ?_
    rw [show -i = (i.natAbs : Int) by omega]
    rfl
  · rename_i h
    rw [put_nil, show (i.natAbs : Int) = i by omega]
    rfl

/-- One level of `ft_putnbr_base`: the sign, the rest of the number if there is any, and the last
digit. -/
theorem putnbrFrom_level (hB : IsBase u b B) (hb : 1 < b) (fuel : Nat) (hlong : i.natAbs < 2 ^ 63)
    (hrest : b ≤ i.natAbs → ∃ r, putnbrFrom k B b fuel (i.natAbs / b : Nat) (c.put (signText i)) =
      .ok (r, (c.put (signText i)).put (numeralText u b (i.natAbs / b)))) :
    putnbrFrom k B b (fuel + 1) i c =
      .ok (((signText i).length + (numeral b i.natAbs).length : Nat),
        c.put (signText i ++ numeralText u b i.natAbs)) := by
  have hdigit : putDigit k B (i.natAbs % b : Nat) = putDigit k B ((i.natAbs : Int).tmod b) :=
    congrArg _ (Int.ofNat_tmod _ _)
  have hd : i.natAbs % b < b := Nat.mod_lt _ (by omega)
  have hlen := numeral_length_small hb (show i.natAbs < 2 ^ 64 by omega)
  have hsign : (signText i).length ≤ 1 := by
    unfold signText
    split <;> simp
  have hret : wrapInt ((signText i).length +
      (ftNumlenBase (i.natAbs : Int).toNat (b : Int).toNat : Nat)) =
      ((signText i).length + (numeral b i.natAbs).length : Nat) := by
    rw [Int.toNat_natCast, Int.toNat_natCast, ftNumlenBase_eq hb (by omega)]
    exact wrapInt_nat (by omega)
  unfold putnbrFrom
  refine Exec.if_false_run (by simp only [llongMin]; omega) ?_
  refine Exec.bind_ok (putSign_run i) ?_
  rw [← hdigit, hret]
  rcases Nat.lt_or_ge i.natAbs b with hlt | hge
  · refine Exec.bind_ok (Exec.if_false_run (Int.not_le.mpr (Int.ofNat_lt.mpr hlt)) rfl) ?_
    refine Exec.bind_ok (putDigit_run hB hd) ?_
    rw [put_put, numeralText, numeral_small hlt, Nat.mod_eq_of_lt hlt]
    rfl
  · obtain ⟨r, hr⟩ := hrest hge
    rw [Int.ofNat_tdiv] at hr
    refine Exec.bind_ok (Exec.if_true_run (Int.ofNat_le.mpr hge) hr) ?_
    refine Exec.bind_ok (putDigit_run hB hd) ?_
    rw [put_put, put_put, numeralText, numeralText, numeral_step hb hge, List.map_append]
    rfl

/-- **The recursion of `ft_putnbr_base`** (`ft_putnbr_base.c:15-38`), by induction on its levels: as
many as the numeral has digits. -/
theorem putnbrFrom_run (hB : IsBase u b B) (hb : 1 < b) (fuel : Nat) : ∀ i c,
    i.natAbs < 2 ^ 63 → i.natAbs < b ^ (fuel + 1) → putnbrFrom k B b (fuel + 1) i c =
      .ok (((signText i).length + (numeral b i.natAbs).length : Nat),
        c.put (signText i ++ numeralText u b i.natAbs)) := by
  induction fuel with
  | zero =>
    intro i c hlong h
    refine putnbrFrom_level hB hb 0 hlong fun hge => ?_
    rw [Nat.zero_add, Nat.pow_one] at h
    omega
  | succ fuel ih =>
    intro i c hlong h
    refine putnbrFrom_level hB hb (fuel + 1) hlong fun hge => ?_
    have hq : i.natAbs / b < b ^ (fuel + 1) :=
      Nat.div_lt_of_lt_mul (by rw [Nat.mul_comm, ← Nat.pow_succ]; exact h)
    have hle : i.natAbs / b ≤ i.natAbs := Nat.div_le_self _ _
    have hrun := ih (i.natAbs / b : Nat) (c.put (signText i))
    rw [Int.natAbs_natCast, signText_nat, List.nil_append] at hrun
    exact ⟨_, hrun (by omega) hq⟩

/-- A number without a sign, in any base. -/
theorem ftPutnbrBase_nat (hB : IsBase u b B) (hb : 1 < b) (h : n < 2 ^ 63) :
    ftPutnbrBase k n B b c = .ok ((numeral b n).length, c.put (numeralText u b n)) := by
  have hle : n < b ^ 65 :=
    calc n < 2 ^ 65 := by omega
      _ ≤ b ^ 65 := Nat.pow_le_pow_left hb 65
  have hrun := putnbrFrom_run (k := k) (c := c) hB hb 64 n (by simpa using h) (by simpa using hle)
  rw [Int.natAbs_natCast, signText_nat, List.length_nil, Nat.zero_add, List.nil_append] at hrun
  exact hrun

theorem decimal_eq (i : Int) : decimal i = signText i ++ numeralText false 10 i.natAbs := by
  unfold decimal signText
  split <;> rfl

/-- **A `long` in decimal**: the text is `longText`, also for the least one, for which the source
has a text of its own (`ft_putnbr_base.c:20-24`). -/
theorem ftPutnbrBase_decimal (h : llongMin ≤ i) (h' : i < 2 ^ 63) :
    ftPutnbrBase k i decimalBase 10 c = .ok ((longText i).length, c.put (longText i)) := by
  simp only [llongMin] at h
  unfold longText
  by_cases hmin : i = llongMin
  · rw [if_pos hmin, hmin]
    rfl
  · have hne : i ≠ -2 ^ 63 := hmin
    have hle : i.natAbs < 10 ^ 65 :=
      calc i.natAbs < 2 ^ 63 := by omega
        _ ≤ 10 ^ 65 := by decide
    rw [if_neg hmin, decimal_eq, List.length_append, length_numeralText]
    exact putnbrFrom_run decimalBase_isBase (by decide) 64 i c (by omega) hle

/-- **An `unsigned long` in hexadecimal** (`ft_puthex.c:15-27`): after the first division the number
is small enough for the `long` of `ft_putnbr_base`. -/
theorem ftPuthex_run (hB : IsBase u 16 B) (h : n < 2 ^ 64) :
    ftPuthex k n B 16 c = .ok ((numeral 16 n).length, c.put (numeralText u 16 n)) := by
  have hd : n % 16 < 16 := Nat.mod_lt _ (by decide)
  have hlen := numeral_length_small (b := 16) (by decide) h
  have hret : wrapInt (ftNumlenBase n 16 : Nat) = (numeral 16 n).length := by
    rw [ftNumlenBase_eq (by decide) h]
    exact wrapInt_nat (by omega)
  unfold ftPuthex
  rw [hret]
  rcases Nat.lt_or_ge n 16 with hlt | hge
  · refine Exec.bind_ok (Exec.if_false_run (by omega) rfl) ?_
    refine Exec.bind_ok (putDigit_run hB hd) ?_
    rw [numeralText, numeral_small hlt, Nat.mod_eq_of_lt hlt]
    rfl
  · have hrest : ftPutnbrBase k (toLong (n / 16)) B (16 : Nat) c =
        .ok ((numeral 16 (n / 16)).length, c.put (numeralText u 16 (n / 16))) := by
      rw [toLong_small (by omega)]
      exact ftPutnbrBase_nat hB (by decide) (by omega)
    refine Exec.bind_ok (Exec.if_true_run hge hrest) ?_
    refine Exec.bind_ok (putDigit_run hB hd) ?_
    rw [put_put, numeralText, numeralText, numeral_step (by decide) hge, List.map_append]
    rfl

/-- The two values with a text of their own have the text of the others. -/
theorem numeral_halves :
    numeralText false 16 (2 ^ 63) = ascii ['8', '0', '0', '0', '0', '0', '0', '0', '0', '0', '0',
      '0', '0', '0', '0', '0'] ∧
    numeralText false 16 (2 ^ 63 - 1) = ascii ['7', 'f', 'f', 'f', 'f', 'f', 'f', 'f', 'f', 'f',
      'f', 'f', 'f', 'f', 'f', 'f'] := by
  decide +kernel

theorem toLong_cases (h : n < 2 ^ 64) : toLong n = n ∨ toLong n = n - 2 ^ 64 ∧ 2 ^ 63 ≤ n := by
  rcases Nat.lt_or_ge n (2 ^ 63) with hlt | hge
  · exact .inl (toLong_small hlt)
  · refine .inr ⟨?_, hge⟩
    unfold toLong
    rw [Int.bmod_eq_iff (by decide)]
    omega

theorem putstrFrom_run (bs : List Byte) : ∀ i c, ∃ r,
    putstrFrom k bs i c = .ok (r, c.put bs) ∧
      ∀ n : Nat, Full k → i = wrapInt n → r = wrapInt (n + bs.length : Nat) := by
  induction bs with
  | nil =>
    intro i c
    exact ⟨i, by rw [put_nil]; rfl, fun n _ hi => hi⟩
  | cons x bs ih =>
    intro i c
    obtain ⟨r, hr, hret⟩ := ih (wrapInt (i + k c.written [x])) (c.put [x])
    refine ⟨r, Exec.bind_ok rfl (hr.trans ?_), fun n hk hi => ?_⟩
    · rw [put_put]
      rfl
    · rw [hret (n + 1) hk ?_, List.length_cons, Nat.add_right_comm]
      · rfl
      · rw [hk, hi, wrapInt_add]
        rfl

/-- **`ft_putstr`** (`ft_putstr.c:15-30`) of a string that is not NULL: its bytes, and their number
if `write` writes everything. -/
theorem ftPutstr_run (s : CString) : ∃ r, ftPutstr k (some s) c = .ok (r, c.put s.bytes) ∧
    (Full k → r = wrapInt s.bytes.length) := by
  obtain ⟨r, hr, hret⟩ := putstrFrom_run (k := k) s.bytes 0 c
  exact ⟨r, hr, fun hk => (hret 0 hk rfl).trans (by rw [Nat.zero_add])⟩

/-- **A pointer** (`ft_putpointer.c:15-33`): `0x` and the digits. -/
theorem ftPutpointer_run (h : n < 2 ^ 64) : ftPutpointer k n c =
    .ok (((ascii ['0', 'x'] ++ numeralText false 16 n).length : Nat),
      c.put (ascii ['0', 'x'] ++ numeralText false 16 n)) := by
  have hlen := numeral_length_small (b := 16) (by decide) h
  obtain ⟨hmin, hmax⟩ := numeral_halves
  unfold ftPutpointer
  split
  · rename_i hn
    have heq : n = 2 ^ 63 := by
      rcases toLong_cases h with h1 | ⟨h1, -⟩ <;> omega
    rw [heq, hmin]
    rfl
  split
  · rename_i hn
    have heq : n = 2 ^ 63 - 1 := by
      rcases toLong_cases h with h1 | ⟨h1, -⟩ <;> omega
    rw [heq, hmax]
    rfl
  · obtain ⟨r, hr, -⟩ := ftPutstr_run (k := k) (c := c) (.ofChars ['0', 'x'])
    refine Exec.bind_ok hr ?_
    refine Exec.bind_ok (ftPuthex_run lowerBase_isBase h) ?_
    have hret : wrapInt ((numeral 16 n).length + 2) = (2 + (numeral 16 n).length : Nat) :=
      (wrapInt_small (by omega) (by omega)).trans (by omega)
    rw [put_put, List.length_append, length_numeralText, hret]
    rfl

/-! ## Conversions -/

/-- The padding loop (`ft_flagcheck.c:15-33`), `p` zeros having been written. -/
theorem padFrom_run (hz : f.zero ≠ 0) (hw : f.width < 2 ^ 31) (len fuel : Nat) : ∀ (p : Nat) c,
    f.width.toNat ≤ len + p + fuel → len + p < 2 ^ 31 → padFrom k f len fuel p c =
      .ok ((p + (f.width.toNat - (len + p)) : Nat),
        c.put (List.replicate (f.width.toNat - (len + p)) (chr '0'))) := by
  induction fuel with
  | zero =>
    intro p c hfuel _
    rw [Nat.sub_eq_zero_of_le (show f.width.toNat ≤ len + p from hfuel), List.replicate_zero,
      put_nil]
    rfl
  | succ fuel ih =>
    intro p c hfuel hp
    have hidx : wrapInt (len + p) = (len + p : Nat) := wrapInt_nat hp
    unfold padFrom
    rw [hidx]
    by_cases hlt : ((len + p : Nat) : Int) < f.width
    · have hnext : wrapInt (p + 1) = (p + 1 : Nat) := wrapInt_nat (n := p + 1) (by omega)
      have hone : f.width.toNat - (len + p) = f.width.toNat - (len + (p + 1)) + 1 := by omega
      refine Exec.if_true_run ⟨hz, hlt⟩ (Exec.bind_ok (ftPutchar_run _) ?_)
      rw [hnext, ih (p + 1) _ (by omega) (by omega), put_put, hone, List.replicate_succ,
        Nat.add_right_comm p 1, Nat.add_assoc p]
      rfl
    · refine Exec.if_false_run (fun h => hlt h.2) ?_
      rw [Nat.sub_eq_zero_of_le (by omega), List.replicate_zero, put_nil]
      rfl

/-- The zeros in front of `len` digits: none without the flag, and none when the digits fill the
width. -/
def padding (f : Format) (len : Nat) : Nat := if f.zero ≠ 0 then f.width.toNat - len else 0

theorem paddedText_eq (f : Format) (n : Nat) : paddedText f n =
    List.replicate (padding f (numeral 16 n).length) (chr '0') ++
      numeralText (f.type = chr 'X') 16 n := by
  rw [← length_numeralText (f.type = chr 'X')]
  rfl

theorem padFrom_all (hw : f.width < 2 ^ 31) {len : Nat} (hlen : len < 2 ^ 31) :
    padFrom k f len f.width.toNat 0 c =
      .ok ((padding f len : Nat), c.put (List.replicate (padding f len) (chr '0'))) := by
  unfold padding
  split
  · rename_i hz
    have hrun := padFrom_run (k := k) hz hw len f.width.toNat 0 c (by omega) (by omega)
    rw [Nat.add_zero, Nat.zero_add] at hrun
    exact hrun
  · rename_i hz
    rw [List.replicate_zero, put_nil]
    cases f.width.toNat with
    | zero => rfl
    | succ fuel => exact Exec.if_false_run (fun h => hz h.1) rfl

/-- **Zero-padded hexadecimal** (`ft_flagcheck.c:15-33`), for `%x` and `%X` with any width. -/
theorem putPaddedHex_run (hf : f.type = chr 'x' ∨ f.type = chr 'X') (hw : f.width < 2 ^ 31)
    {m : BitVec 32} {rest : List Arg} (hargs : c.args = .unsigned m :: rest) :
    putPaddedHex k f c = .ok (wrapInt (paddedText f m.toNat).length,
      { c with args := rest }.put (paddedText f m.toNat)) := by
  have hm : m.toNat < 2 ^ 64 := m.isLt.trans (by decide)
  have hlen := numeral_length_small (b := 16) (by decide) hm
  have hcast : castInt (ftNumlenBase m.toNat 16) = (numeral 16 m.toNat).length := by
    rw [ftNumlenBase_eq (by decide) hm]
    exact wrapInt_nat (by omega)
  have hbase : IsBase (f.type = chr 'X') 16
      (if f.type = chr 'x' then lowerBase else upperBase) := by
    rcases hf with h | h
    · rw [h]
      exact lowerBase_isBase
    · rw [h]
      exact upperBase_isBase
  unfold putPaddedHex
  refine Exec.bind_ok (vaArg_run hargs (show Arg.unsigned? (.unsigned m) = some m from rfl)) ?_
  refine Exec.bind_ok (by rw [hcast]; exact padFrom_all hw (by omega)) ?_
  refine Exec.bind_ok (ftPuthex_run hbase hm) ?_
  rw [put_put, hcast, paddedText_eq, List.length_append, List.length_replicate, length_numeralText,
    Nat.add_comm]
  rfl

/-! ## `ft_flagcheck` -/

/-- A conversion prints `bs` and leaves the arguments `rest`: the count is right if `write` writes
everything. -/
def Prints (k : Kernel) (x : Exec Fault Console Int) (c : Console) (bs : List Byte)
    (rest : List Arg) : Prop :=
  ∃ r, x c = .ok (r, { c with args := rest }.put bs) ∧ (Full k → r = wrapInt bs.length)

theorem Prints.of_run {x : Exec Fault Console Int} {rest : List Arg}
    (h : x c = .ok (wrapInt bs.length, { c with args := rest }.put bs)) :
    Prints k x c bs rest := ⟨_, h, fun _ => rfl⟩

theorem Prints.of_small {x : Exec Fault Console Int} {rest : List Arg} (hlen : bs.length < 2 ^ 31)
    (h : x c = .ok ((bs.length : Nat), { c with args := rest }.put bs)) :
    Prints k x c bs rest := ⟨_, h, fun _ => (wrapInt_nat hlen).symm⟩

/-- A conversion after its argument was read. -/
theorem Prints.arg {α : Type} {pick : Arg → Option α} {x : α → Exec Fault Console Int} {a : Arg}
    {rest : List Arg} {v : α} (hargs : c.args = a :: rest) (hpick : pick a = some v)
    (h : Prints k (x v) { c with args := rest } bs rest) :
    Prints k (vaArg pick >>= x) c bs rest := by
  obtain ⟨r, hr, hret⟩ := h
  exact ⟨r, Exec.bind_ok (vaArg_run hargs hpick) hr, hret⟩

theorem decimal_length (h : i.natAbs < 2 ^ 64) : (decimal i).length < 2 ^ 31 := by
  have hlen := numeral_length_small (b := 10) (by decide) h
  unfold decimal
  split
  · rw [List.length_cons, length_numeralText]
    omega
  · rw [length_numeralText]
    omega

theorem longText_length (h : i.natAbs < 2 ^ 64) : (longText i).length < 2 ^ 31 := by
  unfold longText
  split
  · decide +kernel
  · exact decimal_length h

theorem longText_decimal (h : llongMin < i) : longText i = decimal i := if_neg (by omega)

/-- The argument of a conversion is there, and is of the type the conversion reads. -/
def Supplied (f : Format) (args : List Arg) : Prop :=
  ∀ q, kindOf f.type = some q → ∃ a rest, args = a :: rest ∧ a.kind = q

theorem decimal_prints {rest : List Arg} (h : llongMin ≤ i) (h' : i < 2 ^ 63) :
    Prints k (ftPutnbrBase k i decimalBase 10) { c with args := rest } (longText i) rest :=
  .of_small (longText_length (by simp only [llongMin] at h; omega)) (ftPutnbrBase_decimal h h')

theorem Supplied.take {args : List Arg} {q : Kind} (h : Supplied f args)
    (hq : kindOf f.type = some q) :
    ∃ a rest, args = a :: rest ∧ a.kind = q ∧ convText f args = (argText f a, rest) := by
  obtain ⟨a, rest, rfl, ha⟩ := h q hq
  refine ⟨a, rest, rfl, ha, ?_⟩
  unfold convText
  rw [hq]

theorem toLong_lt (n : Nat) : toLong n < 2 ^ 63 := by
  have h := Int.bmod_lt (x := n) (m := 2 ^ 64) (Nat.two_pow_pos 64)
  unfold toLong
  omega

theorem le_toLong (n : Nat) : llongMin ≤ toLong n := by
  have h := Int.le_bmod (x := n) (m := 2 ^ 64) (Nat.two_pow_pos 64)
  unfold toLong llongMin
  omega

/-! The branches of `ft_flagcheck`, one by one. -/

section Branches

variable (hargs : Supplied f c.args)

include hargs

/-- A branch of `ft_flagcheck` that reads its argument and prints it. -/
theorem branch_prints {α : Type} {pick : Arg → Option α} {x : α → Exec Fault Console Int}
    {q : Kind} (hq : kindOf f.type = some q)
    (h : ∀ a rest, a.kind = q →
      ∃ v, pick a = some v ∧ Prints k (x v) { c with args := rest } (argText f a) rest) :
    Prints k (vaArg pick >>= x) c (convText f c.args).1 (convText f c.args).2 := by
  obtain ⟨a, rest, hc, hk, hconv⟩ := hargs.take hq
  obtain ⟨v, hv, hprints⟩ := h a rest hk
  simp only [hconv]
  exact .arg hc hv hprints

theorem int_prints (hf : f.type = chr 'd' ∨ f.type = chr 'i') :
    Prints k (do
      let i ← vaArg Arg.int?
      ftPutnbrBase k i.toInt decimalBase 10) c (convText f c.args).1 (convText f c.args).2 := by
  refine branch_prints hargs (q := .int) (by rcases hf with h | h <;> rw [h] <;> rfl) ?_
  intro a rest hk
  cases a with
  | int m =>
    have h1 := m.le_toInt
    have h2 := m.toInt_lt
    have htext : argText f (.int m) = longText m.toInt := by
      rw [longText_decimal (by simp only [llongMin]; omega)]
      exact if_neg (by rcases hf with h | h <;> rw [h] <;> decide)
    rw [htext]
    exact ⟨m, rfl, decimal_prints (by simp only [llongMin]; omega) (by omega)⟩
  | _ => cases hk

theorem char_prints (hf : f.type = chr 'c') :
    Prints k (do
      let i ← vaArg Arg.int?
      ftPutchar k (i.setWidth 8)) c (convText f c.args).1 (convText f c.args).2 := by
  refine branch_prints hargs (q := .int) (by rw [hf]; rfl) ?_
  intro a rest hk
  cases a with
  | int m =>
    rw [show argText f (.int m) = [m.setWidth 8] from if_pos hf]
    exact ⟨m, rfl, .of_small (show 1 < 2 ^ 31 by decide) (ftPutchar_run _)⟩
  | _ => cases hk

theorem string_prints (hf : f.type = chr 's') :
    Prints k (do
      let s ← vaArg Arg.string?
      ftPutstr k s) c (convText f c.args).1 (convText f c.args).2 := by
  refine branch_prints hargs (q := .string) (by rw [hf]; rfl) ?_
  intro a rest hk
  cases a with
  | string s =>
    refine ⟨s, rfl, ?_⟩
    cases s with
    | none => exact ⟨_, rfl, fun hk => by rw [hk]; rfl⟩
    | some s => exact ftPutstr_run s
  | _ => cases hk

theorem unsigned_prints (hf : f.type = chr 'u') :
    Prints k (do
      let n ← vaArg Arg.unsigned?
      ftPutnbrBase k n.toNat decimalBase 10) c (convText f c.args).1 (convText f c.args).2 := by
  refine branch_prints hargs (q := .unsigned) (by rw [hf]; rfl) ?_
  intro a rest hk
  cases a with
  | unsigned m =>
    have hm := m.isLt
    have htext : argText f (.unsigned m) = longText m.toNat := by
      rw [longText_decimal (by simp only [llongMin]; omega)]
      exact if_pos hf
    rw [htext]
    exact ⟨m, rfl, decimal_prints (by simp only [llongMin]; omega) (by omega)⟩
  | _ => cases hk

theorem hex_prints (hf : f.type = chr 'x' ∨ f.type = chr 'X') (hw : f.width < 2 ^ 31) :
    Prints k (putPaddedHex k f) c (convText f c.args).1 (convText f c.args).2 := by
  obtain ⟨a, rest, hc, hk, hconv⟩ :=
    hargs.take (q := .unsigned) (by rcases hf with h | h <;> rw [h] <;> rfl)
  simp only [hconv]
  cases a with
  | unsigned m =>
    have htext : argText f (.unsigned m) = paddedText f m.toNat :=
      if_neg (by rcases hf with h | h <;> rw [h] <;> decide)
    rw [htext]
    exact .of_run (putPaddedHex_run hf hw hc)
  | _ => cases hk

theorem pointer_prints (hf : f.type = chr 'p') :
    Prints k (do
      let n ← vaArg Arg.pointer?
      ftPutpointer k n.toNat) c (convText f c.args).1 (convText f c.args).2 := by
  refine branch_prints hargs (q := .pointer) (by rw [hf]; rfl) ?_
  intro a rest hk
  cases a with
  | pointer m =>
    have hlen := numeral_length_small (b := 16) (by decide) m.isLt
    refine ⟨m, rfl, .of_small ?_ (ftPutpointer_run m.isLt)⟩
    rw [argText, List.length_append, length_numeralText]
    exact Nat.lt_of_le_of_lt (Nat.add_le_add_left hlen _) (by decide)
  | _ => cases hk

theorem size_prints (hf : f.type = chr 'z') :
    Prints k (do
      let n ← vaArg Arg.size?
      ftPutnbrBase k (toLong n.toNat) decimalBase 10) c
      (convText f c.args).1 (convText f c.args).2 := by
  refine branch_prints hargs (q := .size) (by rw [hf]; rfl) ?_
  intro a rest hk
  cases a with
  | size m => exact ⟨m, rfl, decimal_prints (le_toLong _) (toLong_lt _)⟩
  | _ => cases hk

end Branches

/-- A type that takes no argument: a percent sign, or nothing. -/
theorem other_prints (hnone : kindOf f.type = none) :
    Prints k (if f.type = chr '%' then ftPutchar k (chr '%') else pure 0) c
      (convText f c.args).1 (convText f c.args).2 := by
  have hconv : convText f c.args = (if f.type = chr '%' then [chr '%'] else [], c.args) := by
    unfold convText
    rw [hnone]
  simp only [hconv]
  split
  · exact .of_small (show 1 < 2 ^ 31 by decide) (ftPutchar_run _)
  · exact .of_small (show 0 < 2 ^ 31 by decide) (by rw [put_nil]; rfl)

/-- **A conversion writes its text and takes its argument** (`ft_flagcheck.c:35-54`), and no other:
one case for each type. -/
theorem ftFlagcheck_run (hw : f.width < 2 ^ 31) (hargs : Supplied f c.args) :
    Prints k (ftFlagcheck k f) c (convText f c.args).1 (convText f c.args).2 := by
  unfold ftFlagcheck
  split
  · exact int_prints hargs ‹_›
  split
  · exact char_prints hargs ‹_›
  split
  · exact string_prints hargs ‹_›
  split
  · exact unsigned_prints hargs ‹_›
  split
  · exact hex_prints hargs ‹_› hw
  split
  · exact pointer_prints hargs ‹_›
  split
  · exact size_prints hargs ‹_›
  · rename_i hd hc hs hu hx hp hz
    exact other_prints (by simp [kindOf, hd, hc, hs, hu, hx, hp, hz])

end Printf

end FtMalloc
