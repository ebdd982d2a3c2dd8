import FtMalloc.Refine.Output

/-!
# `ft_printf` writes what its format means

The loop of `ft_printf` against the pieces of the format. Its index is an `int`: the byte it stands
at is byte `n` of the format as long as `n` is below `2 ^ 31`.

Results:
* `parseFormat_run`, `parseFormat_outside`: `parse_format` reads the conversion after a percent
  sign, or leaves the format with its index.
* `printFrom_run`: from any piece on, the loop writes what the pieces stand for; if the format ends
  inside of a conversion, or is too long for the index, it reads outside of the format.
* `ftPrintf_run`: the same of `ft_printf`.
-/

namespace FtMalloc

open Lib

namespace Printf

variable {k : Kernel} {s : CString} {c c' : Console} {i j : Int} {n m q : Nat} {x : Byte}
  {t ds pre : List Byte} {args rest : List Arg} {α β : Type}

/-! ## Reading the format -/

/-- An index outside of the string and its terminator, where the source would read somebody else's
byte. -/
def Outside (s : CString) (i : Int) : Prop := i < 0 ∨ s.length < i

/-- The run stops at a read outside of the format, and the fault says at which index. -/
def ReadsOutside (s : CString) (p : Exec Fault Console α) (c : Console) : Prop :=
  ∃ i, p c = .error (.outside i) ∧ Outside s i

theorem ReadsOutside.bind {p : Exec Fault Console α} (h : ReadsOutside s p c)
    (f : α → Exec Fault Console β) : ReadsOutside s (p >>= f) c := by
  obtain ⟨i, hi, ho⟩ := h
  exact ⟨i, Exec.bind_error hi, ho⟩

theorem ReadsOutside.after {p : Exec Fault Console α} {f : α → Exec Fault Console β} {a : α}
    (h : p c = .ok (a, c')) (hf : ReadsOutside s (f a) c') : ReadsOutside s (p >>= f) c := by
  obtain ⟨i, hi, ho⟩ := hf
  exact ⟨i, Exec.bind_ok h hi, ho⟩

theorem wrapInt_succ (n : Nat) : wrapInt (wrapInt n + 1) = wrapInt (n + 1 : Nat) :=
  (wrapInt_add n 1).trans (congrArg wrapInt (Int.natCast_succ n).symm)

theorem readAt_run (hd : s.bytes.drop n = t) (hle : n ≤ s.length) (hn : n < 2 ^ 31) :
    readAt s (wrapInt n) c = .ok (t.headD 0#8, c) := by
  rw [wrapInt_nat hn]
  unfold readAt
  rw [CString.at_drop hd hle]

theorem outside_stops (h : Outside s i) : ReadsOutside s (readAt s i) c := by
  refine ⟨i, ?_, h⟩
  unfold readAt
  rw [CString.at_outside h]

/-- Past the terminator, and from `2 ^ 31` on, where the `int` has wrapped to a negative index. -/
theorem readAt_outside (h : s.length < q ∨ 2 ^ 31 ≤ q) (hq : q < 2 ^ 32) :
    ReadsOutside s (readAt s (wrapInt q)) c := by
  refine outside_stops ?_
  rcases Nat.lt_or_ge q (2 ^ 31) with hlt | hge
  · rw [wrapInt_nat hlt]
    exact .inr (by omega)
  · exact .inl (wrapInt_over hge hq)

/-! ## `parse_format` -/

theorem widthValue_concat (ds : List Byte) (x : Byte) :
    widthValue (ds ++ [x]) = widthValue ds * 10 + (x.toNat - 48) := by
  unfold widthValue
  rw [List.map_append]
  exact numeralValue_concat 10 _ _

/-- What follows the digits of a width is none, the terminator included. -/
theorem not_width_digit (hstop : ∀ x ∈ t.head?, isWidthDigit x = false) :
    isWidthDigit (t.headD 0#8) = false := by
  cases t with
  | nil => decide
  | cons x t => exact hstop x rfl

theorem width_step (hx : isWidthDigit x = true) : wrapInt (wrapInt (widthValue pre) * 10 +
    (x.toNat - 48)) = wrapInt (widthValue (pre ++ [x])) := by
  have h48 : ((x.toNat : Int) - 48) = (x.toNat - 48 : Nat) := by
    simp only [isWidthDigit, decide_eq_true_eq] at hx
    omega
  have hmul : wrapInt (wrapInt (widthValue pre) * 10 + (x.toNat - 48)) =
      wrapInt (widthValue pre * 10 + (x.toNat - 48)) := by
    unfold wrapInt
    rw [← Int.bmod_add_bmod, Int.bmod_mul_bmod, Int.bmod_add_bmod]
  rw [hmul, h48, widthValue_concat, Int.natCast_add, Int.natCast_mul]
  rfl

/-- One digit of the width (`ft_printf.c:25-28`), which multiplies what was read before by 10 in an
`int`. -/
theorem widthFrom_digit (hd : s.bytes.drop n = x :: t) (hx : isWidthDigit x = true)
    (hle : n ≤ s.length) (hn : n < 2 ^ 31) (fuel : Nat) (w : Int) :
    widthFrom s (fuel + 1) (wrapInt n) w c =
      widthFrom s fuel (wrapInt (n + 1 : Nat)) (wrapInt (w * 10 + (x.toNat - 48))) c := by
  rw [widthFrom, ← wrapInt_succ]
  exact Exec.bind_ok (readAt_run hd hle hn) (Exec.if_true_run hx rfl)

/-- The end of the width, at the first byte that is no digit from 1 to 9. -/
theorem widthFrom_stop (hd : s.bytes.drop n = t) (hstop : ∀ x ∈ t.head?, isWidthDigit x = false)
    (hle : n ≤ s.length) (hn : n < 2 ^ 31) (fuel : Nat) (w : Int) :
    widthFrom s (fuel + 1) (wrapInt n) w c = .ok ((w, wrapInt n), c) := by
  rw [widthFrom]
  refine Exec.bind_ok (readAt_run hd hle hn) ?_
  exact Exec.if_false_run (by rw [not_width_digit hstop]; decide) (Exec.pure_run _ _)

/-- The width loop, by induction on the digits that are left. -/
theorem widthFrom_run (hstop : ∀ x ∈ t.head?, isWidthDigit x = false) (ds : List Byte) :
    ∀ fuel n pre, s.bytes.drop n = ds ++ t → (∀ x ∈ ds, isWidthDigit x = true) →
      n ≤ s.length → ds.length < fuel → n + ds.length = q → q < 2 ^ 31 →
      widthFrom s fuel (wrapInt n) (wrapInt (widthValue pre)) c =
        .ok ((wrapInt (widthValue (pre ++ ds)), wrapInt q), c) := by
  induction ds with
  | nil =>
    intro fuel n pre hd _ hle hfuel hn hq
    cases fuel with
    | zero => cases hfuel
    | succ fuel =>
      rw [List.length_nil, Nat.add_zero] at hn
      rw [List.append_nil, hn]
      exact widthFrom_stop (hn ▸ hd) hstop (hn ▸ hle) hq fuel _
  | cons x ds ih =>
    intro fuel n pre hd hds hle hfuel hn hq
    cases fuel with
    | zero => cases hfuel
    | succ fuel =>
      have hx := hds x List.mem_cons_self
      rw [List.length_cons] at hfuel hn
      rw [widthFrom_digit hd hx hle (by omega), width_step hx]
      have hrest := ih fuel (n + 1) (pre ++ [x]) (CString.drop_succ hd)
        (fun y hy => hds y (List.mem_cons_of_mem _ hy)) (CString.length_cons_drop hd hle) (by omega)
        (by omega) hq
      rw [List.append_assoc, List.singleton_append] at hrest
      exact hrest

/-- The width loop leaves the format when the digits reach the index `2 ^ 31`. -/
theorem widthFrom_outside (ds : List Byte) : ∀ fuel n w, s.bytes.drop n = ds ++ t →
    (∀ x ∈ ds, isWidthDigit x = true) → n ≤ s.length → ds.length < fuel → n ≤ 2 ^ 31 →
    2 ^ 31 ≤ n + ds.length → ReadsOutside s (widthFrom s fuel (wrapInt n) w) c := by
  induction ds with
  | nil =>
    intro fuel n w _ _ _ hfuel hle hover
    cases fuel with
    | zero => cases hfuel
    | succ fuel =>
      rw [List.length_nil, Nat.add_zero] at hover
      rw [widthFrom]
      exact (readAt_outside (.inr hover) (by omega)).bind _
  | cons x ds ih =>
    intro fuel n w hd hds hle hfuel hn hover
    cases fuel with
    | zero => cases hfuel
    | succ fuel =>
      rcases Nat.lt_or_ge n (2 ^ 31) with hlt | hge
      · have hx := hds x List.mem_cons_self
        rw [List.length_cons] at hfuel hover
        rw [ReadsOutside, widthFrom_digit hd hx hle hlt]
        exact ih fuel (n + 1) _ (CString.drop_succ hd)
          (fun y hy => hds y (List.mem_cons_of_mem _ hy))
          (CString.length_cons_drop hd hle) (by omega) (by omega) (by omega)
      · rw [widthFrom]
        exact (readAt_outside (.inr hge) (by omega)).bind _

/-- What `parse_format` does after the flag, with the index there. -/
def parseWidth (s : CString) (zero i : Int) : Exec Fault Console (Format × Int) := do
  let r ← widthFrom s (s.length + 1) i 0
  let type ← readAt s r.2
  let i := if type = chr 'z' then wrapInt (r.2 + 1) else r.2
  pure (⟨zero, r.1, type⟩, i)

theorem parseWidth_run {w q : Int} (zero : Int)
    (hwidth : widthFrom s (s.length + 1) i 0 c = .ok ((w, q), c))
    (htype : readAt s q c = .ok (x, c)) :
    parseWidth s zero i c =
      .ok ((⟨zero, w, x⟩, if x = chr 'z' then wrapInt (q + 1) else q), c) :=
  Exec.bind_ok hwidth (Exec.bind_ok htype rfl)

theorem parseFormat_eq (s : CString) (i : Int) :
    parseFormat s i = readAt s (wrapInt (i + 1)) >>= fun c =>
      parseWidth s (if c = chr '0' then 1 else 0)
        (if c = chr '0' then wrapInt (wrapInt (i + 1) + 1) else wrapInt (i + 1)) := rfl

theorem parseFormat_flag {v : Conversion} {t' : List Byte} (hv : Split t v t')
    (hd : s.bytes.drop n = chr '%' :: t) (hle : n ≤ s.length) (hn : n + 1 < 2 ^ 31) :
    parseFormat s (wrapInt n) c =
      parseWidth s v.format.zero (wrapInt (n + 1 + v.flag.length : Nat)) c := by
  have hread := readAt_run (c := c) (CString.drop_succ hd) (CString.length_cons_drop hd hle) hn
  have hflag : (t.headD 0#8 = chr '0') ↔ v.zero = true := by
    rw [← hv.flag]
    cases t with
    | nil => exact ⟨fun h => absurd h (by decide), nofun⟩
    | cons x t => simp
  rw [parseFormat_eq, wrapInt_succ, wrapInt_succ]
  refine Exec.bind_ok hread ?_
  cases hz : v.zero with
  | true =>
    rw [if_pos (hflag.mpr hz), if_pos (hflag.mpr hz)]
    simp [Conversion.format, Conversion.flag, hz]
  | false =>
    have hne : ¬ t.headD 0#8 = chr '0' := fun h => by
      rw [hflag.mp h] at hz
      cases hz
    rw [if_neg hne, if_neg hne]
    simp [Conversion.format, Conversion.flag, hz]

theorem Split.drop {v : Conversion} {t' : List Byte} (hv : Split t v t')
    (hd : s.bytes.drop n = chr '%' :: t) :
    s.bytes.drop (n + 1 + v.flag.length) = v.digits ++ t' := by
  rw [← List.drop_drop, CString.drop_succ hd, hv.parts, List.append_assoc, List.drop_left]

/-- The byte of the type is in the format, or is its terminator. -/
theorem Split.le_length {v : Conversion} {t' : List Byte} (hv : Split t v t')
    (hd : s.bytes.drop n = chr '%' :: t) (hle : n ≤ s.length) :
    n + 1 + v.flag.length + v.digits.length ≤ s.length := by
  have hlen := CString.length_drop (CString.drop_succ hd) (CString.length_cons_drop hd hle)
  have hparts := congrArg List.length hv.parts
  rw [List.length_append, List.length_append] at hparts
  omega

/-- **`parse_format` reads the conversion** after a percent sign, and stops at its last byte. -/
theorem parseFormat_run {v : Conversion} {t' : List Byte} (hv : Split t v t')
    (hd : s.bytes.drop n = chr '%' :: t) (hle : n ≤ s.length)
    (hq : n + 1 + v.flag.length + v.digits.length < 2 ^ 31) :
    parseFormat s (wrapInt n) c = .ok ((v.format, wrapInt (n + v.length : Nat)), c) := by
  have hle2 := hv.le_length hd hle
  have hd2 := hv.drop hd
  have hd3 : s.bytes.drop (n + 1 + v.flag.length + v.digits.length) = t' := by
    rw [← List.drop_drop, hd2, List.drop_left]
  have hwidth := widthFrom_run (c := c) hv.stop v.digits (s.length + 1) _ [] hd2 hv.digits
    (by omega) (by omega) rfl hq
  rw [show wrapInt (widthValue []) = 0 from rfl, List.nil_append] at hwidth
  have hindex : (if v.type = chr 'z' then
        wrapInt (wrapInt (n + 1 + v.flag.length + v.digits.length : Nat) + 1)
      else wrapInt (n + 1 + v.flag.length + v.digits.length : Nat)) =
      wrapInt (n + v.length : Nat) := by
    rw [hv.length, wrapInt_succ]
    unfold Conversion.tail
    split
    · exact congrArg (fun q : Nat => wrapInt q) (by omega)
    · exact congrArg (fun q : Nat => wrapInt q) (by omega)
  have htype := readAt_run (c := c) hd3 hle2 hq
  rw [← hv.type] at htype
  rw [parseFormat_flag hv hd hle (by omega), parseWidth_run _ hwidth htype, hindex]
  rfl

/-- An index that is too large leaves the format, in the width loop or at the byte of the type. -/
theorem parseFormat_outside {v : Conversion} {t' : List Byte} (hv : Split t v t')
    (hd : s.bytes.drop n = chr '%' :: t) (hle : n ≤ s.length) (hn : n < 2 ^ 31)
    (hq : 2 ^ 31 ≤ n + 1 + v.flag.length + v.digits.length) :
    ReadsOutside s (parseFormat s (wrapInt n)) c := by
  have hle2 := hv.le_length hd hle
  rcases Nat.lt_or_ge (n + 1) (2 ^ 31) with hlt | hge
  · rw [ReadsOutside, parseFormat_flag hv hd hle hlt, parseWidth]
    have hflag : v.flag.length ≤ 1 := by
      unfold Conversion.flag
      split <;> simp
    exact (widthFrom_outside v.digits _ _ _ (hv.drop hd) hv.digits (by omega) (by omega)
      (by omega) hq).bind _
  · rw [parseFormat_eq, wrapInt_succ]
    exact (readAt_outside (.inr hge) (by omega)).bind _

/-! ## The loop -/

/-- One turn of the loop (`ft_printf.c:47-57`). -/
theorem printFrom_succ (s : CString) (fuel : Nat) (i j : Int) : printFrom k s (fuel + 1) i j =
    (readAt s i >>= fun c =>
      if c = 0#8 then pure j
      else if c = chr '%' then
        parseFormat s i >>= fun r => ftFlagcheck k r.1 >>= fun n =>
          printFrom k s fuel (wrapInt (r.2 + 1)) (wrapInt (j + n))
      else
        ftPutchar k c >>= fun n =>
          printFrom k s fuel (wrapInt (i + 1)) (wrapInt (j + n))) :=
  rfl

theorem printFrom_end (h : readAt s i c = .ok (0#8, c)) (fuel : Nat) (j : Int) :
    printFrom k s (fuel + 1) i j c = .ok (j, c) := by
  rw [printFrom_succ, Exec.bind_run h]
  rfl

theorem printFrom_plain (h : readAt s i c = .ok (x, c)) (h0 : x ≠ 0#8) (hx : x ≠ chr '%')
    (fuel : Nat) (j : Int) : printFrom k s (fuel + 1) i j c =
      printFrom k s fuel (wrapInt (i + 1)) (wrapInt (j + 1)) (c.put [x]) := by
  rw [printFrom_succ, Exec.bind_run h, if_neg h0, if_neg hx]
  exact Exec.bind_ok (ftPutchar_run x) rfl

theorem printFrom_conv {f : Format} {q r : Int} (h : readAt s i c = .ok (chr '%', c))
    (hparse : parseFormat s i c = .ok ((f, q), c)) (hflag : ftFlagcheck k f c = .ok (r, c'))
    (fuel : Nat) (j : Int) : printFrom k s (fuel + 1) i j c =
      printFrom k s fuel (wrapInt (q + 1)) (wrapInt (j + r)) c' := by
  rw [printFrom_succ, Exec.bind_run h, if_neg (by decide), if_pos rfl, Exec.bind_run hparse]
  exact Exec.bind_ok hflag rfl

theorem printFrom_outside (h : ReadsOutside s (readAt s i) c) (fuel : Nat) (j : Int) :
    ReadsOutside s (printFrom k s (fuel + 1) i j) c := by
  rw [printFrom_succ]
  exact h.bind _

theorem printFrom_parse_outside (h : readAt s i c = .ok (chr '%', c))
    (hparse : ReadsOutside s (parseFormat s i) c) (fuel : Nat) (j : Int) :
    ReadsOutside s (printFrom k s (fuel + 1) i j) c := by
  rw [printFrom_succ]
  refine .after h ?_
  rw [if_neg (by decide), if_pos rfl]
  exact hparse.bind _

/-- From a piece on, the loop writes `r.1` and leaves the arguments `r.2`; `m` bytes are counted
before it. -/
def PrintsFrom (k : Kernel) (p : Int → Exec Fault Console Int) (c : Console)
    (r : List Byte × List Arg) : Prop :=
  ∀ m j, (Full k → j = wrapInt (m : Nat)) →
    ∃ res, p j c = .ok (res, { c with args := r.2 }.put r.1) ∧
      (Full k → res = wrapInt (m + r.1.length : Nat))

theorem PrintsFrom.done {p : Int → Exec Fault Console Int} (h : ∀ j, p j c = .ok (j, c)) :
    PrintsFrom k p c ([], c.args) := by
  intro m j hj
  exact ⟨j, by rw [put_nil, h], hj⟩

/-- A piece was written and counted; the rest follows, from the console and the arguments it
left. -/
theorem PrintsFrom.step {p p' : Int → Exec Fault Console Int} {r : Int} {bs : List Byte}
    {rs : List Byte × List Arg} (hstep : ∀ j, p j c = p' (wrapInt (j + r)) c')
    (hc' : c' = { c with args := rest }.put bs) (hr : Full k → r = wrapInt bs.length)
    (h : PrintsFrom k p' c' rs) : PrintsFrom k p c (bs ++ rs.1, rs.2) := by
  intro m j hj
  have hj' : Full k → wrapInt (j + r) = wrapInt (m + bs.length : Nat) := fun hk => by
    rw [hj hk, hr hk, wrapInt_add, wrapInt_add_right, Int.natCast_add]
  obtain ⟨res, hres, hret⟩ := h (m + bs.length) (wrapInt (j + r)) hj'
  refine ⟨res, ?_, fun hk => ?_⟩
  · rw [hstep, hres, hc']
    simp [Console.put]
  · rw [hret hk, List.length_append, Nat.add_assoc]

/-- The loop at an index outside of the format, whose next read is the fault. -/
theorem loop_outside (h : s.length < q ∨ 2 ^ 31 ≤ q) (hq : q < 2 ^ 32) {fuel : Nat}
    (hfuel : 0 < fuel) (j : Int) : ReadsOutside s (printFrom k s fuel (wrapInt q) j) c := by
  cases fuel with
  | zero => cases hfuel
  | succ fuel => exact printFrom_outside (readAt_outside h hq) fuel j

/-- What the loop does from byte `n` of the format on, `t` being what is left of it. -/
def LoopSpec (k : Kernel) (s : CString) (fuel n : Nat) (t : List Byte) (c : Console) : Prop :=
  (Complete t ∧ s.length < 2 ^ 31 →
    PrintsFrom k (printFrom k s fuel (wrapInt n)) c (render (scan t) c.args)) ∧
  (¬ (Complete t ∧ s.length < 2 ^ 31) →
    ∀ j, ReadsOutside s (printFrom k s fuel (wrapInt n) j) c)

theorem one_eq : (1 : Int) = wrapInt (1 : Nat) := (wrapInt_nat (by decide)).symm

theorem width_lt (v : Conversion) : v.format.width < 2 ^ 31 := by
  dsimp only [Conversion.format]
  exact wrapInt_lt _

/-- A plain byte is written as it is (`ft_printf.c:55`), and the loop goes on at the next. -/
theorem LoopSpec.plain {fuel : Nat} (hd : s.bytes.drop n = x :: t) (hle : n ≤ s.length)
    (hn : n < 2 ^ 31) (hx : x ≠ chr '%') (hfuel : 0 < fuel)
    (ih : n + 1 < 2 ^ 31 → LoopSpec k s fuel (n + 1) t (c.put [x])) :
    LoopSpec k s (fuel + 1) n (x :: t) c := by
  have hread : readAt s (wrapInt n) c = .ok (x, c) := readAt_run hd hle hn
  have hstep := printFrom_plain (k := k) hread (CString.ne_nul hd) hx fuel
  have hle1 := CString.length_cons_drop hd hle
  rw [wrapInt_succ] at hstep
  unfold LoopSpec
  rw [complete_plain hx, scan_plain hx]
  constructor
  · rintro ⟨hc, hlen⟩
    have hrest := (ih (by omega)).1 ⟨hc, hlen⟩
    have hput : c.put [x] = { c with args := c.args }.put [x] := rfl
    exact .step hstep hput (fun _ => one_eq) hrest
  · intro hbad j
    rw [ReadsOutside, hstep j]
    rcases Nat.lt_or_ge (n + 1) (2 ^ 31) with hlt | hge
    · exact (ih hlt).2 hbad _
    · exact loop_outside (.inr hge) (by omega) hfuel _

/-- A conversion is parsed and written, and the loop goes on behind its last byte
(`ft_printf.c:49-53`). -/
theorem LoopSpec.conv {fuel : Nat} (hd : s.bytes.drop n = chr '%' :: t) (hle : n ≤ s.length)
    (hn : n < 2 ^ 31) (hargs : Typed (chr '%' :: t) c.args) (hfuel : 0 < fuel)
    (ih : ∀ c', c'.args = (convText (conversion t).format c.args).2 →
      n + 1 + (conversion t).length ≤ s.length → n + 1 + (conversion t).length < 2 ^ 31 →
      LoopSpec k s fuel (n + 1 + (conversion t).length) (t.drop (conversion t).length) c') :
    LoopSpec k s (fuel + 1) n (chr '%' :: t) c := by
  obtain ⟨t', hv⟩ := conversion_split t
  have hread := readAt_run (c := c) hd hle hn
  have hlen := CString.length_drop (CString.drop_succ hd) (CString.length_cons_drop hd hle)
  have hmax := hv.length_le
  unfold LoopSpec
  rw [complete_percent, scan_percent]
  rcases Nat.lt_or_ge (n + 1 + (conversion t).flag.length + (conversion t).digits.length) (2 ^ 31)
    with hp | hp
  · obtain ⟨r, hr, hret⟩ := ftFlagcheck_run (k := k) (c := c) (f := (conversion t).format)
      (width_lt _) (typed_percent hargs).1
    have hstep := printFrom_conv (k := k) hread (parseFormat_run hv hd hle hp) hr fuel
    rw [wrapInt_succ, Nat.add_right_comm] at hstep
    have hnext : n + 1 + (conversion t).length < 2 ^ 32 := by
      have htail : (conversion t).tail ≤ 2 := by
        unfold Conversion.tail
        split <;> simp
      have := hv.length
      omega
    have hcut := hv.cut
    constructor
    · rintro ⟨⟨hc, hrest⟩, hlt⟩
      rw [hc, eq_comm, decide_eq_false_iff_not] at hcut
      exact .step hstep rfl hret ((ih _ rfl (by omega) (by omega)).1 ⟨hrest, hlt⟩)
    · intro hbad j
      rw [ReadsOutside, hstep j]
      by_cases hin : n + 1 + (conversion t).length ≤ s.length ∧
          n + 1 + (conversion t).length < 2 ^ 31
      · refine (ih _ rfl hin.1 hin.2).2 (fun h => hbad ⟨⟨?_, h.1⟩, h.2⟩) _
        rw [hcut, decide_eq_false_iff_not]
        omega
      · exact loop_outside (by omega) hnext hfuel _
  · have hout := printFrom_parse_outside (k := k) hread (parseFormat_outside hv hd hle hn hp) fuel
    have hle2 := hv.le_length hd hle
    constructor
    · rintro ⟨-, hlt⟩
      omega
    · exact fun _ j => hout j

/-- **The loop and the pieces**, by induction on the rounds that are left. -/
theorem printFrom_run (fuel : Nat) : ∀ n t c, s.bytes.drop n = t → n ≤ s.length → n < 2 ^ 31 →
    t.length < fuel → Typed t c.args → LoopSpec k s fuel n t c := by
  induction fuel with
  | zero => exact fun n t c _ _ _ hfuel => absurd hfuel (Nat.not_lt_zero _)
  | succ fuel ih =>
    intro n t c hd hle hn hfuel hargs
    cases t with
    | nil =>
      have hread := readAt_run (c := c) hd hle hn
      have hlen := CString.length_drop hd hle
      rw [List.length_nil, Nat.add_zero] at hlen
      unfold LoopSpec
      rw [scan_nil]
      exact ⟨fun _ => .done (printFrom_end hread fuel), fun hbad =>
        absurd ⟨complete_nil, hlen ▸ hn⟩ hbad⟩
    | cons x t =>
      have hle1 := CString.length_cons_drop hd hle
      rw [List.length_cons] at hfuel
      by_cases hx : x = chr '%'
      · rw [hx] at hd hargs ⊢
        refine .conv hd hle hn hargs (by omega) fun c' hc' hq hq' => ?_
        refine ih _ _ c' ?_ hq hq' ?_ ?_
        · rw [← List.drop_drop, CString.drop_succ hd]
        · rw [List.length_drop]
          omega
        · rw [hc']
          exact (typed_percent hargs).2
      · exact .plain hd hle hn hx (by omega) fun hlt =>
          ih _ _ _ (CString.drop_succ hd) hle1 hlt (by omega) ((typed_plain hx).mp hargs)

theorem wrapInt_zero : wrapInt (0 : Nat) = 0 := wrapInt_nat (by decide)

/-- The test for an empty format (`ft_printf.c:44`) is the loop's own. -/
theorem ftPrintf_eq (c : Console) :
    ftPrintf k s c = printFrom k s (s.length + 1) (wrapInt (0 : Nat)) 0 c := by
  have hread := readAt_run (s := s) (c := c) (n := 0) List.drop_zero (Nat.zero_le _) (by decide)
  have hread0 := hread
  rw [wrapInt_zero] at hread0
  rw [ftPrintf, Exec.bind_run hread0]
  split
  · rename_i h0
    rw [h0] at hread
    rw [printFrom_end hread]
    rfl
  · rw [wrapInt_zero]

/-- **`ft_printf` writes what its format means**, if the format is shorter than `2 ^ 31` bytes and
does not end inside of a conversion, -/
theorem ftPrintf_run (hargs : Typed s.bytes c.args) (hc : Complete s.bytes)
    (hlen : s.length < 2 ^ 31) : Prints k (ftPrintf k s) c (render (scan s.bytes) c.args).1
      (render (scan s.bytes) c.args).2 := by
  have hrun := (printFrom_run (k := k) (s.length + 1) 0 s.bytes c List.drop_zero (Nat.zero_le _)
    (by decide) (Nat.lt_succ_self _) hargs).1 ⟨hc, hlen⟩ 0 0 fun _ => wrapInt_zero.symm
  rw [Nat.zero_add] at hrun
  rw [Prints, ftPrintf_eq]
  exact hrun

/-- and reads outside of it in any other case. -/
theorem ftPrintf_outside (hargs : Typed s.bytes c.args)
    (hbad : ¬ (Complete s.bytes ∧ s.length < 2 ^ 31)) : ReadsOutside s (ftPrintf k s) c := by
  have hrun := (printFrom_run (k := k) (s.length + 1) 0 s.bytes c List.drop_zero (Nat.zero_le _)
    (by decide) (Nat.lt_succ_self _) hargs).2 hbad 0
  rw [ReadsOutside, ftPrintf_eq]
  exact hrun

end Printf

end FtMalloc
