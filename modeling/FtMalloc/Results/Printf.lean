import FtMalloc.Refine.Printf

/-!
# Whole runs of `ft_printf` (`printf/ft_printf.c`)

`parse_format` stops at the last byte of a conversion and `ft_printf` then moves one byte on
(`ft_printf.c:56`). A format that ends inside of a conversion has no such byte: the index passes the
terminator. The index is an `int`, so it also leaves a format of `2 ^ 31` bytes.

Results:
* `format_scan`: with arguments of the right types, `ft_printf` returns without a read outside of
  the format exactly if the format ends outside of a conversion and is shorter than `2 ^ 31` bytes.
* `format_scan_percent`: the format `"%"` is read past its terminator.
* `printf_count`: for the other formats the result is the number of bytes written.
* `printf_count_long`: a format of `2 ^ 31` bytes that writes nothing.
-/

namespace FtMalloc

open Lib

namespace Printf

/-! ## Reading the format -/

/-- The format is read from its first byte to its terminator only, and the call returns. A read at
any other index stops the run. -/
def ScansSafely (k : Kernel) (s : CString) (c : Console) : Prop :=
  ∃ r c', ftPrintf k s c = .ok (r, c')

/-- **When `ft_printf` stays inside of its format**, and which read leaves it otherwise. -/
theorem format_scan (k : Kernel) (s : CString) (c : Console) (hargs : Typed s.bytes c.args) :
    (ScansSafely k s c ↔ Complete s.bytes ∧ s.length < 2 ^ 31) ∧
      (¬ ScansSafely k s c → ∃ i : Int, ftPrintf k s c = .error (.outside i) ∧
        (i < 0 ∨ s.length < i)) := by
  by_cases hgood : Complete s.bytes ∧ s.length < 2 ^ 31
  · obtain ⟨r, hr, -⟩ := ftPrintf_run (k := k) hargs hgood.1 hgood.2
    have hsafe : ScansSafely k s c := ⟨r, _, hr⟩
    exact ⟨⟨fun _ => hgood, fun _ => hsafe⟩, fun h => absurd hsafe h⟩
  · obtain ⟨i, hi, ho⟩ := ftPrintf_outside (k := k) hargs hgood
    have hunsafe : ¬ ScansSafely k s c := by
      rintro ⟨r, c', h⟩
      rw [hi] at h
      cases h
    exact ⟨⟨fun h => absurd h hunsafe, fun h => absurd h hgood⟩, fun _ => ⟨i, hi, ho⟩⟩

theorem format_scan_hex :
    let s := CString.ofChars ['<', '%', '0', '4', 'x', '>']
    ScansSafely fullKernel s ⟨[.unsigned 255#32], []⟩ := by
  have h := format_scan fullKernel (.ofChars ['<', '%', '0', '4', 'x', '>'])
    ⟨[.unsigned 255#32], []⟩ (by decide +kernel)
  exact h.1.mpr (by decide +kernel)

/-- **A format that ends in a percent sign** is read at the byte after its terminator. -/
theorem format_scan_percent :
    let s := CString.ofChars ['%']
    Typed s.bytes [] ∧ s.length = 1 ∧
      ftPrintf fullKernel s ⟨[], []⟩ = .error (.outside 2) ∧
      ¬ ScansSafely fullKernel s ⟨[], []⟩ := by
  have hrun : ftPrintf fullKernel (.ofChars ['%']) ⟨[], []⟩ = .error (.outside 2) := rfl
  refine ⟨by decide +kernel, rfl, hrun, ?_⟩
  rintro ⟨r, c', h⟩
  rw [hrun] at h
  cases h

/-! ## The result -/

/-- **The result of `ft_printf`** is the number of bytes it wrote. -/
theorem printf_count (k : Kernel) (s : CString) (c : Console) (hfull : Full k)
    (hargs : Typed s.bytes c.args) (hc : Complete s.bytes) (hlen : s.length < 2 ^ 31) :
    ∃ r c' text, ftPrintf k s c = .ok (r, c') ∧ c'.written = c.written ++ text ∧
      (text.length < 2 ^ 31 → r = text.length) := by
  obtain ⟨r, hr, hret⟩ := ftPrintf_run (k := k) hargs hc hlen
  exact ⟨r, _, _, hr, rfl, fun h => (hret hfull).trans (wrapInt_nat h)⟩

theorem printf_count_sample :
    let s := CString.ofChars ['%', 's', ':', '%', 'd', '%', '\n']
    let args := [Arg.string none, .int (-5)]
    ∃ r c' text, ftPrintf fullKernel s ⟨args, []⟩ = .ok (r, c') ∧ c'.written = [] ++ text ∧
      (text.length < 2 ^ 31 → r = text.length) :=
  printf_count fullKernel (.ofChars ['%', 's', ':', '%', 'd', '%', '\n'])
    ⟨[.string none, .int (-5)], []⟩ fullKernel_full (by decide +kernel) (by decide +kernel)
    (by decide +kernel)

/-- The directive `"%q"`, `n` times: a conversion of a type `ft_flagcheck` does not know. -/
def unknowns (n : Nat) : List Byte := (List.replicate n (ascii ['%', 'q'])).flatten

/-- The conversion of `"%q"`. -/
def unknown : Conversion := ⟨false, [], chr 'q', 1, false⟩

theorem conversion_unknown (s : List Byte) : conversion (chr 'q' :: s) = unknown :=
  Split.unique (t := chr 'q' :: s)
    { parts := rfl
      flag := by simp [unknown, chr]
      digits := by simp [unknown]
      stop := by simp; decide
      type := rfl
      length := rfl
      cut := by simp [unknown] }

theorem unknowns_succ (n : Nat) : unknowns (n + 1) = chr '%' :: chr 'q' :: unknowns n := by
  unfold unknowns
  rw [List.replicate_succ, List.flatten_cons]
  rfl

theorem scan_unknowns (n : Nat) : scan (unknowns n) = List.replicate n (.conv unknown) := by
  induction n with
  | zero => exact scan_nil
  | succ n ih =>
    rw [unknowns_succ, scan_percent, conversion_unknown, List.replicate_succ, ← ih]
    rfl

theorem length_unknowns (n : Nat) : (unknowns n).length = 2 * n := by
  induction n with
  | zero => rfl
  | succ n ih =>
    rw [unknowns_succ, List.length_cons, List.length_cons, ih]
    omega

theorem render_unknowns (n : Nat) : render (List.replicate n (.conv unknown)) [] = ([], []) := by
  induction n with
  | zero => rfl
  | succ n ih =>
    have hconv : convText unknown.format [] = ([], []) := rfl
    rw [List.replicate_succ, render, hconv, ih]
    rfl

theorem noNul_unknowns (n : Nat) : 0#8 ∉ unknowns n := by
  intro h
  obtain ⟨l, hl, hm⟩ := List.mem_flatten.mp h
  rw [List.eq_of_mem_replicate hl] at hm
  exact absurd hm (by decide)

/-- A format of `2 ^ 31` bytes. -/
def longFormat : CString := ⟨unknowns (2 ^ 30), noNul_unknowns _⟩

/-- **A format of `2 ^ 31` bytes**: complete, without arguments or widths, and it stands for no text
at all; the index wraps. -/
theorem printf_count_long :
    Full fullKernel ∧ Typed longFormat.bytes [] ∧ Complete longFormat.bytes ∧
      (∀ v, .conv v ∈ scan longFormat.bytes → v.digits = []) ∧
      render (scan longFormat.bytes) [] = ([], []) ∧
      ¬ ∃ r c', ftPrintf fullKernel longFormat ⟨[], []⟩ = .ok (r, c') := by
  have hscan : scan longFormat.bytes = List.replicate (2 ^ 30) (.conv unknown) := scan_unknowns _
  have hlen : longFormat.length = 2 ^ 31 := length_unknowns (2 ^ 30)
  have hpiece : ∀ p ∈ scan longFormat.bytes, p = .conv unknown := fun p hp => by
    rw [hscan] at hp
    exact List.eq_of_mem_replicate hp
  have htyped : Typed longFormat.bytes [] := by
    have hkinds : kinds (scan longFormat.bytes) = [] :=
      List.filterMap_eq_nil_iff.mpr fun p hp => by rw [hpiece p hp]; rfl
    rw [Typed, hkinds]
    exact List.nil_prefix
  have hcomplete : Complete longFormat.bytes := fun p hp => by rw [hpiece p hp]; rfl
  refine ⟨fullKernel_full, htyped, hcomplete, fun v hv => ?_, ?_, ?_⟩
  · cases hpiece _ hv
    rfl
  · rw [hscan, render_unknowns]
  · rintro ⟨r, c', h⟩
    obtain ⟨i, hi, -⟩ := ftPrintf_outside (k := fullKernel) (c := ⟨[], []⟩) htyped
      (fun h => by rw [hlen] at h; exact absurd h.2 (Nat.lt_irrefl _))
    rw [hi] at h
    cases h

end Printf

end FtMalloc
