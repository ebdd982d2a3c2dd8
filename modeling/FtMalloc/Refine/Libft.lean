import FtMalloc.Source.Libft

/-!
# What the functions of `libft` do

Each loop over a string is followed along what is left of it.

Results:
* `ftStrlen_run`: the length of what is left from an offset on.
* `scan_run`: a loop that looks for the first character without a property.
* `ftStrchr_run`: a string of ASCII characters has the byte, or the byte is NUL.
* `ftStrlcpy_run`, `ftSubstr_run`: a part of the string is copied to a buffer and terminated.
* `leftFrom_run`, `rightFrom_run`: where the two loops of `ft_strtrim` stop.
-/

namespace FtMalloc

open Lib

namespace Libft

variable {s set : CString} {m : Malloc} {start i n : Nat} {x c : Byte} {t : List Byte}

/-- A `malloc` that succeeds every time, with a buffer full of the byte 255. -/
def succeeding : Malloc := ⟨fun n => some (List.replicate n 255#8), fun n p h => by cases h; simp⟩

/-! ## Reading -/

theorem strlenFrom_run (t : List Byte) : ∀ fuel i, s.bytes.drop (start + i) = t →
    start + i ≤ s.length → t.length < fuel →
    strlenFrom s start fuel i = some (s.length - start) := by
  induction t with
  | nil =>
    intro fuel i hd hle hfuel
    have hlen := CString.length_drop hd hle
    rw [List.length_nil, Nat.add_zero] at hlen
    cases fuel with
    | zero => cases hfuel
    | succ fuel =>
      rw [strlenFrom, CString.at_drop hd hle]
      simp [hlen]
  | cons x t ih =>
    intro fuel i hd hle hfuel
    have hlen := CString.length_drop hd hle
    rw [List.length_cons] at hlen hfuel
    cases fuel with
    | zero => cases hfuel
    | succ fuel =>
      have hrest := ih fuel (i + 1) (CString.drop_succ hd)
        (by omega) (by omega)
      rw [strlenFrom, CString.at_drop hd hle]
      simpa [CString.ne_nul hd] using hrest

/-- A loop that goes on while `p` holds of the character, and stops at one of `t` or at the
terminator. -/
theorem scan_run {f : Nat → Nat → Option Nat} {p : Byte → Bool}
    (hstep : ∀ fuel i x, x ≠ 0#8 → s.at? (i : Nat) = some x →
      f (fuel + 1) i = if p x = true then f fuel (i + 1) else some i) (t : List Byte) :
    ∀ fuel i, s.bytes.drop i = t → i ≤ s.length → t.length < fuel →
    ((∃ x ∈ t, p x = false) ∨
      ∀ fuel i, s.at? (i : Nat) = some 0#8 → f (fuel + 1) i = some i) →
    f fuel i = some (i + (t.takeWhile p).length) := by
  induction t with
  | nil =>
    intro fuel i hd hle hfuel hstop
    obtain ⟨x, hx, -⟩ | hend := hstop
    · cases hx
    · cases fuel with
      | zero => cases hfuel
      | succ fuel => exact hend fuel i (CString.at_drop hd hle)
  | cons x t ih =>
    intro fuel i hd hle hfuel hstop
    rw [List.length_cons] at hfuel
    cases fuel with
    | zero => cases hfuel
    | succ fuel =>
      rw [hstep fuel i x (CString.ne_nul hd) (CString.at_drop hd hle)]
      cases hx : p x with
      | false =>
        rw [List.takeWhile_cons_of_neg (by simp [hx])]
        rfl
      | true =>
        have hrest := ih fuel (i + 1) (CString.drop_succ hd) (CString.length_cons_drop hd hle)
          (by omega) (hstop.imp_left fun h => by simpa [hx] using h)
        rw [if_pos rfl, hrest, List.takeWhile_cons_of_pos hx, List.length_cons, Nat.add_assoc,
          Nat.add_comm 1]

/-- **`ft_strlen`** (`ft_strlen.c:16-24`), from any place in the string. -/
theorem ftStrlen_run (h : start ≤ s.length) : ftStrlen s start = some (s.length - start) :=
  strlenFrom_run _ _ 0 rfl h (by rw [List.length_drop]; exact Nat.lt_succ_of_le (Nat.sub_le _ _))

/-- Characters of an ASCII string compare as bytes: from 128 on, a `char` is negative and the cast
of `ft_strchr` is not. -/
theorem char_eq (hx : x.toNat < 128) (c : Byte) : x.toInt = castUChar c.toInt ↔ x = c := by
  have hc : castUChar c.toInt = c.toNat := by
    unfold castUChar
    rw [BitVec.toInt_eq_toNat_bmod]
    exact Int.bmod_emod.trans (Int.emod_eq_of_lt (by omega) (by exact_mod_cast c.isLt))
  have hxi : x.toInt = x.toNat := BitVec.toInt_eq_toNat_of_lt (by omega)
  rw [hc, hxi]
  exact Int.ofNat_inj.trans BitVec.toNat_inj

/-- One character of `ft_strchr`, which compares before it tests for the terminator
(`ft_strchr.c:16-22`). -/
theorem strchrFrom_step (hat : s.at? i = some x) (hx : x.toNat < 128) (c : Byte) (fuel : Nat) :
    strchrFrom s c.toInt (fuel + 1) i =
      if x = c then some (some i) else if x = 0#8 then some none
      else strchrFrom s c.toInt fuel (i + 1) := by
  rw [strchrFrom, hat]
  simp only [Option.bind_eq_bind, Option.bind_some, char_eq hx c]
  rfl

theorem strchrFrom_run (hascii : ∀ x ∈ s.bytes, x.toNat < 128) (c : Byte) (t : List Byte) :
    ∀ fuel i, s.bytes.drop i = t → i ≤ s.length → t.length < fuel →
    ∃ r, strchrFrom s c.toInt fuel i = some r ∧ (r ≠ none ↔ c ∈ t ∨ c = 0#8) := by
  induction t with
  | nil =>
    intro fuel i hd hle hfuel
    cases fuel with
    | zero => cases hfuel
    | succ fuel =>
      rw [strchrFrom_step (CString.at_drop hd hle) (by decide), List.headD_nil, if_pos rfl]
      by_cases h : 0#8 = c
      · exact ⟨some i, if_pos h, by simp [← h]⟩
      · exact ⟨none, if_neg h, by simp [Ne.symm h]⟩
  | cons x t ih =>
    intro fuel i hd hle hfuel
    rw [List.length_cons] at hfuel
    cases fuel with
    | zero => cases hfuel
    | succ fuel =>
      have hlen := CString.length_drop hd hle
      rw [List.length_cons] at hlen
      have hmem : x ∈ s.bytes := List.mem_of_mem_drop (hd ▸ List.mem_cons_self)
      rw [strchrFrom_step (CString.at_drop hd hle) (hascii x hmem), List.headD_cons,
        if_neg (CString.ne_nul hd)]
      by_cases h : x = c
      · exact ⟨some i, if_pos h, by simp [h]⟩
      · obtain ⟨r, hr, hiff⟩ := ih fuel (i + 1) (CString.drop_succ hd) (by omega)
          (by omega)
        refine ⟨r, (if_neg h).trans hr, ?_⟩
        rw [hiff, List.mem_cons, or_assoc]
        simp [Ne.symm h]

/-- **`ft_strchr`** (`ft_strchr.c:16-22`) finds the bytes of the string, and its terminator. -/
theorem ftStrchr_run (hascii : ∀ x ∈ s.bytes, x.toNat < 128) (c : Byte) :
    ∃ r, ftStrchr s c.toInt = some r ∧ (r ≠ none ↔ c ∈ s.bytes ∨ c = 0#8) :=
  strchrFrom_run hascii c _ _ 0 List.drop_zero (Nat.zero_le _) (Nat.lt_succ_self _)

/-! ## Copying -/

/-- Writing the first byte of what is left of a buffer, `ds` being what was written before. -/
theorem store_run (ds ps : List Byte) (x y : Byte) :
    store (ds ++ y :: ps) ds.length x = some (ds ++ x :: ps) := by
  unfold store
  rw [if_pos (by simp), List.set_append_right _ _ (Nat.le_refl _), Nat.sub_self, List.set_cons_zero]

/-- The copying loop, `ds` being copied and `us` being left to copy. -/
theorem copyFrom_run {len : Nat} (us : List Byte) : ∀ fuel i ds ps, ds.length = i →
    s.bytes.drop (start + i) = us ++ t → start + i ≤ s.length → i + us.length = len →
    ps.length = us.length + 1 → us.length < fuel →
    ∃ y, copyFrom s start (len + 1) fuel i (ds ++ ps) = some (len, ds ++ us ++ [y]) := by
  induction us with
  | nil =>
    intro fuel i ds ps hi hd hle hlen hps hfuel
    cases fuel with
    | zero => cases hfuel
    | succ fuel =>
      obtain ⟨y, rfl⟩ := List.length_eq_one_iff.mp hps
      rw [List.length_nil, Nat.add_zero] at hlen
      refine ⟨y, ?_⟩
      rw [copyFrom, if_neg (by omega), hlen, List.append_nil]
      rfl
  | cons x us ih =>
    intro fuel i ds ps hi hd hle hlen hps hfuel
    rw [List.length_cons] at hlen hps hfuel
    cases fuel with
    | zero => cases hfuel
    | succ fuel =>
      cases ps with
      | nil => cases hps
      | cons z ps =>
        have hstr := CString.length_drop hd hle
        rw [List.length_append, List.length_cons] at hstr
        obtain ⟨y, hy⟩ := ih fuel (i + 1) (ds ++ [x]) ps (by simp [hi])
          (CString.drop_succ hd) (by omega) (by omega)
          (Nat.succ.inj hps) (by omega)
        refine ⟨y, ?_⟩
        rw [List.append_assoc, List.singleton_append] at hy
        rw [copyFrom, if_pos (by omega), CString.at_cons hd]
        simp only [Option.bind_eq_bind, Option.bind_some, if_neg (CString.ne_nul hd)]
        rw [← hi, store_run, Option.bind_some, hi, hy, List.append_assoc, List.append_assoc,
          List.append_assoc]
        rfl

/-- **`ft_strlcpy`** (`ft_strlcpy.c:16-37`) with room for the part and its terminator. -/
theorem ftStrlcpy_run {p : List Byte} {len : Nat} (h : start + len ≤ s.length)
    (hp : p.length = len + 1) : ∃ r, ftStrlcpy p s start (len + 1) =
      some (r, (s.bytes.drop start).take len ++ [0#8]) := by
  have hlen : ((s.bytes.drop start).take len).length = len := by
    rw [List.length_take, List.length_drop]
    unfold CString.length at h
    omega
  have hd : s.bytes.drop (start + 0) =
      (s.bytes.drop start).take len ++ (s.bytes.drop start).drop len := by
    rw [Nat.add_zero, List.take_append_drop]
  obtain ⟨y, hy⟩ := copyFrom_run _ (s.length + 1) 0 [] p rfl hd (by omega) (Nat.zero_add _)
    (by rw [hlen, hp]) (by omega)
  have hstore := store_run ((s.bytes.drop start).take len) [] 0#8 y
  have hrest := strlenFrom_run (s.bytes.drop (start + len)) (s.length + 1) len rfl h
    (by rw [List.length_drop]; exact Nat.lt_succ_of_le (Nat.sub_le _ _))
  rw [hlen] at hstore
  refine ⟨s.length - start, ?_⟩
  unfold ftStrlcpy
  rw [if_neg (Nat.succ_ne_zero len)]
  rw [hlen, List.nil_append, List.nil_append] at hy
  rw [hy]
  simp only [Option.bind_eq_bind, Option.bind_some]
  rw [if_pos (Nat.lt_succ_self len), hstore, Option.bind_some, hrest]
  rfl

/-- **`ft_substr`** (`ft_substr.c:16-31`) of a part of the string: a copy with a terminator, or NULL
when `malloc` gives NULL. -/
theorem ftSubstr_run {len : Nat} (h : start + len ≤ s.length) (hsize : s.length < 2 ^ 64 - 1) :
    ftSubstr m (some s) start len =
      some ((m.reply (len + 1)).map fun _ => (s.bytes.drop start).take len ++ [0#8]) := by
  have hwrap : wrap (len + 1) = len + 1 := Nat.mod_eq_of_lt (by omega)
  unfold ftSubstr
  simp only [ftStrlen_run (Nat.zero_le _), ftStrlen_run (Nat.le_trans (Nat.le_add_right _ _) h),
    Option.bind_eq_bind, Option.bind_some, Nat.sub_zero]
  rw [if_neg (show ¬ s.length < start by omega), if_neg (show ¬ s.length - start < len by omega),
    hwrap]
  cases hp : m.reply (len + 1) with
  | none => rfl
  | some p =>
    obtain ⟨r, hr⟩ := ftStrlcpy_run (s := s) h (m.length _ _ hp)
    simp only [hr]
    rfl

/-- **`ft_strdup("")`** (`ft_strdup.c:16-30`), which `ft_strtrim` returns when nothing is left. -/
theorem ftStrdup_empty : ftStrdup m (.ofChars []) = some ((m.reply 1).map fun _ => [0#8]) := by
  have hcalloc : ftCalloc m 1 1 = some ((m.reply 1).map fun _ => [0#8]) := by
    unfold ftCalloc
    rw [show wrap (1 * 1) = 1 from rfl]
    cases hp : m.reply 1 with
    | none => rfl
    | some p =>
      obtain ⟨y, rfl⟩ := List.length_eq_one_iff.mp (m.length _ _ hp)
      rfl
  exact hcalloc

theorem bind_some_of {α β : Type} {x : Option α} {a : α} (h : x = some a) (f : α → Option β) :
    (x >>= f) = f a := by
  rw [h]
  rfl

/-! ## The loops of `ft_strtrim` -/

/-- A byte of the set, which `ft_strtrim` takes off at both ends. -/
def inSet (set : CString) (x : Byte) : Bool := x ∈ set.bytes

/-- How long the longest prefix made of characters of the set is, -/
def leading (s set : CString) : Nat := (s.bytes.takeWhile (inSet set)).length

/-- and the longest suffix. -/
def trailing (s set : CString) : Nat := (s.bytes.rtakeWhile (inSet set)).length

variable (hascii : ∀ x ∈ set.bytes, x.toNat < 128)

include hascii in
/-- A character of the string and the set: `ft_strchr` tells whether it is in it. -/
theorem member_run (hi : i < s.bytes.length) : s.at? i = some s.bytes[i] ∧
    ∃ r, ftStrchr set s.bytes[i].toInt = some r ∧ (r ≠ none ↔ inSet set s.bytes[i] = true) := by
  have hd := List.drop_eq_getElem_cons hi
  obtain ⟨r, hr, hiff⟩ := ftStrchr_run hascii s.bytes[i]
  refine ⟨CString.at_cons hd, r, hr, ?_⟩
  rw [hiff]
  simp [inSet, CString.ne_nul hd]

include hascii in
theorem leftFrom_run (hn : 0 < s.length) (fuel : Nat) : ∀ i : Nat,
    i ≤ min (leading s set) (s.length / 2 + 1) → s.length / 2 + 1 - i < fuel →
    leftFrom s set s.length fuel i =
      some ((min (leading s set) (s.length / 2 + 1) : Nat) : Int) := by
  induction fuel with
  | zero => exact fun i _ hfuel => absurd hfuel (Nat.not_lt_zero _)
  | succ fuel ih =>
    intro i hle hfuel
    have hhalf : ((s.length : Int)).tdiv 2 = (s.length / 2 : Nat) := rfl
    unfold leftFrom
    rw [hhalf]
    by_cases hi : i ≤ s.length / 2
    · have hlt : i < s.bytes.length := show i < s.length by omega
      obtain ⟨hat, r, hr, hiff⟩ := member_run (s := s) hascii hlt
      rw [takeWhile_iff hlt (by unfold leading at hle; omega)] at hiff
      rw [if_pos (by omega), hat]
      simp only [Option.bind_eq_bind, Option.bind_some, hr]
      by_cases hin : i < leading s set
      · rw [if_pos (hiff.mpr hin)]
        exact ih (i + 1) (by omega) (by omega)
      · rw [if_neg (fun h => hin (hiff.mp h))]
        exact congrArg (fun q : Nat => some (q : Int)) (by omega)
    · rw [if_neg (by omega)]
      exact congrArg (fun q : Nat => some (q : Int)) (by omega)

theorem trailing_eq (s set : CString) :
    trailing s set = (s.bytes.reverse.takeWhile (inSet set)).length := by
  rw [trailing, List.rtakeWhile, List.length_reverse]

include hascii in
theorem rightFrom_run (hn : 0 < s.length) (fuel : Nat) : ∀ q : Nat,
    q ≤ min (trailing s set) (s.length - s.length / 2) → s.length - s.length / 2 - q < fuel →
    rightFrom s set s.length fuel (s.length - 1 - q) =
      some ((s.length : Int) - 1 - (min (trailing s set) (s.length - s.length / 2) : Nat)) := by
  induction fuel with
  | zero => exact fun q _ hfuel => absurd hfuel (Nat.not_lt_zero _)
  | succ fuel ih =>
    intro q hle hfuel
    have hhalf : ((s.length : Int)).tdiv 2 = (s.length / 2 : Nat) := rfl
    unfold rightFrom
    rw [hhalf]
    by_cases hq : q < s.length - s.length / 2
    · have hlen : s.bytes.reverse.length = s.length := List.length_reverse
      have hlt : s.length - 1 - q < s.bytes.length := show s.length - 1 - q < s.length by omega
      have hindex : (s.length : Int) - 1 - q = (s.length - 1 - q : Nat) := by omega
      have hqlt : q < s.bytes.reverse.length := by omega
      have hrev : s.bytes.reverse[q] = s.bytes[s.length - 1 - q] := List.getElem_reverse _
      obtain ⟨hat, r, hr, hiff⟩ := member_run (s := s) hascii hlt
      rw [← hrev, takeWhile_iff (by omega) (by rw [← trailing_eq]; omega), ← trailing_eq] at hiff
      rw [if_pos (by omega), hindex, hat]
      simp only [Option.bind_eq_bind, Option.bind_some, hr]
      by_cases hin : q < trailing s set
      · rw [if_pos (hiff.mpr hin), ← hindex]
        have hnext := ih (q + 1) (by omega) (by omega)
        rw [Int.natCast_succ, ← Int.sub_sub] at hnext
        exact hnext
      · rw [if_neg (fun h => hin (hiff.mp h))]
        exact congrArg some (by omega)
    · have heq : q = min (trailing s set) (s.length - s.length / 2) := by omega
      rw [if_neg (by omega), ← heq]
      rfl

theorem ftStrtrim_eq {n : Nat} {len i j : Int} (hstr : ftStrlen s 0 = some n)
    (hlen : castInt n = len) (hi : leftFrom s set len (s.length + 2) 0 = some i)
    (hj : rightFrom s set len (s.length + 2) (len - 1) = some j) :
    ftStrtrim m (some s) set = if i > j then ftStrdup m (.ofChars [])
      else ftSubstr m (some s) (castUInt i) (castSize (j - i + 1)) := by
  subst hlen
  rw [ftStrtrim, bind_some_of hstr, bind_some_of hi, bind_some_of hj]

include hascii in
/-- The terminator of an empty string is found in every set, so the first loop goes one step past
it. -/
theorem leftFrom_empty (h0 : s.length = 0) (fuel : Nat) :
    leftFrom s set 0 (fuel + 2) 0 = some 1 := by
  obtain ⟨r, hr, hiff⟩ := ftStrchr_run hascii 0#8
  have hat : s.at? 0 = some 0#8 := by
    have hend := CString.at_end (s := s)
    rw [h0] at hend
    exact hend
  rw [leftFrom, if_pos (by decide), bind_some_of hat, bind_some_of hr,
    if_pos (hiff.mpr (.inr rfl)), leftFrom, if_neg (by decide)]
  rfl

include hascii in
/-- **`ft_strtrim`**: what the loops leave, from `a` characters after the start to `e` before the
end. -/
theorem ftStrtrim_run (hlen : s.length < 2 ^ 31) {a e : Nat}
    (ha : a = min (leading s set) (s.length / 2 + 1))
    (he : e = min (trailing s set) (s.length - s.length / 2)) :
    ftStrtrim m (some s) set =
      if s.length ≤ a + e then ftStrdup m (.ofChars [])
      else ftSubstr m (some s) a (s.length - a - e) := by
  have hstr : ftStrlen s 0 = some s.length := ftStrlen_run (Nat.zero_le _)
  rcases Nat.eq_zero_or_pos s.length with h0 | hn
  · have hi := leftFrom_empty hascii h0 s.length
    have hj : rightFrom s set 0 (s.length + 2) (0 - 1) = some (-1) := by
      rw [rightFrom, if_neg (by decide)]
      rfl
    have hzero : castInt s.length = 0 := by
      rw [h0]
      rfl
    rw [ftStrtrim_eq hstr hzero hi hj, if_pos (by decide), if_pos (by omega)]
  · have hi := leftFrom_run hascii hn (s.length + 2) 0 (Nat.zero_le _) (by omega)
    have hj := rightFrom_run hascii hn (s.length + 2) 0 (Nat.zero_le _) (by omega)
    rw [← ha] at hi
    rw [← he, Int.natCast_zero, Int.sub_zero] at hj
    rw [ftStrtrim_eq hstr (castInt_of_lt hlen) hi hj]
    by_cases hle : s.length ≤ a + e
    · rw [if_pos (by omega), if_pos hle]
    · have hstart : castUInt a = a := by
        unfold castUInt
        omega
      have hcount : castSize ((s.length : Int) - 1 - e - a + 1) = s.length - a - e := by
        rw [show (s.length : Int) - 1 - e - a + 1 = (s.length - a - e : Nat) by omega]
        exact castSize_of_nat (by omega)
      rw [if_neg (by omega), if_neg hle, hstart, hcount]

end Libft

end FtMalloc
