import FtMalloc.Refine.Libft

/-!
# What `ft_split` returns (`libft/ft_split.c`)

`ft_countchr` and the loop of `ft_split` scan the string in different ways. Both are followed along
what is left of the string, whose `runs` they consume one by one.

Results:
* `countFrom_run`, `splitFrom_run`: either scanner from any place on.
* `ftSplit_run`: the array, whatever `malloc` replies.
* `split_runs`: when the allocations succeed it has the maximal runs in order and `NULL`, as many
  entries as were asked for.
-/

namespace FtMalloc

open Lib

namespace Libft

variable {s : CString} {ms : Nat → Malloc} {c : Byte} {t : List Byte} {i : Nat}

/-! ## The scanners -/

/-- The skipping loop would also run past the terminator when `c` is NUL, but not from a character
of the string. -/
theorem skipFrom_run (t : List Byte) (fuel i : Nat) (hd : s.bytes.drop i = t) (hle : i ≤ s.length)
    (hfuel : t.length < fuel) (hc : c = 0#8 → t ≠ []) :
    skipFrom s c fuel i = some (i + (t.takeWhile (· = c)).length) := by
  have hstep : ∀ fuel i x, s.at? (i : Nat) = some x → skipFrom s c (fuel + 1) i =
      if decide (x = c) = true then skipFrom s c fuel (i + 1) else some i := fun fuel i x hat => by
    rw [skipFrom, bind_some_of hat]
    simp only [decide_eq_true_eq]
    rfl
  refine scan_run (fun fuel i x _ => hstep fuel i x) t fuel i hd hle hfuel ?_
  by_cases h0 : c = 0#8
  · obtain ⟨x, u, rfl⟩ := List.exists_cons_of_ne_nil (hc h0)
    refine .inl ⟨x, List.mem_cons_self, decide_eq_false fun h => ?_⟩
    exact CString.ne_nul hd (h.trans h0)
  · refine .inr fun fuel i hat => (hstep fuel i _ hat).trans (if_neg ?_)
    simpa using Ne.symm h0

theorem passFrom_run (t : List Byte) (fuel i : Nat) (hd : s.bytes.drop i = t) (hle : i ≤ s.length)
    (hfuel : t.length < fuel) :
    passFrom s c fuel i = some (i + (t.takeWhile (· ≠ c)).length) := by
  refine scan_run (fun fuel i x hx hat => ?_) t fuel i hd hle hfuel (.inr fun fuel i hat => ?_)
  · rw [passFrom, bind_some_of hat]
    simp only [decide_eq_true_eq, ne_eq, hx, not_false_eq_true, and_true]
    rfl
  · rw [passFrom, bind_some_of hat]
    exact if_neg fun h => h.2 rfl

theorem wordFrom_run (t : List Byte) : ∀ fuel i len, s.bytes.drop i = t → i ≤ s.length →
    t.length < fuel → len + t.length < 2 ^ 64 → wordFrom s c fuel i len =
      some (i + (t.takeWhile (· ≠ c)).length, len + (t.takeWhile (· ≠ c)).length) := by
  induction t with
  | nil =>
    intro fuel i len hd hle hfuel _
    cases fuel with
    | zero => cases hfuel
    | succ fuel =>
      rw [wordFrom, CString.at_drop hd hle]
      simp
  | cons x t ih =>
    intro fuel i len hd hle hfuel hlen
    rw [List.length_cons] at hfuel hlen
    cases fuel with
    | zero => cases hfuel
    | succ fuel =>
      have hx := CString.ne_nul hd
      rw [wordFrom, CString.at_drop hd hle]
      by_cases hxc : x = c
      · simp [hxc]
      · have hrest := ih fuel (i + 1) (len + 1) (CString.drop_succ hd)
          (CString.length_cons_drop hd hle) (by omega) (by omega)
        have hwrap : wrap (len + 1) = len + 1 := wrap_of_lt (by omega)
        simp [hxc, hx, hwrap, hrest]
        omega

/-- What is left after the longest prefix of a predicate. -/
theorem drop_while {p : Byte → Bool} (hd : s.bytes.drop i = t) (hle : i ≤ s.length) :
    s.bytes.drop (i + (t.takeWhile p).length) = t.dropWhile p ∧
      i + (t.takeWhile p).length ≤ s.length := by
  have hlen := CString.length_drop hd hle
  have hpre := (List.takeWhile_prefix p (l := t)).length_le
  refine ⟨?_, by omega⟩
  rw [← List.drop_drop, hd, drop_takeWhile]

/-- A text after its delimiters is empty or begins with a run. -/
theorem runs_cases (c : Byte) (t : List Byte) :
    (t.dropWhile (· = c) = [] ∧ runs c t = []) ∨
    ∃ y u, t.dropWhile (· = c) = y :: u ∧ y ≠ c ∧
      runs c t = (y :: u).takeWhile (· ≠ c) :: runs c ((y :: u).dropWhile (· ≠ c)) := by
  rw [← runs_dropWhile c t]
  cases hdrop : t.dropWhile (· = c) with
  | nil => exact .inl ⟨rfl, runs_nil⟩
  | cons y u =>
    have hy : y ≠ c := by
      have hhead := List.head?_dropWhile_not (fun y => decide (y = c)) t
      rw [hdrop] at hhead
      simpa using hhead
    exact .inr ⟨y, u, rfl, hy, runs_cons hy⟩

theorem run_pos {x : Byte} (t : List Byte) (hx : x ≠ c) :
    0 < ((x :: t).takeWhile (· ≠ c)).length := by
  rw [List.takeWhile_cons_of_pos (by simpa using hx)]
  exact Nat.succ_pos _

/-- One round of `ft_countchr`. -/
theorem countFrom_round {x y : Byte} {i₁ i₂ fuel : Nat} {n : Int} (hx : s.at? i = some x)
    (h0 : x ≠ 0#8) (hskip : skipFrom s c (s.length + 1) i = some i₁) (hy : s.at? i₁ = some y)
    (hpass : passFrom s c (s.length + 1) i₁ = some i₂) :
    countFrom s c (fuel + 1) i n =
      countFrom s c fuel i₂ (if y ≠ 0#8 then wrapInt (n + 1) else n) := by
  rw [countFrom, bind_some_of hx, if_neg h0, bind_some_of hskip, bind_some_of hy]
  exact bind_some_of hpass _

/-- **`ft_countchr`** from any place on: it adds the number of runs that are left. -/
theorem countFrom_run : ∀ (fuel i n : Nat) (t : List Byte), s.bytes.drop i = t → i ≤ s.length →
    t.length < fuel → n + t.length < 2 ^ 31 →
    countFrom s c fuel i n = some ((n + (runs c t).length : Nat) : Int) := by
  intro fuel
  induction fuel with
  | zero => exact fun i n t _ _ hfuel _ => absurd hfuel (Nat.not_lt_zero _)
  | succ fuel ih =>
    intro i n t hd hle hfuel hn
    have hat := CString.at_drop hd hle
    cases t with
    | nil =>
      rw [countFrom, bind_some_of hat, List.headD_nil, if_pos rfl]
      rfl
    | cons x t =>
      have hx := CString.ne_nul hd
      have hlen := CString.length_drop hd hle
      have hskip := skipFrom_run (c := c) _ (s.length + 1) i hd hle (by omega) nofun
      obtain ⟨hd₁, hle₁⟩ := drop_while (p := (· = c)) hd hle
      have hadd := length_takeWhile_add (fun y => decide (y = c)) (x :: t)
      have hat₁ := CString.at_drop hd₁ hle₁
      generalize i + ((x :: t).takeWhile (· = c)).length = i₁ at hskip hd₁ hle₁ hat₁
      rcases runs_cases c (x :: t) with ⟨hnil, hruns⟩ | ⟨y, u, hcons, hyc, hruns⟩
      · -- the rest of the string was delimiters
        rw [hnil] at hd₁ hat₁
        have hpass := passFrom_run (c := c) [] (s.length + 1) i₁ hd₁ hle₁ (Nat.succ_pos _)
        have hrest := ih i₁ n [] hd₁ hle₁ (by simp at hfuel ⊢; omega) (by simp at hn ⊢; omega)
        rw [countFrom_round hat hx hskip hat₁ hpass, List.headD_nil, if_neg (by simp), hruns]
        rw [runs_nil] at hrest
        exact hrest
      · -- a run follows
        rw [hcons] at hd₁ hadd hat₁
        have hy := CString.ne_nul hd₁
        have hlen₁ := CString.length_drop hd₁ hle₁
        have hpass := passFrom_run (c := c) _ (s.length + 1) i₁ hd₁ hle₁ (by omega)
        obtain ⟨hd₂, hle₂⟩ := drop_while (p := (· ≠ c)) hd₁ hle₁
        have hadd₂ := length_takeWhile_add (fun y => decide (y ≠ c)) (y :: u)
        have hpos := run_pos u hyc
        have hrest := ih _ (n + 1) _ hd₂ hle₂ (by omega) (by omega)
        have hcount : wrapInt ((n : Int) + 1) = (n + 1 : Nat) :=
          wrapInt_nat (n := n + 1) (by omega)
        rw [countFrom_round hat hx hskip hat₁ hpass, List.headD_cons, if_pos hy, hcount, hrest,
          hruns, List.length_cons, Nat.add_assoc, Nat.add_comm 1]

/-- **`ft_countchr`** counts the runs. -/
theorem ftCountchr_run (hlen : s.length < 2 ^ 31) :
    ftCountchr s c = some ((runs c s.bytes).length : Int) := by
  have hcount := countFrom_run (c := c) (s.length + 1) 0 0 s.bytes List.drop_zero (Nat.zero_le _)
    (Nat.lt_succ_self _) (by rw [Nat.zero_add]; exact hlen)
  rw [Nat.zero_add] at hcount
  exact hcount

/-! ## The array -/

/-- Entry `i` for a run. -/
def entryFor (ms : Nat → Malloc) (i : Nat) (r : List Byte) : Entry :=
  .ofPointer (((ms (i + 1)).reply (r.length + 1)).map fun _ => r ++ [0#8])

/-- The entries for some runs, from entry `i` on. -/
def entries (ms : Nat → Malloc) : Nat → List (List Byte) → List Entry
  | _, [] => []
  | i, r :: rs => entryFor ms i r :: entries ms (i + 1) rs

theorem entries_length : ∀ (rs : List (List Byte)) (i : Nat), (entries ms i rs).length = rs.length
  | [], _ => rfl
  | _ :: rs, i => congrArg (· + 1) (entries_length rs (i + 1))

theorem setEntry_run (done rest : List Entry) (e e' : Entry) :
    setEntry (done ++ e' :: rest) done.length e = some (done ++ e :: rest) := by
  unfold setEntry
  rw [if_pos (by simp), List.set_append_right _ _ (Nat.le_refl _), Nat.sub_self, List.set_cons_zero]

/-- `ft_substr(s - len, 0, len)` is a copy of the run. -/
theorem word_substr (m : Malloc) {p : Byte → Bool} (hd : s.bytes.drop i = t) (hle : i ≤ s.length)
    (hlen : s.length < 2 ^ 31) : ftSubstr m (some (s.shift i)) 0 (t.takeWhile p).length =
      some ((m.reply ((t.takeWhile p).length + 1)).map fun _ => t.takeWhile p ++ [0#8]) := by
  have hshift : (s.shift i).length = s.length - i := List.length_drop
  have hbytes : (s.shift i).bytes.drop 0 = t := hd
  have hpre := (List.takeWhile_prefix p (l := t)).length_le
  have hrest := CString.length_drop hd hle
  rw [ftSubstr_run (by omega) (by omega), hbytes, take_takeWhile]

/-- One run in `ft_split`. -/
theorem splitFrom_round {x : Byte} {start len fuel : Nat} {p : Option (List Byte)}
    {ret ret' : List Entry} (hx : s.at? start = some x) (h0 : x ≠ 0#8) (hc : x ≠ c)
    (hword : wordFrom s c (s.length + 1) start 0 = some (start + len, len))
    (hsub : ftSubstr (ms (i + 1)) (some (s.shift start)) 0 len = some p)
    (hset : setEntry ret i (.ofPointer p) = some ret') :
    splitFrom ms s c (fuel + 1) start i ret =
      splitFrom ms s c fuel (start + len) (wrap (i + 1)) ret' := by
  rw [splitFrom, bind_some_of hx, if_neg h0, if_pos hc, bind_some_of hword]
  simp only [Nat.add_sub_cancel]
  rw [bind_some_of hsub, bind_some_of hset]
  rfl

/-- **The loop of `ft_split`** from any place on: it fills in one entry for each run that is
left. -/
theorem splitFrom_run (ms : Nat → Malloc) : ∀ (fuel start i : Nat) (t : List Byte)
    (done junk : List Entry), s.bytes.drop start = t → start ≤ s.length → s.length < 2 ^ 31 →
    t.length < fuel → done.length = i → i + t.length < 2 ^ 31 →
    junk.length = (runs c t).length + 1 →
    ∃ e, splitFrom ms s c fuel start i (done ++ junk) =
      some (i + (runs c t).length, done ++ (entries ms i (runs c t) ++ [e])) := by
  intro fuel
  induction fuel with
  | zero => exact fun start i t done junk _ _ _ hfuel => absurd hfuel (Nat.not_lt_zero _)
  | succ fuel ih =>
    intro start i t done junk hd hle hsize hfuel hi hn hjunk
    have hat := CString.at_drop hd hle
    cases t with
    | nil =>
      obtain ⟨e, rfl⟩ := List.length_eq_one_iff.mp (by simpa using hjunk)
      refine ⟨e, ?_⟩
      rw [splitFrom, bind_some_of hat, List.headD_nil, if_pos rfl, runs_nil]
      rfl
    | cons x t =>
      have hx := CString.ne_nul hd
      have hlen := CString.length_drop hd hle
      by_cases hxc : x = c
      · subst hxc
        rw [splitFrom, bind_some_of hat, List.headD_cons, if_neg hx, if_neg (by simp)]
        rw [runs_delimiter] at hjunk ⊢
        rw [List.length_cons] at hfuel hn
        exact ih (start + 1) i t done junk (CString.drop_succ hd) (CString.length_cons_drop hd hle)
          hsize (by omega) hi (by omega) hjunk
      · -- a run, then what is left after it
        have hword := wordFrom_run (c := c) _ (s.length + 1) start 0 hd hle (by omega) (by omega)
        obtain ⟨hd₂, hle₂⟩ := drop_while (p := (· ≠ c)) hd hle
        have hadd := length_takeWhile_add (fun y => decide (y ≠ c)) (x :: t)
        have hpos := run_pos t hxc
        rw [runs_cons hxc, List.length_cons] at hjunk ⊢
        generalize (x :: t).dropWhile (· ≠ c) = t₂ at *
        have hsub := word_substr (ms (i + 1)) (p := (· ≠ c)) hd hle hsize
        generalize (x :: t).takeWhile (· ≠ c) = r at *
        obtain ⟨e₀, rest, rfl⟩ := List.exists_cons_of_length_eq_add_one hjunk
        have hset := setEntry_run done rest (entryFor ms i r) e₀
        rw [hi] at hset
        rw [Nat.zero_add] at hword
        obtain ⟨e, he⟩ := ih (start + r.length) (i + 1) t₂ (done ++ [entryFor ms i r]) rest hd₂ hle₂
          hsize (by omega) (by simp [hi]) (by omega) (by simpa using hjunk)
        refine ⟨e, ?_⟩
        rw [splitFrom_round hat hx hxc hword hsub hset, wrap_of_lt (by omega)]
        rw [List.append_assoc, List.singleton_append] at he
        rw [he, entries, List.append_assoc, List.singleton_append, List.cons_append,
          Nat.add_assoc, Nat.add_comm 1]

/-! ## The whole function -/

/-- The size of the array is computed without a wrap. -/
theorem array_size {n : Nat} (h : n + 1 < 2 ^ 31) :
    wrap (8 * castSize (wrapInt ((n : Int) + 1))) = 8 * (n + 1) := by
  rw [show (n : Int) + 1 = ((n + 1 : Nat) : Int) from rfl, wrapInt_nat h,
    castSize_of_nat (by omega)]
  exact wrap_of_lt (by omega)

/-- **`ft_split`** for every reply of `malloc`: one entry for each run, and a last one. -/
theorem ftSplit_run (hlen : s.length < 2 ^ 31) : ftSplit ms (some s) c =
    some (((ms 0).reply (8 * ((runs c s.bytes).length + 1))).map
      fun _ => entries ms 0 (runs c s.bytes) ++ [.null]) := by
  have hruns := length_runs_le c s.bytes
  have hsize : (runs c s.bytes).length + 1 < 2 ^ 31 := by
    unfold CString.length at hlen
    omega
  rw [ftSplit, bind_some_of (ftCountchr_run hlen), array_size hsize]
  cases hp : (ms 0).reply (8 * ((runs c s.bytes).length + 1)) with
  | none => rfl
  | some p =>
    have hentries : p.length / 8 = (runs c s.bytes).length + 1 := by
      rw [(ms 0).length _ _ hp, Nat.mul_div_cancel_left _ (by decide)]
    obtain ⟨e, he⟩ := splitFrom_run ms (c := c) (s.length + 1) 0 0 s.bytes []
      (List.replicate (p.length / 8) .unset) List.drop_zero (Nat.zero_le _) hlen
      (Nat.lt_succ_self _) rfl (by rw [Nat.zero_add]; exact hlen)
      (by rw [List.length_replicate, hentries])
    have hset := setEntry_run (entries ms 0 (runs c s.bytes)) [] .null e
    rw [entries_length] at hset
    rw [Nat.zero_add] at he
    simp only [List.nil_append] at he
    simp only
    rw [bind_some_of he, bind_some_of hset]
    rfl

/-- The allocations for the array and for the copies of the runs succeed. -/
structure Allocates (ms : Nat → Malloc) (s : CString) (c : Byte) : Prop where
  array : (ms 0).reply (8 * ((runs c s.bytes).length + 1)) ≠ none
  copies : ∀ i r, (runs c s.bytes)[i]? = some r → (ms (i + 1)).reply (r.length + 1) ≠ none

theorem entries_of_copies : ∀ (rs : List (List Byte)) (i : Nat),
    (∀ j r, rs[j]? = some r → (ms (i + j + 1)).reply (r.length + 1) ≠ none) →
    entries ms i rs = rs.map fun r => .buffer (r ++ [0#8])
  | [], _, _ => rfl
  | r :: rs, i, h => by
    have hrest := entries_of_copies rs (i + 1) fun j r' hj => by
      have hnext := h (j + 1) r' hj
      rwa [← Nat.add_assoc i, Nat.add_right_comm i] at hnext
    obtain ⟨p, hp⟩ := Option.ne_none_iff_exists'.mp (h 0 r rfl)
    rw [Nat.add_zero] at hp
    rw [entries, hrest, entryFor, hp]
    rfl

/-- **`ft_split`** returns the maximal runs of characters other than `c`, in order, and `NULL`; the
array has one entry for each run that `ft_countchr` counts and the last one. -/
theorem split_runs (ms : Nat → Malloc) (s : CString) (c : Byte) (hlen : s.length < 2 ^ 31)
    (hm : Allocates ms s c) :
    ftCountchr s c = some ((runs c s.bytes).length : Int) ∧
    ftSplit ms (some s) c =
      some (some ((runs c s.bytes).map (fun r => .buffer (r ++ [0#8])) ++ [.null])) := by
  obtain ⟨p, hp⟩ := Option.ne_none_iff_exists'.mp hm.array
  have hcopies := entries_of_copies (runs c s.bytes) 0 fun j r hj => by
    rw [Nat.zero_add]
    exact hm.copies j r hj
  refine ⟨ftCountchr_run hlen, ?_⟩
  rw [ftSplit_run hlen, hp, hcopies]
  rfl

theorem split_runs_sample :
    ftSplit (fun _ => succeeding) (some (.ofChars [' ', 'a', 'b', ' ', ' ', 'c'])) (chr ' ') =
      some (some [.buffer (ascii ['a', 'b'] ++ [0#8]), .buffer (ascii ['c'] ++ [0#8]), .null]) := by
  have hruns : runs (chr ' ') (CString.ofChars [' ', 'a', 'b', ' ', ' ', 'c']).bytes =
      [ascii ['a', 'b'], ascii ['c']] := by decide +kernel
  have hsplit := (split_runs (fun _ => succeeding) (.ofChars [' ', 'a', 'b', ' ', ' ', 'c'])
    (chr ' ') (by decide) ⟨nofun, fun _ _ _ => nofun⟩).2
  rw [hruns] at hsplit
  exact hsplit

end Libft

end FtMalloc
