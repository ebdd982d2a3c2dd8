import FtMalloc.Lib.Numeral
import FtMalloc.Lib.Prog

/-!
# Readers

A `Reader` takes a value off the front of a text, or fails: it is a program whose state is the text
that is left. `tag`, `upTo`, `number`, `natural` and `many` are the usual ones.

`Reads r ok t a` says that `r` takes exactly `t` off, and yields `a`, in front of every text that is
`ok`. What may follow matters to a reader that goes on as long as it can.

Results: `Reads.bind` and one rule for each reader; `Reads.all`: a text that is read to its end.
-/

namespace FtMalloc.Lib

/-- A reader of texts: it takes something off the front and yields a value, or does not read. -/
abbrev Reader (α : Type) : Type := Prog (List Byte) α

namespace Reader

variable {α β : Type}

/-- The text `s` itself. -/
def tag (s : List Byte) : Reader Unit := fun t =>
  if s <+: t then some ((), t.drop s.length) else none

/-- What comes before the first `c`; the `c` goes too. -/
def upTo (c : Byte) : Reader (List Byte) := fun t =>
  if t.contains c then some (before c t, after c t) else none

/-- A number in base `b`, closed by `c`. -/
def number (b : Nat) (c : Byte) : Reader Nat := do
  let l ← upTo c
  match l.mapM hexValue with
  | some ds => pure (numeralValue b ds)
  | none => Prog.fault

/-- The longest front of bytes that satisfy `p`. -/
def span (p : Byte → Bool) : Reader (List Byte) := fun t => some (t.takeWhile p, t.dropWhile p)

/-- A digit in base `b`. -/
def isDigit (b : Nat) (c : Byte) : Bool := (hexValue c).any (· < b)

/-- A number in base `b`, as far as there are digits. -/
def natural (b : Nat) : Reader Nat := do
  let l ← span (isDigit b)
  pure (numeralValue b (hexDigits l))

/-- Up to `n` values, as long as `r` reads; what it does not read is left. -/
def manyUpTo (r : Reader α) : Nat → Reader (List α)
  | 0 => pure []
  | n + 1 => fun t =>
    match r t with
    | some (a, t') => (manyUpTo r n t').map fun x => (a :: x.1, x.2)
    | none => some ([], t)

/-- Values as long as `r` reads. -/
def many (r : Reader α) : Reader (List α) := fun t => manyUpTo r t.length t

/-- The first of the readers that reads, tried in order. -/
def oneOf (rs : List (Reader α)) : Reader α := fun t => rs.findSome? fun r => r t

/-- The value of a whole text, of which nothing may be left. -/
def all (r : Reader α) (t : List Byte) : Option α :=
  match r t with
  | some (a, []) => some a
  | _ => none

/-- In front of what is `ok`, `r` takes off `t` and yields `a`: how a text that was written is read
back. -/
def Reads (r : Reader α) (ok : List Byte → Prop) (t : List Byte) (a : α) : Prop :=
  ∀ rest, ok rest → r (t ++ rest) = some (a, rest)

variable {r : Reader α} {f : α → Reader β} {ok ok' : List Byte → Prop} {s t l : List Byte} {a : α}
  {v : β} {b : Nat} {c : Byte}

theorem Reads.pure (a : α) : Reads (pure a) ok [] a := fun _ _ => rfl

/-- **One reader after the other.** -/
theorem Reads.bind (h : Reads r ok' s a) (h' : Reads (f a) ok t v)
    (hok : ∀ rest, ok rest → ok' (t ++ rest)) : Reads (r >>= f) ok (s ++ t) v := by
  intro rest hrest
  rw [List.append_assoc]
  exact Prog.bind_to (h _ (hok rest hrest)) (h' rest hrest)

/-- The first reader does not care what follows. -/
theorem Reads.next (h : Reads r (fun _ => True) s a) (h' : Reads (f a) ok t v) :
    Reads (r >>= f) ok (s ++ t) v := h.bind h' fun _ _ => trivial

/-- A last value that is computed. -/
theorem Reads.map (h : Reads r ok s a) (g : α → β) :
    Reads (r >>= fun x => Pure.pure (g x)) ok s (g a) := fun rest hrest =>
  Prog.bind_to (h rest hrest) rfl

theorem Reads.mono (h : Reads r ok' s a) (hok : ∀ rest, ok rest → ok' rest) : Reads r ok s a :=
  fun rest hrest => h rest (hok rest hrest)

/-- **A whole text.** -/
theorem Reads.all (h : Reads r ok t a) (hok : ok []) : r.all t = some a := by
  have hrun := h [] hok
  rw [List.append_nil] at hrun
  unfold Reader.all
  rw [hrun]

theorem tag_run (s t : List Byte) : tag s (s ++ t) = some ((), t) := by
  simp [tag]

theorem tag_reads (s : List Byte) : Reads (tag s) ok s () := fun rest _ => tag_run s rest

/-- A text that begins otherwise. -/
theorem tag_fails (h : ¬s <+: t) : tag s t = none := if_neg h

theorem upTo_reads (h : c ∉ l) : Reads (upTo c) ok (l ++ [c]) l := by
  intro rest _
  have hc : (l ++ c :: rest).contains c = true := by simp
  rw [List.append_assoc, List.singleton_append]
  unfold upTo
  rw [if_pos hc, before_append h, after_append h]

theorem mapM_hexValue {u : Bool} {ds : List Nat} (hd : ∀ d ∈ ds, d < 16) :
    (ds.map (hexChar u)).mapM hexValue = some ds := by
  induction ds with
  | nil => rfl
  | cons d ds ih =>
    have h1 := hexValue_hexChar (u := u) (hd d List.mem_cons_self)
    have h2 := ih fun x hx => hd x (List.mem_cons_of_mem _ hx)
    rw [List.map_cons, List.mapM_cons, h1, h2]
    rfl

/-- **A number** is read back, whatever case its digits have. -/
theorem number_reads {u : Bool} (hb : 1 < b) (h16 : b ≤ 16) (hc : hexValue c = none)
    (n : Nat) : Reads (number b c) ok (numeralText u b n ++ [c]) n := by
  have hdigit : ∀ d ∈ numeral b n, d < 16 := fun d hd => (numeral_lt hb hd).trans_le h16
  have hclean : c ∉ numeralText u b n := by
    intro hm
    obtain ⟨d, hd, he⟩ := List.mem_map.mp hm
    exact hexChar_ne hc (hdigit d hd) he
  have hvalue : (numeralText u b n).mapM hexValue = some (numeral b n) := mapM_hexValue hdigit
  intro rest hrest
  refine Prog.bind_to (upTo_reads hclean rest hrest) ?_
  rw [hvalue]
  exact congrArg (fun v => some (v, rest)) (numeral_value b n)

/-- No digit in base `b` comes first. -/
def Stops (b : Nat) (rest : List Byte) : Prop := ∀ c ∈ rest.head?, isDigit b c = false

theorem Stops.mono {b' : Nat} {rest : List Byte} (h : Stops b' rest) (hb : b ≤ b') :
    Stops b rest := by
  intro c hc
  have hnone := h c hc
  unfold isDigit at hnone ⊢
  cases hv : hexValue c with
  | none => rfl
  | some d =>
    simp only [hv, Option.any_some, decide_eq_false_iff_not] at hnone ⊢
    omega

theorem span_reads {p : Byte → Bool} (hl : ∀ c ∈ l, p c = true) :
    Reads (span p) (fun rest => ∀ c ∈ rest.head?, p c = false) l l := by
  intro rest hrest
  have hstop : rest.takeWhile p = [] ∧ rest.dropWhile p = rest := by
    cases rest with
    | nil => exact ⟨rfl, rfl⟩
    | cons c rest => simp [hrest c rfl]
  unfold span
  rw [List.takeWhile_append_of_pos hl, List.dropWhile_append_of_pos hl, hstop.1, hstop.2,
    List.append_nil]

/-- **Digits** are read as their value. -/
theorem natural_reads {u : Bool} {ds : List Nat} (h16 : b ≤ 16) (hd : ∀ d ∈ ds, d < b) :
    Reads (natural b) (Stops b) (ds.map (hexChar u)) (numeralValue b ds) := by
  have hdigit : ∀ c ∈ ds.map (hexChar u), isDigit b c = true := by
    intro c hc
    obtain ⟨d, hm, rfl⟩ := List.mem_map.mp hc
    have hlt := hd d hm
    simp [isDigit, hexValue_hexChar (u := u) (hlt.trans_le h16), hlt]
  have hvalue := hexDigits_map (u := u) fun d hm => (hd d hm).trans_le h16
  have hread := (span_reads hdigit).map fun l => numeralValue b (hexDigits l)
  rw [hvalue] at hread
  exact hread

/-- Readers of what is written item by item, `items` being the texts and their values. -/
theorem manyUpTo_reads {items : List (List Byte × α)}
    (h : ∀ x ∈ items, Reads r ok x.1 x.2 ∧ ∀ rest, ok (x.1 ++ rest)) : ∀ n, items.length ≤ n →
    Reads (manyUpTo r n) (fun rest => ok rest ∧ r rest = none) (items.flatMap Prod.fst)
      (items.map Prod.snd) := by
  induction items with
  | nil =>
    rintro (- | n) - rest ⟨-, hstop⟩
    · rfl
    · simp [manyUpTo, hstop]
  | cons x items ih =>
    rintro (- | n) hn rest hrest
    · cases hn
    · have hlast :=
        ih (fun y hy => h y (List.mem_cons_of_mem _ hy)) n (by simpa using hn) rest hrest
      have hnext : ok (items.flatMap Prod.fst ++ rest) := by
        cases items with
        | nil => exact hrest.1
        | cons y items =>
          rw [List.flatMap_cons, List.append_assoc]
          exact (h y (by simp)).2 _
      have hfirst := (h x List.mem_cons_self).1 _ hnext
      rw [List.flatMap_cons, List.append_assoc, manyUpTo]
      simp only [hfirst, hlast]
      rfl

/-- **Many values**, each written by a text that is not empty. -/
theorem many_reads {items : List (List Byte × α)}
    (h : ∀ x ∈ items, Reads r ok x.1 x.2 ∧ ∀ rest, ok (x.1 ++ rest))
    (hne : ∀ x ∈ items, x.1 ≠ []) :
    Reads (many r) (fun rest => ok rest ∧ r rest = none) (items.flatMap Prod.fst)
      (items.map Prod.snd) := by
  have hlen : items.length ≤ (items.flatMap Prod.fst).length := by
    clear h
    induction items with
    | nil => exact Nat.zero_le _
    | cons x items ih =>
      have hx := List.length_pos_iff.mpr (hne x List.mem_cons_self)
      have hrest := ih fun y hy => hne y (List.mem_cons_of_mem _ hy)
      rw [List.flatMap_cons, List.length_append, List.length_cons]
      omega
  intro rest hrest
  refine manyUpTo_reads h _ ?_ rest hrest
  rw [List.length_append]
  omega

/-- **Alternatives**: the readers before `r` do not read what `r` reads. -/
theorem oneOf_reads {rs rs' : List (Reader α)} (h : Reads r ok t a)
    (hfail : ∀ r' ∈ rs, ∀ rest, ok rest → r' (t ++ rest) = none) :
    Reads (oneOf (rs ++ r :: rs')) ok t a := by
  intro rest hrest
  have hnone : rs.findSome? (fun r => r (t ++ rest)) = none :=
    List.findSome?_eq_none_iff.mpr fun r' hr' => hfail r' hr' rest hrest
  unfold oneOf
  rw [List.findSome?_append, hnone, List.findSome?_cons, h rest hrest]
  rfl

end Reader

end FtMalloc.Lib
