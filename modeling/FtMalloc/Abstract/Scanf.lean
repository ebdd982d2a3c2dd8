import FtMalloc.Abstract.Format
import FtMalloc.Lib.Reader

/-!
# Reading what a format wrote

`readPieces` reads a text with the format that wrote it, and yields the arguments. It can where
every conversion writes a number or nothing at all, and a number is not followed by one of its own
digits (`delimited`).

One argument cannot be told: the `%zu` of `leastSize` writes the text of another number
(`longText`).

Two formats are `apart` when a plain byte tells them from each other before anything else does.

Results:
* `scan_append`: a complete format in front of another one keeps its pieces.
* `render_reads`: what a format stands for is read back as the arguments,
* `apart_fails`: and is not read with a format that is apart from it.
-/

namespace FtMalloc

open Lib Reader

namespace Printf

/-! ## One format after another -/

variable {s t : List Byte}

/-- A conversion that is not cut does not depend on what follows the format. -/
theorem conversion_append (h : (conversion s).cut = false) (t : List Byte) :
    conversion (s ++ t) = conversion s := by
  obtain ⟨u, hu⟩ := conversion_split s
  have hlen := congrArg List.length hu.parts
  have hcut : (conversion s).length ≤ s.length := by
    rw [hu.cut, decide_eq_false_iff_not] at h
    omega
  have htail : 1 ≤ (conversion s).tail := by
    unfold Conversion.tail
    split <;> decide
  rw [List.length_append, List.length_append] at hlen
  have hlength := hu.length
  obtain ⟨c, u, rfl⟩ : ∃ c u', u = c :: u' := List.exists_cons_of_length_pos (by omega)
  have hs : s ≠ [] := by
    rintro rfl
    rw [List.length_nil] at hcut
    omega
  refine Split.unique (t := c :: u ++ t) ⟨?_, ?_, hu.digits, hu.stop, hu.type, hu.length, ?_⟩
  · rw [← List.append_assoc, ← hu.parts]
  · rw [List.head?_append_of_ne_nil s hs]
    exact hu.flag
  · rw [h, eq_comm, decide_eq_false_iff_not, List.length_append]
    omega

/-- **A complete format** in front of another one keeps its pieces, and the other keeps its own. -/
theorem scan_append (h : Complete s) (t : List Byte) : scan (s ++ t) = scan s ++ scan t := by
  induction s using scan.induct with
  | case1 => simp
  | case2 s ih =>
    obtain ⟨hcut, hrest⟩ := complete_percent.mp h
    have hlen : (conversion s).length ≤ s.length := by
      obtain ⟨u, hu⟩ := conversion_split s
      rw [hu.cut, decide_eq_false_iff_not] at hcut
      omega
    rw [List.cons_append, scan_percent, scan_percent, conversion_append hcut,
      List.drop_append_of_le_length hlen, ih hrest, List.cons_append]
  | case3 c s hc ih =>
    rw [List.cons_append, scan_plain hc, scan_plain hc, ih ((complete_plain hc).mp h),
      List.cons_append]

theorem complete_append (h : Complete s) (h' : Complete t) : Complete (s ++ t) := by
  intro p hp
  rw [scan_append h, List.mem_append] at hp
  exact hp.elim (h p) (h' p)

theorem kinds_append (ps qs : List Piece) : kinds (ps ++ qs) = kinds ps ++ kinds qs :=
  List.filterMap_append

theorem render_append (ps qs : List Piece) : ∀ args, render (ps ++ qs) args =
    ((render ps args).1 ++ (render qs (render ps args).2).1, (render qs (render ps args).2).2) := by
  induction ps with
  | nil => exact fun _ => rfl
  | cons p ps ih =>
    intro args
    cases p <;> simp [render, ih]

/-- A format without a percent sign is its bytes. -/
theorem scan_text (h : chr '%' ∉ t) : scan t = t.map .plain := by
  induction t with
  | nil => exact scan_nil
  | cons c t ih =>
    rw [List.mem_cons, not_or] at h
    rw [scan_plain (Ne.symm h.1), ih h.2, List.map_cons]

theorem complete_text (h : chr '%' ∉ t) : Complete t := by
  intro p hp
  rw [scan_text h, List.mem_map] at hp
  obtain ⟨c, -, rfl⟩ := hp
  rfl

theorem kinds_text (t : List Byte) : kinds (t.map .plain) = [] := by
  induction t with
  | nil => rfl
  | cons c t ih => exact ih

theorem render_text (t : List Byte) (args : List Arg) : render (t.map .plain) args = (t, args) := by
  induction t with
  | nil => rfl
  | cons c t ih => rw [List.map_cons, render, ih]

/-! ## Numbers with a sign -/

/-- A decimal number with an optional minus sign, and what follows it. -/
def integer : Reader Int := fun t =>
  if t.head? = some (chr '-') then (natural 10 t.tail).map fun x => (-(x.1 : Int), x.2)
  else (natural 10 t).map fun x => ((x.1 : Int), x.2)

variable {i : Int} {n b : Nat} {u : Bool} {f : Format} {a : Arg} {args : List Arg} {c : Byte}
  {ps : List Piece} {v : Conversion} {rest : List Byte}

theorem numeralText_reads (hb : 1 < b) (h16 : b ≤ 16) (n : Nat) :
    Reads (natural b) (Stops b) (numeralText u b n) n := by
  have hread := natural_reads (u := u) h16 fun d hd => numeral_lt (n := n) hb hd
  rw [numeral_value] at hread
  exact hread

theorem numeralText_head (hb : 1 < b) (h16 : b ≤ 16) (hc : hexValue c = none) (rest : List Byte) :
    (numeralText u b n ++ rest).head? ≠ some c := by
  have hne : numeral b n ≠ [] := by
    unfold numeral
    split
    · exact List.cons_ne_nil _ _
    · rename_i h0
      exact List.reverse_ne_nil_iff.mpr (Nat.digits_ne_nil_iff_ne_zero.mpr h0)
  unfold numeralText
  cases hds : numeral b n with
  | nil => exact absurd hds hne
  | cons d ds =>
    have hd : d < b := numeral_lt hb (hds ▸ List.mem_cons_self)
    simpa using hexChar_ne hc (hd.trans_le h16)

/-- **An integer** is read back, in front of anything that no digit begins. -/
theorem integer_reads (i : Int) : Reads integer (Stops 10) (decimal i) i := by
  intro rest hrest
  have hread := numeralText_reads (u := false) (b := 10) (by decide) (by decide) i.natAbs rest hrest
  unfold integer decimal
  by_cases h : i < 0
  · rw [if_pos h, if_pos (by rfl), List.cons_append, List.tail_cons, hread]
    simp only [Option.map_some, Option.some.injEq, Prod.mk.injEq, and_true]
    omega
  · have hhead := numeralText_head (u := false) (b := 10) (n := i.natAbs) (c := chr '-')
      (by decide) (by decide) (by decide) rest
    rw [if_neg h, if_neg hhead, hread]
    simp only [Option.map_some, Option.some.injEq, Prod.mk.injEq, and_true]
    omega

/-! ## Arguments -/

/-- The base of a conversion, 10 or 16 by its type. -/
def base (type : Byte) : Nat :=
  if type = chr 'x' ∨ type = chr 'X' ∨ type = chr 'p' then 16 else 10

/-- The `size_t` `2 ^ 63`, which is `LLONG_MIN` as a `long long`. -/
def leastSize : BitVec 64 := 0x8000000000000000#64

/-- The argument of a conversion that writes a number, read from the text it writes. -/
def readArg (type : Byte) : Reader Arg :=
  if type = chr 'd' ∨ type = chr 'i' then do
    let i ← integer
    pure (.int (BitVec.ofInt 32 i))
  else if type = chr 'p' then do
    tag (ascii ['0', 'x'])
    let n ← natural 16
    pure (.pointer (BitVec.ofNat 64 n))
  else if type = chr 'z' then do
    let i ← integer
    pure (.size (BitVec.ofInt 64 i))
  else do
    let n ← natural (base type)
    pure (.unsigned (BitVec.ofNat 32 n))

/-- The conversion writes a number, or nothing that depends on an argument. -/
def numeric (type : Byte) : Bool := type ≠ chr 'c' ∧ type ≠ chr 's'

/-- The conversions that take an argument of the kind. -/
def Kind.types : Kind → List Byte
  | .int => ascii ['d', 'i', 'c']
  | .string => ascii ['s']
  | .unsigned => ascii ['u', 'x', 'X']
  | .pointer => ascii ['p']
  | .size => ascii ['z']

theorem kindOf_types {k : Kind} (hk : kindOf c = some k) : c ∈ k.types := by
  unfold kindOf at hk
  split_ifs at hk with h1 h2 h3 h4 h5 <;> cases hk
  · simpa [Kind.types, ascii] using h1
  · simpa [Kind.types, ascii] using h2
  · simpa [Kind.types, ascii] using h3
  · simpa [Kind.types, ascii] using h4
  · simpa [Kind.types, ascii] using h5

theorem toLong_inj (n : BitVec 64) : BitVec.ofInt 64 (toLong n.toNat) = n := by
  have hbmod : toLong n.toNat = n.toInt := (BitVec.toInt_eq_toNat_bmod n).symm
  rw [hbmod, BitVec.ofInt_toInt]

/-- Hexadecimal with zeros in front of it reads as the number. -/
theorem paddedText_reads (f : Format) (n : Nat) :
    Reads (natural 16) (Stops 16) (paddedText f n) n := by
  have hzero : chr '0' = hexChar (f.type = chr 'X') 0 := rfl
  let pad := if f.zero ≠ 0 then f.width.toNat - (numeralText (f.type = chr 'X') 16 n).length else 0
  have htext : paddedText f n =
      (List.replicate pad 0 ++ numeral 16 n).map (hexChar (f.type = chr 'X')) := by
    rw [List.map_append, List.map_replicate, ← hzero]
    rfl
  have hdigits : ∀ d ∈ List.replicate pad 0 ++ numeral 16 n, d < 16 := by
    intro d hd
    rcases List.mem_append.mp hd with hd | hd
    · rw [List.eq_of_mem_replicate hd]
      decide
    · exact numeral_lt (by decide) hd
  have hread := natural_reads (u := f.type = chr 'X') (Nat.le_refl 16) hdigits
  rw [numeralValue_zeros, numeral_value, ← htext] at hread
  exact hread

/-- **An argument** is read back, but for the one size whose text is another's. -/
theorem argText_reads (hf : kindOf f.type = some a.kind) (hn : numeric f.type = true)
    (hmin : a ≠ .size leastSize) :
    Reads (readArg f.type) (Stops (base f.type)) (argText f a) a := by
  have htype := kindOf_types hf
  have hnot : f.type ≠ chr 'c' ∧ f.type ≠ chr 's' := by simpa [numeric] using hn
  cases a with
  | int i =>
    have htype : f.type = chr 'd' ∨ f.type = chr 'i' := by
      simpa [Arg.kind, Kind.types, ascii, hnot.1] using htype
    have hbase : base f.type = 10 := by
      rcases htype with h | h <;> rw [h] <;> rfl
    have hread := (integer_reads i.toInt).map fun i => Arg.int (BitVec.ofInt 32 i)
    rw [BitVec.ofInt_toInt] at hread
    rw [hbase, readArg, if_pos htype, argText, if_neg hnot.1]
    exact hread
  | unsigned n =>
    have htype : f.type = chr 'u' ∨ f.type = chr 'x' ∨ f.type = chr 'X' := by
      simpa [Arg.kind, Kind.types, ascii] using htype
    have hreader : readArg f.type =
        (natural (base f.type) >>= fun n => pure (Arg.unsigned (BitVec.ofNat 32 n))) := by
      rcases htype with h | h | h <;> rw [h] <;> rfl
    have htext : Reads (natural (base f.type)) (Stops (base f.type)) (argText f (.unsigned n))
        n.toNat := by
      by_cases hu : f.type = chr 'u'
      · have hbase : base f.type = 10 := by
          rw [hu]
          rfl
        have hdec : decimal (n.toNat : Int) = numeralText false 10 n.toNat := by
          unfold decimal
          rw [if_neg (by omega), Int.natAbs_natCast]
        rw [hbase, argText, if_pos hu, hdec]
        exact numeralText_reads (by decide) (by decide) n.toNat
      · have hbase : base f.type = 16 := by
          rcases htype.resolve_left hu with h | h <;> rw [h] <;> rfl
        rw [hbase, argText, if_neg hu]
        exact paddedText_reads f n.toNat
    have hread := htext.map fun n => Arg.unsigned (BitVec.ofNat 32 n)
    rw [BitVec.ofNat_toNat, BitVec.setWidth_eq] at hread
    rw [hreader]
    exact hread
  | size n =>
    have htype : f.type = chr 'z' := by
      simpa [Arg.kind, Kind.types, ascii] using htype
    have hmost : toLong n.toNat ≠ llongMin := by
      intro h
      have hleast : BitVec.ofInt 64 llongMin = leastSize := rfl
      refine hmin (congrArg Arg.size ?_)
      calc n = BitVec.ofInt 64 (toLong n.toNat) := (toLong_inj n).symm
        _ = BitVec.ofInt 64 llongMin := by rw [h]
        _ = leastSize := hleast
    have hread := (integer_reads (toLong n.toNat)).map fun i => Arg.size (BitVec.ofInt 64 i)
    rw [toLong_inj] at hread
    rw [argText, longText, if_neg hmost, htype]
    exact hread
  | pointer n =>
    have htype : f.type = chr 'p' := by
      simpa [Arg.kind, Kind.types, ascii] using htype
    have hdigits : Reads (natural 16) (Stops 16) (numeralText false 16 n.toNat) n.toNat :=
      numeralText_reads (by decide) (by decide) n.toNat
    have hread := hdigits.map fun n => Arg.pointer (BitVec.ofNat 64 n)
    rw [BitVec.ofNat_toNat, BitVec.setWidth_eq] at hread
    rw [argText, htype]
    change Reads (tag (ascii ['0', 'x']) >>= fun _ => natural 16 >>= fun n =>
      pure (Arg.pointer (BitVec.ofNat 64 n))) (Stops 16) _ _
    exact (tag_reads _).next hread
  | string s => simp [Arg.kind, Kind.types, ascii, hnot.2] at htype

/-! ## Pieces -/

/-- A number in base `b` ends where these pieces begin. -/
def ends (b : Nat) : List Piece → Bool
  | [] => true
  | .plain c :: _ => !isDigit b c
  | .conv _ :: _ => false

/-- Every conversion is numeric, and no number runs into what follows it. -/
def delimited : List Piece → Bool
  | [] => true
  | .plain _ :: ps => delimited ps
  | .conv v :: ps =>
    numeric v.type && (!(kindOf v.type).isSome || ends (base v.type) ps) && delimited ps

/-- The text of a conversion without an argument: a percent sign for `%%`, and nothing for an
unknown type. -/
def percentText (type : Byte) : List Byte := if type = chr '%' then [chr '%'] else []

/-- The arguments of the pieces, read from the text they stand for. -/
def readPieces : List Piece → Reader (List Arg)
  | [] => pure []
  | .plain c :: ps => do
    tag [c]
    readPieces ps
  | .conv v :: ps =>
    match kindOf v.type with
    | some _ => do
      let a ← readArg v.type
      let as ← readPieces ps
      pure (a :: as)
    | none => do
      tag (percentText v.type)
      readPieces ps

theorem base_le (type : Byte) : base type ≤ 16 := by
  unfold base
  split <;> decide

/-- What the pieces stand for does not go on with the number before it. -/
theorem ends_stops (h : ends b ps = true) (hb : b ≤ 16) (hrest : Stops 16 rest) :
    Stops b ((render ps args).1 ++ rest) := by
  cases ps with
  | nil => exact hrest.mono hb
  | cons p ps =>
    cases p with
    | plain c =>
      intro x hx
      obtain rfl : c = x := by simpa [render] using hx
      simpa [ends] using h
    | conv v => cases h

/-- A conversion without an argument, or one with the first of them. -/
theorem kinds_conv (h : kinds (.conv v :: ps) = args.map Arg.kind) :
    (kindOf v.type = none ∧ kinds ps = args.map Arg.kind) ∨
      ∃ a as, args = a :: as ∧ kindOf v.type = some a.kind ∧ kinds ps = as.map Arg.kind := by
  cases hk : kindOf v.type with
  | none =>
    have hkinds : kinds (.conv v :: ps) = kinds ps := List.filterMap_cons_none hk
    exact Or.inl ⟨rfl, hkinds.symm.trans h⟩
  | some k =>
    have hkinds : kinds (.conv v :: ps) = k :: kinds ps := List.filterMap_cons_some hk
    rw [hkinds] at h
    cases args with
    | nil => cases h
    | cons a as =>
      obtain ⟨rfl, hrest⟩ := List.cons.inj h
      exact Or.inr ⟨a, as, rfl, rfl, hrest⟩

theorem render_none (hk : kindOf v.type = none) : render (.conv v :: ps) args =
    (percentText v.type ++ (render ps args).1, (render ps args).2) := by
  have htype : v.format.type = v.type := rfl
  simp only [render, convText, htype, hk, percentText]

theorem render_some {k : Kind} (hk : kindOf v.type = some k) : render (.conv v :: ps) (a :: args) =
    (argText v.format a ++ (render ps args).1, (render ps args).2) := by
  have htype : v.format.type = v.type := rfl
  simp only [render, convText, htype, hk]

theorem readPieces_none (hk : kindOf v.type = none) : readPieces (.conv v :: ps) =
    (tag (percentText v.type) >>= fun _ => readPieces ps) := by
  simp only [readPieces, hk]

theorem readPieces_some {k : Kind} (hk : kindOf v.type = some k) : readPieces (.conv v :: ps) =
    (readArg v.type >>= fun a => readPieces ps >>= fun as => pure (a :: as)) := by
  simp only [readPieces, hk]

theorem delimited_conv (h : delimited (.conv v :: ps) = true) : numeric v.type = true ∧
    (kindOf v.type ≠ none → ends (base v.type) ps = true) ∧ delimited ps = true := by
  simp only [delimited, Bool.and_eq_true, Bool.or_eq_true, Bool.not_eq_true'] at h
  refine ⟨h.1.1, fun hk => h.1.2.resolve_left ?_, h.2⟩
  simpa [Option.isSome_iff_ne_none] using hk

/-- The argument of a conversion is read back in front of the pieces that follow. -/
theorem conv_reads (args : List Arg) (hd : delimited (.conv v :: ps) = true)
    (hk : kindOf v.type = some a.kind)
    (hmin : a ≠ .size leastSize) (hrest : Stops 16 rest) :
    readArg v.type (argText v.format a ++ ((render ps args).1 ++ rest)) =
      some (a, (render ps args).1 ++ rest) := by
  obtain ⟨hnum, hends, -⟩ := delimited_conv hd
  refine argText_reads (f := v.format) hk hnum hmin _ (ends_stops (hends ?_) (base_le _) hrest)
  rw [hk]
  simp

/-- **What a format stands for** is read back as the arguments, if no number runs into the piece
after it. -/
theorem render_reads (hd : delimited ps = true) : ∀ args, kinds ps = args.map Arg.kind →
    Arg.size leastSize ∉ args → Reads (readPieces ps) (Stops 16) (render ps args).1 args := by
  induction ps with
  | nil =>
    intro args hargs _
    obtain rfl : args = [] := by simpa [kinds] using hargs.symm
    exact .pure []
  | cons p ps ih =>
    intro args hargs hmin
    cases p with
    | plain c => exact (tag_reads [c]).next (ih hd args hargs hmin)
    | conv v =>
      have hps := (delimited_conv hd).2.2
      rcases kinds_conv hargs with ⟨hk, hargs⟩ | ⟨a, as, rfl, hk, hargs⟩
      · rw [readPieces_none hk, render_none hk]
        exact (tag_reads _).next (ih hps args hargs hmin)
      · simp only [List.mem_cons, not_or] at hmin
        rw [readPieces_some hk, render_some hk]
        intro rest hrest
        rw [List.append_assoc]
        have hfirst := conv_reads as hd hk (Ne.symm hmin.1) hrest
        exact Prog.bind_to hfirst (Prog.bind_to (ih hps as hargs hmin.2 rest hrest) rfl)

/-- The pieces take their own arguments, and leave those of what follows. -/
theorem render_left {ks : List Kind} : ∀ {args}, kinds ps ++ ks <+: args.map Arg.kind →
    ks <+: (render ps args).2.map Arg.kind := by
  induction ps with
  | nil => exact fun h => h
  | cons p ps ih =>
    intro args h
    cases p with
    | plain c => exact ih h
    | conv v =>
      cases hk : kindOf v.type with
      | none =>
        have hkinds : kinds (.conv v :: ps) = kinds ps := List.filterMap_cons_none hk
        rw [hkinds] at h
        rw [render_none hk]
        exact ih h
      | some k =>
        have hkinds : kinds (.conv v :: ps) = k :: kinds ps := List.filterMap_cons_some hk
        rw [hkinds] at h
        cases args with
        | nil => simp at h
        | cons a as =>
          rw [List.map_cons, List.cons_append, List.cons_prefix_cons] at h
          rw [render_some hk]
          exact ih h.2

/-- The pieces take all the arguments, when there are no others. -/
theorem render_rest : ∀ {args}, kinds ps = args.map Arg.kind → (render ps args).2 = [] := by
  induction ps with
  | nil =>
    intro args h
    simpa [kinds, render] using h.symm
  | cons p ps ih =>
    intro args h
    cases p with
    | plain c => exact ih h
    | conv v =>
      rcases kinds_conv h with ⟨hk, h⟩ | ⟨a, as, rfl, hk, h⟩
      · rw [render_none hk]
        exact ih h
      · rw [render_some hk]
        exact ih h

/-! ## Two formats -/

/-- A plain byte tells the formats from each other, and nothing does before it. -/
def apart : List Piece → List Piece → Bool
  | .plain c :: ps, .plain d :: qs => c ≠ d || apart ps qs
  | .conv v :: ps, .conv u :: qs => v.type = u.type && apart ps qs
  | _, _ => false

/-- **What another format wrote** is not read: the two differ in a plain byte before they could
agree. -/
theorem apart_fails {qs : List Piece} (hd : delimited qs = true) (h : apart ps qs = true) :
    ∀ args, kinds qs = args.map Arg.kind → Arg.size leastSize ∉ args → ∀ rest, Stops 16 rest →
      readPieces ps ((render qs args).1 ++ rest) = none := by
  induction ps generalizing qs with
  | nil => cases h
  | cons p ps ih =>
    intro args hargs hmin rest hrest
    cases qs with
    | nil => cases p <;> cases h
    | cons q qs =>
      cases p with
      | plain c =>
        cases q with
        | conv u => cases h
        | plain d =>
          by_cases hc : c = d
          · subst hc
            have hps : apart ps qs = true := by simpa [apart] using h
            have hqs : delimited qs = true := hd
            have htag := tag_run [c] ((render qs args).1 ++ rest)
            exact (Prog.bind_of htag).trans (ih hqs hps args hargs hmin rest hrest)
          · have htag : tag [c] (d :: ((render qs args).1 ++ rest)) = none :=
              tag_fails (by simp [hc])
            exact Prog.bind_none htag
      | conv v =>
        cases q with
        | plain d => cases h
        | conv u =>
          simp only [apart, Bool.and_eq_true, decide_eq_true_eq] at h
          obtain ⟨htype, hps⟩ := h
          have hqs := (delimited_conv hd).2.2
          rcases kinds_conv hargs with ⟨hk, hargs⟩ | ⟨a, as, rfl, hk, hargs⟩
          · have htag := tag_run (percentText u.type) ((render qs args).1 ++ rest)
            rw [readPieces_none (htype ▸ hk), render_none hk, htype, List.append_assoc]
            exact (Prog.bind_of htag).trans (ih hqs hps args hargs hmin rest hrest)
          · simp only [List.mem_cons, not_or] at hmin
            have hfirst := conv_reads as hd hk (Ne.symm hmin.1) hrest
            rw [readPieces_some (htype ▸ hk), render_some hk, htype, List.append_assoc]
            refine (Prog.bind_of hfirst).trans (Prog.bind_none ?_)
            exact ih hqs hps as hargs hmin.2 rest hrest

theorem apart_append {qs : List Piece} (h : apart ps qs = true) (xs ys : List Piece) :
    apart (ps ++ xs) (qs ++ ys) = true := by
  induction ps generalizing qs with
  | nil => cases h
  | cons p ps ih =>
    cases qs with
    | nil => cases p <;> cases h
    | cons q qs =>
      cases p <;> cases q <;> simp only [apart, List.cons_append, Bool.or_eq_true, Bool.and_eq_true,
        Bool.false_eq_true] at h ⊢
      · exact h.imp_right ih
      · exact h.imp_right ih

theorem apart_text {qs : List Piece} (t : List Byte) (h : apart ps qs = true) :
    apart (t.map .plain ++ ps) (t.map .plain ++ qs) = true := by
  induction t with
  | nil => exact h
  | cons c t ih => simpa [apart] using ih

theorem delimited_text (t : List Byte) (h : delimited ps = true) :
    delimited (t.map .plain ++ ps) = true := by
  induction t with
  | nil => exact h
  | cons c t ih => exact ih

/-- A plain byte that is no digit may follow, whichever number stands before it. -/
theorem delimited_concat (h : delimited ps = true) (hc : hexValue c = none) :
    delimited (ps ++ [.plain c]) = true := by
  induction ps with
  | nil => rfl
  | cons p ps ih =>
    cases p with
    | plain d => exact ih h
    | conv v =>
      obtain ⟨hnum, hends, hps⟩ := delimited_conv h
      have hdigit : isDigit (base v.type) c = false := by simp [isDigit, hc]
      have hends' : kindOf v.type ≠ none → ends (base v.type) (ps ++ [.plain c]) = true := by
        intro hk
        have hnext := hends hk
        cases ps with
        | nil => simpa [ends] using hdigit
        | cons q ps => cases q <;> exact hnext
      have hall := ih hps
      simp only [List.cons_append, delimited, hnum, hall, Bool.true_and, Bool.and_true]
      cases hk : kindOf v.type with
      | none => rfl
      | some k => exact hends' (by simp [hk])

end Printf

end FtMalloc
