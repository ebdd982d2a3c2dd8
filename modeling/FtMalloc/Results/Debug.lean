import FtMalloc.Abstract.Scanf
import FtMalloc.Refine.Printf
import FtMalloc.Source.Debug

/-!
# The debug log (`src/malloc.h:19-25`, `bonus/src/malloc_bonus.h:19-25`, every `DBG`)

Results:
* `printf_append`: a call with one format after another does what the two calls do.
* `printf_readable`: what `ft_printf` wrote is read back as its arguments, for every format whose
  numbers do not run into what follows them.
* `log_readable`: debug calls of the two allocators write a line each, and the log is read back as
  these calls with their arguments.

Both exclude one value: the `%zu` of `2 ^ 63` writes another number.
-/

namespace FtMalloc

open Lib Reader Printf

variable {k : Kernel} {c : Byte} {ps qs : List Piece} {args : List Arg} {t written rest : List Byte}
  {d : DebugCall} {f : Format} {a : Arg} {v : Conversion}

/-! ## Any format -/

/-- One string after another. -/
def CString.append (s t : CString) : CString where
  bytes := s.bytes ++ t.bytes
  noNul h := (List.mem_append.mp h).elim s.noNul t.noNul

/-- **One format after another**: a single call prints what two calls print, takes the arguments
that they take, and returns the sum of what they return. -/
theorem printf_append (k : Kernel) (s t : CString) (args : List Arg) (written : List Byte)
    (hs : Complete s.bytes) (ht : Complete t.bytes) (hlen : s.length + t.length < 2 ^ 31)
    (hargs : Typed (s.append t).bytes args) :
    ∃ r r₁ r₂ c₁ c₂, ftPrintf k s ⟨args, written⟩ = .ok (r₁, c₁) ∧
      ftPrintf k t c₁ = .ok (r₂, c₂) ∧ ftPrintf k (s.append t) ⟨args, written⟩ = .ok (r, c₂) ∧
        (Full k → r = wrapInt (r₁ + r₂)) := by
  have hscan : scan (s.append t).bytes = scan s.bytes ++ scan t.bytes := scan_append hs t.bytes
  have hkinds : kinds (scan s.bytes) ++ kinds (scan t.bytes) <+: args.map Arg.kind := by
    rw [← kinds_append, ← hscan]
    exact hargs
  have hs₁ : Typed s.bytes args := (List.prefix_append _ _).trans hkinds
  have ht₁ : Typed t.bytes (render (scan s.bytes) args).2 := render_left hkinds
  obtain ⟨r₁, hrun₁, hcount₁⟩ := ftPrintf_run (k := k) (c := ⟨args, written⟩) hs₁ hs (by omega)
  obtain ⟨r₂, hrun₂, hcount₂⟩ := ftPrintf_run (k := k)
    (c := ⟨(render (scan s.bytes) args).2, written ++ (render (scan s.bytes) args).1⟩) ht₁ ht
    (by omega)
  have hlen' : (s.append t).length < 2 ^ 31 := by
    simpa [CString.append, CString.length] using hlen
  obtain ⟨r, hrun, hcount⟩ := ftPrintf_run (k := k) (c := ⟨args, written⟩) hargs
    (complete_append hs ht) hlen'
  refine ⟨r, r₁, r₂, _, _, hrun₁, hrun₂, ?_, fun hk => ?_⟩
  · rw [hrun, hscan, render_append]
    simp [Console.put]
  · rw [hcount hk, hcount₁ hk, hcount₂ hk, hscan, render_append]
    simp

theorem printf_append_sample :
    let s := CString.ofChars ['%', 'd', ' ']
    let t := CString.ofChars ['%', '0', '4', 'x']
    ∃ r r₁ r₂ c₁ c₂, ftPrintf fullKernel s ⟨[.int 7, .unsigned 255], []⟩ = .ok (r₁, c₁) ∧
      ftPrintf fullKernel t c₁ = .ok (r₂, c₂) ∧
      ftPrintf fullKernel (s.append t) ⟨[.int 7, .unsigned 255], []⟩ = .ok (r, c₂) ∧
        (Full fullKernel → r = wrapInt (r₁ + r₂)) :=
  printf_append fullKernel _ _ _ [] (by decide +kernel) (by decide +kernel) (by decide +kernel)
    (by decide +kernel)

/-- **What `ft_printf` wrote** is read back as its arguments. -/
theorem printf_readable (k : Kernel) (s : CString) (args : List Arg) (written : List Byte)
    (hargs : kinds (scan s.bytes) = args.map Arg.kind) (hc : Complete s.bytes)
    (hlen : s.length < 2 ^ 31) (hd : delimited (scan s.bytes) = true)
    (hmin : Arg.size leastSize ∉ args) :
    ∃ r text, ftPrintf k s ⟨args, written⟩ = .ok (r, ⟨[], written ++ text⟩) ∧
      (readPieces (scan s.bytes)).all text = some args := by
  have htyped : Typed s.bytes args := by
    unfold Typed
    rw [hargs]
  obtain ⟨r, hrun, -⟩ := ftPrintf_run (k := k) (c := ⟨args, written⟩) htyped hc hlen
  rw [render_rest hargs] at hrun
  refine ⟨r, _, hrun, (render_reads hd args hargs hmin).all ?_⟩
  exact fun c hc => absurd hc (by simp)

theorem printf_readable_sample : ∃ r text,
    ftPrintf fullKernel addressCall.string ⟨[.pointer 69632, .int (-1), .pointer 70000], []⟩ =
      .ok (r, ⟨[], [] ++ text⟩) ∧
    (readPieces (scan addressCall.string.bytes)).all text =
      some [.pointer 69632, .int (-1), .pointer 70000] :=
  printf_readable _ _ _ _ (by decide +kernel) (by decide +kernel) (by decide +kernel)
    (by decide +kernel) (by simp)

/-! ## Lines -/

/-- `va_arg` reads an argument of the type as this kind. An `unsigned char` is passed as an `int`;
it is not negative, so `%x` may read it as an `unsigned int`. -/
def CType.kind : CType → Kind
  | .int => .int
  | .uchar => .unsigned
  | .size => .size
  | .pointer => .pointer

/-- The pieces between `[DEBUG] ` and the newline. -/
def DebugCall.message (d : DebugCall) : List Piece := scan (literal d.format)

/-- What there is to check of a debug call, whatever its arguments. -/
@[mk_iff] structure DebugCall.WellFormed (d : DebugCall) : Prop where
  noNul : 0#8 ∉ literal d.format
  short : (literal d.format).length < 2 ^ 30
  complete : Complete (literal d.format)
  delimited : delimited d.message = true
  typed : kinds d.message = d.types.map CType.kind
  single : .plain (chr '\n') ∉ d.message

instance (d : DebugCall) : Decidable d.WellFormed := decidable_of_iff' _ d.wellFormed_iff

set_option maxRecDepth 10000 in
/-- **All debug calls** are well-formed, and no two of them could write the same. -/
theorem debugCalls_checked : (∀ d ∈ debugCalls, d.WellFormed) ∧
    debugCalls.Pairwise fun d d' => apart d.message d'.message = true := by
  decide +kernel

/-- The argument of a conversion has no other bytes than digits, a minus sign and an `x`. -/
theorem argText_clean (hk : kindOf f.type = some a.kind) (hn : numeric f.type = true)
    (hc : hexValue c = none) (hsign : c ≠ chr '-') (hx : c ≠ chr 'x') : c ∉ argText f a := by
  have hdigits : ∀ u {b} n, 1 < b → b ≤ 16 → c ∉ numeralText u b n := by
    intro u b n hb h16 hm
    obtain ⟨d, hd, he⟩ := List.mem_map.mp hm
    exact hexChar_ne hc ((numeral_lt hb hd).trans_le h16) he
  have hdecimal : ∀ i, c ∉ decimal i := by
    intro i
    unfold decimal
    split
    · simpa [hsign] using hdigits false i.natAbs (by decide : 1 < 10) (by decide)
    · exact hdigits false _ (by decide) (by decide)
  have hzero : c ≠ chr '0' := by
    rintro rfl
    cases hc
  have hnot : f.type ≠ chr 'c' ∧ f.type ≠ chr 's' := by simpa [numeric] using hn
  cases a with
  | int i =>
    rw [argText, if_neg hnot.1]
    exact hdecimal _
  | unsigned n =>
    rw [argText]
    split
    · exact hdecimal _
    · simp only [paddedText, List.mem_append, List.mem_replicate, hzero, and_false, false_or]
      exact hdigits _ _ (by decide) (by decide)
  | size n =>
    rw [argText, longText]
    split <;> exact hdecimal _
  | pointer n =>
    have htag : c ∉ ascii ['0', 'x'] := by simp [ascii, hzero, hx]
    rw [argText, List.mem_append, not_or]
    exact ⟨htag, hdigits false _ (by decide) (by decide)⟩
  | string s =>
    have htype := kindOf_types hk
    simp [Arg.kind, Kind.types, ascii, hnot.2] at htype

theorem delimited_numeric (hd : delimited ps = true) : ∀ v, .conv v ∈ ps → numeric v.type := by
  induction ps with
  | nil => simp
  | cons p ps ih =>
    cases p with
    | plain c => simpa using ih hd
    | conv u =>
      obtain ⟨hnum, -, hrest⟩ := delimited_conv hd
      intro v hv
      rcases List.mem_cons.mp hv with hv | hv
      · cases hv
        exact hnum
      · exact ih hrest v hv

/-- A newline in the text is one of the format. -/
theorem render_newline (hnum : ∀ v, .conv v ∈ ps → numeric v.type) (hps : .plain (chr '\n') ∉ ps) :
    ∀ args, kinds ps = args.map Arg.kind → chr '\n' ∉ (render ps args).1 := by
  induction ps with
  | nil => simp [render]
  | cons p ps ih =>
    intro args hargs
    rw [List.mem_cons, not_or] at hps
    have hrest : ∀ v, .conv v ∈ ps → numeric v.type :=
      fun v hv => hnum v (List.mem_cons_of_mem _ hv)
    cases p with
    | plain c =>
      have hc : chr '\n' ≠ c := fun h => hps.1 (by rw [h])
      simpa [render, hc] using ih hrest hps.2 args hargs
    | conv v =>
      rcases kinds_conv hargs with ⟨hk, hargs⟩ | ⟨a, as, rfl, hk, hargs⟩
      · have hpercent : chr '\n' ∉ percentText v.type := by
          unfold percentText
          split <;> decide
        rw [render_none hk, List.mem_append, not_or]
        exact ⟨hpercent, ih hrest hps.2 args hargs⟩
      · have harg := argText_clean (f := v.format) (c := chr '\n') hk (hnum v List.mem_cons_self)
          (by decide) (by decide) (by decide)
        rw [render_some hk, List.mem_append, not_or]
        exact ⟨harg, ih hrest hps.2 as hargs⟩

/-! ## A call -/

/-- The arguments are of the call's types, and none is the one that cannot be told. -/
structure DebugCall.Takes (d : DebugCall) (args : List Arg) : Prop where
  typed : args.map Arg.kind = d.types.map CType.kind
  known : Arg.size leastSize ∉ args

/-- What a call writes. -/
def DebugCall.line (d : DebugCall) (args : List Arg) : List Byte := (render (scan d.bytes) args).1

namespace DebugCall

namespace WellFormed

theorem string_bytes (hd : d.WellFormed) : d.string.bytes = d.bytes := by
  refine List.takeWhile_eq_self_iff.mpr fun c hc => ?_
  have hne : c ≠ 0#8 := by
    rintro rfl
    simp only [bytes, literal_tag, List.mem_append] at hc
    rcases hc with (hc | hc) | hc
    · exact absurd hc (by decide)
    · exact hd.noNul hc
    · exact absurd hc (by decide)
  simpa using hne

theorem length_bytes (hd : d.WellFormed) : d.bytes.length < 2 ^ 31 := by
  have hshort := hd.short
  simp only [bytes, literal_tag, List.length_append, ascii, List.length_map, List.length_cons,
    List.length_nil]
  omega

/-- The pieces of a call, and that its format does not end inside of one. -/
theorem pieces_eq (hd : d.WellFormed) : Complete d.bytes ∧ scan d.bytes =
    (literal "[DEBUG] ").map .plain ++ d.message ++ [chr '\n'].map .plain := by
  have htag : chr '%' ∉ literal "[DEBUG] " := by
    rw [literal_tag]
    decide
  have hline : chr '%' ∉ [chr '\n'] := by decide
  have hfront := complete_append (complete_text htag) hd.complete
  refine ⟨complete_append hfront (complete_text hline), ?_⟩
  rw [bytes, scan_append hfront, scan_append (complete_text htag), scan_text htag, scan_text hline]
  rfl

theorem kinds_message (hd : d.WellFormed) (ha : d.Takes args) :
    kinds d.message = args.map Arg.kind := hd.typed.trans ha.typed.symm

theorem kinds_eq (hd : d.WellFormed) (ha : d.Takes args) :
    kinds (scan d.bytes) = args.map Arg.kind := by
  rw [hd.pieces_eq.2, kinds_append, kinds_append, kinds_text, kinds_text, List.nil_append,
    List.append_nil]
  exact hd.kinds_message ha

theorem delimited_eq (hd : d.WellFormed) : Printf.delimited (scan d.bytes) = true := by
  rw [hd.pieces_eq.2]
  exact delimited_concat (delimited_text _ hd.delimited) (by decide)

/-- A call writes its line. -/
theorem run (hd : d.WellFormed) (ha : d.Takes args) (written : List Byte) :
    ∃ r, d.run k args written = .ok (r, written ++ d.line args) := by
  have hkinds := hd.kinds_eq ha
  have htyped : Typed d.string.bytes args := by
    rw [hd.string_bytes, Typed, hkinds]
  have hlen : d.string.length < 2 ^ 31 := by
    unfold CString.length
    rw [hd.string_bytes]
    exact hd.length_bytes
  have hcomplete : Complete d.string.bytes := by
    rw [hd.string_bytes]
    exact hd.pieces_eq.1
  obtain ⟨r, hrun, -⟩ := ftPrintf_run (k := k) (c := ⟨args, written⟩) htyped hcomplete hlen
  rw [hd.string_bytes, render_rest hkinds] at hrun
  refine ⟨r, ?_⟩
  unfold DebugCall.run
  rw [hrun]
  rfl

/-- **The line of a call**: there is one newline, its last byte. -/
theorem line_eq (hd : d.WellFormed) (ha : d.Takes args) :
    ∃ m, d.line args = literal "[DEBUG] " ++ m ++ [chr '\n'] ∧ chr '\n' ∉ m := by
  have hkinds := hd.kinds_message ha
  have hnum := delimited_numeric hd.delimited
  refine ⟨(render d.message args).1, ?_, render_newline hnum hd.single args hkinds⟩
  unfold DebugCall.line
  rw [hd.pieces_eq.2, render_append, render_append, render_text, render_text]

end WellFormed

/-- Lines of two calls are told apart by their messages. -/
theorem apart_pieces {e : DebugCall} (hd : d.WellFormed) (he : e.WellFormed)
    (h : apart d.message e.message = true) : apart (scan d.bytes) (scan e.bytes) = true := by
  rw [hd.pieces_eq.2, he.pieces_eq.2]
  exact apart_append (apart_text _ h) _ _

end DebugCall

/-! ## The log -/

/-- A line that one of the calls wrote: the call and its arguments. -/
def readCall (calls : List DebugCall) : Reader (DebugCall × List Arg) :=
  oneOf (calls.map fun d => do
    let args ← readPieces (scan d.bytes)
    pure (d, args))

/-- A log of both allocators. -/
def readLog : Reader (List (DebugCall × List Arg)) := many (readCall debugCalls)

/-- **A line** is read as the call that wrote it. -/
theorem readCall_reads (hd : d ∈ debugCalls) (ha : d.Takes args) :
    Reads (readCall debugCalls) (Stops 16) (d.line args) (d, args) := by
  have hwf := debugCalls_checked.1 d hd
  have hkinds := hwf.kinds_eq ha
  have hread := (render_reads hwf.delimited_eq args hkinds ha.known).map fun args => (d, args)
  have hpair := debugCalls_checked.2
  obtain ⟨before, after, hsplit⟩ := List.append_of_mem hd
  rw [hsplit, List.pairwise_append] at hpair
  unfold readCall
  rw [hsplit, List.map_append, List.map_cons]
  refine oneOf_reads hread fun r hr rest hrest => ?_
  obtain ⟨e, he, rfl⟩ := List.mem_map.mp hr
  have hmem : e ∈ debugCalls := hsplit ▸ List.mem_append_left _ he
  have hapart := DebugCall.apart_pieces (debugCalls_checked.1 e hmem) hwf
    (hpair.2.2 e he d List.mem_cons_self)
  exact Prog.bind_none (apart_fails hwf.delimited_eq hapart args hkinds ha.known rest hrest)

theorem readCall_end : readCall debugCalls [] = none := by
  refine List.findSome?_eq_none_iff.mpr fun r hr => ?_
  obtain ⟨d, hd, rfl⟩ := List.mem_map.mp hr
  refine Prog.bind_none ?_
  rw [(debugCalls_checked.1 d hd).pieces_eq.2]
  exact Prog.bind_none (tag_fails (by simp))

/-- Calls of the two allocators, with arguments of their types. -/
def Logged (calls : List (DebugCall × List Arg)) : Prop :=
  ∀ x ∈ calls, x.1 ∈ debugCalls ∧ x.1.Takes x.2

theorem debugAll_run : ∀ {calls}, Logged calls → ∀ written,
    debugAll k calls written = .ok ((), written ++ calls.flatMap fun x => x.1.line x.2) := by
  intro calls
  induction calls with
  | nil =>
    intro _ written
    rw [List.flatMap_nil, List.append_nil]
    rfl
  | cons x calls ih =>
    intro h written
    obtain ⟨hx, hcalls⟩ := List.forall_mem_cons.mp h
    obtain ⟨r, hrun⟩ := (debugCalls_checked.1 x.1 hx.1).run (k := k) hx.2 written
    rw [List.flatMap_cons, ← List.append_assoc]
    exact Exec.bind_ok hrun (ih hcalls _)

/-- **The log of debug calls** has a line for each of them, and is read back as the calls with their
arguments, in their order. -/
theorem log_readable (k : Kernel) (calls : List (DebugCall × List Arg)) (written : List Byte)
    (h : Logged calls) : ∃ lines : List (List Byte),
      debugAll k calls written = .ok ((), written ++ lines.flatten) ∧
      lines.length = calls.length ∧
      (∀ l ∈ lines, ∃ m, l = literal "[DEBUG] " ++ m ++ [chr '\n'] ∧ chr '\n' ∉ m) ∧
        readLog.all lines.flatten = some calls := by
  have hline : ∀ x ∈ calls, ∃ m, x.1.line x.2 = literal "[DEBUG] " ++ m ++ [chr '\n'] ∧
      chr '\n' ∉ m := fun x hx => (debugCalls_checked.1 x.1 (h x hx).1).line_eq (h x hx).2
  let items := calls.map fun x => (x.1.line x.2, x)
  have hitems : ∀ y ∈ items, Reads (readCall debugCalls) (Stops 16) y.1 y.2 ∧
      (∀ rest, Stops 16 (y.1 ++ rest)) ∧ y.1 ≠ [] := by
    intro y hy
    obtain ⟨x, hx, rfl⟩ := List.mem_map.mp hy
    obtain ⟨m, hm, -⟩ := hline x hx
    refine ⟨readCall_reads (h x hx).1 (h x hx).2, fun rest c hc => ?_, ?_⟩
    · simp only [hm, literal_tag, ascii, List.map_cons, List.cons_append, List.head?_cons,
        Option.mem_some_iff] at hc
      subst hc
      decide
    · simp [hm]
  have hread : Reads readLog _ (items.flatMap Prod.fst) (items.map Prod.snd) :=
    many_reads (fun y hy => ⟨(hitems y hy).1, (hitems y hy).2.1⟩) fun y hy => (hitems y hy).2.2
  have htext : (calls.map fun x => x.1.line x.2).flatten = items.flatMap Prod.fst := by
    simp [items, List.flatMap, Function.comp_def]
  have hvalue : items.map Prod.snd = calls := by
    simp [items, Function.comp_def]
  refine ⟨calls.map fun x => x.1.line x.2, ?_, List.length_map _, fun l hl => ?_, ?_⟩
  · exact debugAll_run h written
  · obtain ⟨x, hx, rfl⟩ := List.mem_map.mp hl
    exact hline x hx
  · rw [hvalue, ← htext] at hread
    exact hread.all ⟨fun c hc => absurd hc (by simp), readCall_end⟩

theorem log_readable_sample : ∃ lines : List (List Byte),
    debugAll fullKernel [(addressCall, [.pointer 69632, .int 3, .pointer 70000]),
      (⟨"malloc size=%zu rejected", [.size]⟩, [.size (-1)])] [] = .ok ((), [] ++ lines.flatten) ∧
    lines.length = 2 ∧
    (∀ l ∈ lines, ∃ m, l = literal "[DEBUG] " ++ m ++ [chr '\n'] ∧ chr '\n' ∉ m) ∧
      readLog.all lines.flatten = some [(addressCall, [.pointer 69632, .int 3, .pointer 70000]),
        (⟨"malloc size=%zu rejected", [.size]⟩, [.size (-1)])] := by
  refine log_readable fullKernel _ [] fun x hx => ?_
  simp only [List.mem_cons, List.not_mem_nil, or_false] at hx
  rcases hx with rfl | rfl
  · exact ⟨by simp [debugCalls, commonCalls], rfl, by simp⟩
  · exact ⟨by simp [debugCalls, commonCalls], rfl, by simp [leastSize]⟩

end FtMalloc
