import FtMalloc.Lib.Reader
import FtMalloc.Results.Dump
import FtMalloc.Source.Report

/-!
# The report as a text format (`src/show_alloc_mem.c:45-107`, `bonus/src/show_alloc_mem.c:52-208`)

A `Listing` is a report with the debug lines that stand before the lines of its blocks.
`Listing.text` is its text, with the dumps of the blocks (`ex`) or without them; `readReport` reads
it. A block's line ends where its numbers do, and the rows of its dump are the lines below it that
begin with two blanks.

Results:
* `dump_rows`: `hex_dump` writes rows that read as the bytes of the block.
* `Listing.reads`: the text of a listing is read back as the report, with the bytes of every block
  that was dumped. The debug lines are skipped.
-/

namespace FtMalloc

open Lib Reader

/-! ## Writing -/

/-- An address as `write_hex` writes it. -/
def hexText (v : Nat) : List Byte := ascii ['0', 'x'] ++ numeralText true 16 v

/-- A number as `write_dec` writes it. -/
def decText (v : Nat) : List Byte := numeralText false 10 v

/-- The line of a block. -/
def ShowLine.text (l : ShowLine) : List Byte :=
  hexText l.start ++ ascii [' ', '-', ' '] ++ hexText l.stop ++ ascii [' ', ':', ' '] ++
    decText l.bytes ++ ascii [' ', 'b', 'y', 't', 'e', 's', '\n']

/-- What `hex_dump` writes of a block. -/
def ShowLine.dump (w : World) (l : ShowLine) : List Byte :=
  ((Bonus.hexDumpText l.start l.bytes w).map Prod.fst).getD []

/-- A block in a listing, after its debug line, if there is one. -/
structure BlockEntry where
  debug : List Byte
  line : ShowLine

/-- An entry, with its dump (`ex`) or without. -/
def BlockEntry.text (ex : Bool) (w : World) (e : BlockEntry) : List Byte :=
  e.debug ++ (e.line.text ++ if ex then e.line.dump w else [])

/-- A heading and the entries below it. -/
structure EntryGroup where
  head : Nat
  entries : List BlockEntry

/-- A group without its debug lines. -/
def EntryGroup.section (g : EntryGroup) : Section := ⟨g.head, g.entries.map BlockEntry.line⟩

def EntryGroup.text (name : List Char) (ex : Bool) (w : World) (g : EntryGroup) : List Byte :=
  ascii name ++ hexText g.head ++ ascii ['\n'] ++ g.entries.flatMap (BlockEntry.text ex w)

/-- A report as it is written. -/
structure Listing where
  tiny : EntryGroup
  small : EntryGroup
  large : EntryGroup
  total : Nat

/-- A listing without its debug lines. -/
def Listing.report (l : Listing) : Report :=
  ⟨l.tiny.section, l.small.section, l.large.section, l.total⟩

/-- The last line. -/
def totalText (n : Nat) : List Byte :=
  ascii Text.totalName ++ decText n ++ ascii [' ', 'b', 'y', 't', 'e', 's', '\n']

/-- The text of a listing. -/
def Listing.text (ex : Bool) (w : World) (l : Listing) : List Byte :=
  l.tiny.text Text.tinyName ex w ++ l.small.text Text.smallName ex w ++
    l.large.text Text.largeName ex w ++ totalText l.total

/-! ## Reading -/

/-- A row of a dump: its bytes. -/
def readRow : Reader (List Byte) := do
  tag (ascii [' ', ' '])
  let l ← upTo (chr '\n')
  pure (Bonus.lineBytes (ascii [' ', ' '] ++ l))

/-- A debug line. -/
def readDebug : Reader Unit := do
  tag (literal "[DEBUG] ")
  let _ ← upTo (chr '\n')

/-- A block: its numbers, and the bytes of its rows. -/
def readBlock : Reader (ShowLine × List Byte) := do
  let _ ← many readDebug
  tag (ascii ['0', 'x'])
  let start ← number 16 (chr ' ')
  tag (ascii ['-', ' ', '0', 'x'])
  let stop ← number 16 (chr ' ')
  tag (ascii [':', ' '])
  let bytes ← number 10 (chr ' ')
  tag (ascii ['b', 'y', 't', 'e', 's', '\n'])
  let rows ← many readRow
  pure (⟨start, stop, bytes⟩, rows.flatten)

/-- A heading and the blocks below it. -/
def readSection (name : List Char) : Reader (Section × List (List Byte)) := do
  tag (ascii name)
  tag (ascii ['0', 'x'])
  let head ← number 16 (chr '\n')
  let blocks ← many readBlock
  pure (⟨head, blocks.map Prod.fst⟩, blocks.map Prod.snd)

/-- A report, and the bytes of its blocks in their order. -/
def readReport : Reader (Report × List (List Byte)) := do
  let tiny ← readSection Text.tinyName
  let small ← readSection Text.smallName
  let large ← readSection Text.largeName
  tag (ascii Text.totalName)
  let total ← number 10 (chr ' ')
  tag (ascii ['b', 'y', 't', 'e', 's', '\n'])
  pure (⟨tiny.1, small.1, large.1, total⟩, tiny.2 ++ small.2 ++ large.2)

/-- The bytes of a block. -/
def ShowLine.contents (w : World) (l : ShowLine) : List Byte :=
  (List.range l.bytes).map fun x => w.mem (l.start + x)

/-- What the entry of a block says of its bytes. -/
def ShowLine.shown (ex : Bool) (w : World) (l : ShowLine) : List Byte :=
  if ex then l.contents w else []

/-! ## Rows -/

variable {w w' : World} {addr size i : Nat} {t : List Byte} {l : ShowLine} {ex : Bool}
  {ok : List Byte → Prop}

/-- A row begins with two blanks. -/
theorem dumpLine_blanks (h : Bonus.dumpLine addr size i w = some (t ++ [chr '\n'], w')) :
    ∃ l, t = ascii [' ', ' '] ++ l := by
  obtain ⟨columns, w₁, -, h⟩ := Prog.bind_eq_some.mp h
  obtain ⟨chars, w₂, -, h⟩ := Prog.bind_eq_some.mp h
  have htext := (Prod.mk.inj (Option.some.inj h)).1
  have hne : chr ' ' ≠ chr '\n' := by decide
  rcases t with - | ⟨x, - | ⟨y, l⟩⟩
  · simp [ascii] at htext
  · simp [ascii, hne] at htext
  · simp only [ascii, List.map_cons, List.cons_append, List.cons.injEq] at htext
    obtain ⟨rfl, rfl, -⟩ := htext
    exact ⟨l, rfl⟩

/-- **A row** is read as the bytes that it dumps. -/
theorem dumpLine_reads (hm : Bonus.Readable w addr size) (i : Nat) : ∃ t,
    Bonus.dumpLine addr size i w = some (t, w) ∧ t ≠ [] ∧
      Reads readRow (fun _ => True) t (Bonus.dumped w.mem addr size i 16) := by
  obtain ⟨t, hrun, hnl, -, hbytes⟩ := Bonus.dumpLine_run hm i
  obtain ⟨l, rfl⟩ := dumpLine_blanks hrun
  rw [List.mem_append, not_or] at hnl
  refine ⟨_, hrun, by simp [ascii], ?_⟩
  rw [List.append_assoc, ← hbytes]
  exact (tag_reads _).next ((upTo_reads hnl.2).map _)

/-- The rows from byte `i` on. -/
theorem dumpFrom_rows (hsize : size ≤ ptrdiffMax) (hm : Bonus.Readable w addr size) :
    ∀ fuel i, size ≤ i + 16 * fuel → ∃ rows : List (List Byte × List Byte),
      Bonus.dumpFrom addr size fuel i w = some (rows.flatMap Prod.fst, w) ∧
      (∀ x ∈ rows, Reads readRow (fun _ => True) x.1 x.2 ∧ x.1 ≠ []) ∧
        (rows.map Prod.snd).flatten = Bonus.dumped w.mem addr size i (16 * fuel) := by
  intro fuel
  induction fuel with
  | zero =>
    intro i hi
    exact ⟨[], Prog.if_false_run (by omega) rfl, by simp, rfl⟩
  | succ fuel ih =>
    intro i hi
    by_cases h : i < size
    · obtain ⟨t, hrow, hne, hreads⟩ := dumpLine_reads hm i
      obtain ⟨rows, hrun, hrows, hall⟩ := ih (i + 16) (by omega)
      have hnext : wrap (i + 16) = i + 16 := by
        simp only [ptrdiffMax] at hsize
        exact wrap_of_lt (by omega)
      rw [← hnext] at hrun
      refine ⟨(t, Bonus.dumped w.mem addr size i 16) :: rows, ?_, ?_, ?_⟩
      · exact Prog.if_true_run h (Prog.bind_to hrow (Prog.bind_to hrun rfl))
      · intro x hx
        rcases List.mem_cons.mp hx with rfl | hx
        · exact ⟨hreads, hne⟩
        · exact hrows x hx
      · rw [List.map_cons, List.flatten_cons, hall, Bonus.dumped_append]
        congr 1
        omega
    · refine ⟨[], Prog.if_false_run h rfl, by simp, ?_⟩
      have hnone : (List.range' i (16 * (fuel + 1))).filter (· < size) = [] := by
        refine List.filter_eq_nil_iff.mpr fun x hx => ?_
        have := (List.mem_range'_1.mp hx).1
        simp only [decide_eq_true_eq]
        omega
      unfold Bonus.dumped
      rw [hnone]
      rfl

/-- **`hex_dump` writes rows** that read as the bytes of the block. -/
theorem dump_rows (hsize : l.bytes ≤ ptrdiffMax) (hm : Bonus.Readable w l.start l.bytes) :
    Bonus.hexDumpText l.start l.bytes w = some (l.dump w, w) ∧
      ∃ rows : List (List Byte × List Byte), l.dump w = rows.flatMap Prod.fst ∧
        (∀ x ∈ rows, Reads readRow (fun _ => True) x.1 x.2 ∧ x.1 ≠ []) ∧
          (rows.map Prod.snd).flatten = l.contents w := by
  obtain ⟨rows, hrun, hrows, hall⟩ :=
    dumpFrom_rows hsize hm ((l.bytes + 15) / 16) 0 (by omega)
  have htext : l.dump w = rows.flatMap Prod.fst := by
    unfold ShowLine.dump Bonus.hexDumpText
    rw [hrun]
    rfl
  refine ⟨htext ▸ hrun, rows, htext, hrows, hall.trans ?_⟩
  exact Bonus.dumped_all (by omega)

/-! ## Blocks -/

/-- A debug line, or none. -/
def DebugText (t : List Byte) : Prop :=
  t = [] ∨ ∃ m, t = literal "[DEBUG] " ++ m ++ [chr '\n'] ∧ chr '\n' ∉ m

/-- What may follow a block: neither a row of its dump, nor a debug line, nor another block. -/
structure Closed (rest : List Byte) : Prop where
  row : ¬ascii [' ', ' '] <+: rest
  debug : ¬literal "[DEBUG] " <+: rest
  block : ¬ascii ['0', 'x'] <+: rest

/-- A block can be printed: `write_hex` has room for its addresses, its size is a `size_t`, and its
bytes can be read when they are dumped. -/
structure ShowLine.Printable (ex : Bool) (w : World) (l : ShowLine) : Prop where
  start : l.start < 2 ^ 60
  stop : l.stop < 2 ^ 60
  bytes : l.bytes < 2 ^ 64
  dump : ex = true → l.bytes ≤ ptrdiffMax ∧ Bonus.Readable w l.start l.bytes

theorem hex_reads {c : Byte} (hc : hexValue c = none) (v : Nat) :
    Reads (number 16 c) ok (numeralText true 16 v ++ [c]) v :=
  number_reads (by decide) (by decide) hc v

theorem dec_reads {c : Byte} (hc : hexValue c = none) (v : Nat) :
    Reads (number 10 c) ok (decText v ++ [c]) v :=
  number_reads (by decide) (by decide) hc v

theorem readRow_none {rest : List Byte} (h : ¬ascii [' ', ' '] <+: rest) : readRow rest = none :=
  Prog.bind_none (tag_fails h)

theorem readDebug_none {rest : List Byte} (h : ¬literal "[DEBUG] " <+: rest) :
    readDebug rest = none := Prog.bind_none (tag_fails h)

theorem readDebug_reads {m : List Byte} (hm : chr '\n' ∉ m) :
    Reads readDebug ok (literal "[DEBUG] " ++ m ++ [chr '\n']) () := by
  rw [List.append_assoc]
  exact (tag_reads _).next ((upTo_reads hm).map fun _ => ())

/-- What is before a block is skipped. -/
theorem debugText_reads (ht : DebugText t) : ∃ us,
    Reads (many readDebug) (fun rest => ¬literal "[DEBUG] " <+: rest) t us := by
  rcases ht with rfl | ⟨m, rfl, hm⟩
  · have hnothing : Reads (many readDebug) (fun rest => True ∧ readDebug rest = none) [] [] :=
      many_reads (fun _ h => absurd h List.not_mem_nil) fun _ h => absurd h List.not_mem_nil
    exact ⟨[], hnothing.mono fun rest hrest => ⟨trivial, readDebug_none hrest⟩⟩
  · let items := [(literal "[DEBUG] " ++ m ++ [chr '\n'], ())]
    have hone : Reads (many readDebug) (fun rest => True ∧ readDebug rest = none)
        (items.flatMap Prod.fst) (items.map Prod.snd) :=
      many_reads (by simpa [items] using readDebug_reads hm) (by simp [items])
    refine ⟨[()], fun rest hrest => ?_⟩
    simpa [items] using hone rest ⟨trivial, readDebug_none hrest⟩

theorem readBlock_none {rest : List Byte} (h : Closed rest) : readBlock rest = none := by
  obtain ⟨us, hus⟩ := debugText_reads (Or.inl rfl)
  exact (Prog.bind_of (hus rest h.debug)).trans (Prog.bind_none (tag_fails h.block))

/-- The rows below a block are all that is read of it. -/
theorem rows_read (hd : ex = true → l.bytes ≤ ptrdiffMax ∧ Bonus.Readable w l.start l.bytes) :
    ∃ rows : List (List Byte), Reads (many readRow) (fun rest => ¬ascii [' ', ' '] <+: rest)
      (if ex then l.dump w else []) rows ∧ rows.flatten = l.shown ex w := by
  cases ex with
  | false =>
    have hnothing : Reads (many readRow) (fun rest => True ∧ readRow rest = none) [] [] :=
      many_reads (fun _ h => absurd h List.not_mem_nil) fun _ h => absurd h List.not_mem_nil
    exact ⟨[], hnothing.mono fun rest hrest => ⟨trivial, readRow_none hrest⟩, rfl⟩
  | true =>
    obtain ⟨hsize, hm⟩ := hd rfl
    obtain ⟨-, rows, htext, hrows, hall⟩ := dump_rows hsize hm
    refine ⟨rows.map Prod.snd, fun rest hrest => ?_, hall⟩
    rw [if_pos rfl, htext]
    exact many_reads (fun x hx => ⟨(hrows x hx).1, fun _ => trivial⟩) (fun x hx => (hrows x hx).2)
      rest ⟨trivial, readRow_none hrest⟩

/-- An entry can be printed. -/
structure BlockEntry.Printable (ex : Bool) (w : World) (e : BlockEntry) : Prop where
  debug : DebugText e.debug
  line : e.line.Printable ex w

/-- An entry begins with a debug line or with its first number. -/
theorem BlockEntry.text_head (ex : Bool) (w : World) {e : BlockEntry} (he : DebugText e.debug) :
    (∃ t, e.text ex w = chr '[' :: t) ∨ ∃ t, e.text ex w = chr '0' :: t := by
  rcases he with h | ⟨m, h, -⟩
  · exact Or.inr ⟨_, by rw [BlockEntry.text, h]; rfl⟩
  · exact Or.inl ⟨_, by rw [BlockEntry.text, h, literal_tag]; rfl⟩

/-- **A block** is read back, with the bytes that were dumped. -/
theorem BlockEntry.text_reads {e : BlockEntry} (he : e.Printable ex w) :
    Reads readBlock (fun rest => ¬ascii [' ', ' '] <+: rest) (e.text ex w)
      (e.line, e.line.shown ex w) := by
  obtain ⟨rows, hrows, hbytes⟩ := rows_read he.line.dump
  obtain ⟨us, hus⟩ := debugText_reads he.debug
  have htext : e.text ex w = e.debug ++ (ascii ['0', 'x'] ++
      (numeralText true 16 e.line.start ++ [chr ' '] ++
      (ascii ['-', ' ', '0', 'x'] ++ (numeralText true 16 e.line.stop ++ [chr ' '] ++
      (ascii [':', ' '] ++ (decText e.line.bytes ++ [chr ' '] ++
      (ascii ['b', 'y', 't', 'e', 's', '\n'] ++ (if ex then e.line.dump w else [])))))))) := by
    simp [BlockEntry.text, ShowLine.text, hexText, ascii]
  rw [htext, ← hbytes]
  have hblank : hexValue (chr ' ') = none := by decide
  refine hus.bind ?_ fun rest _ => ?_
  · refine (tag_reads _).next ((hex_reads hblank _).next ?_)
    refine (tag_reads _).next ((hex_reads hblank _).next ?_)
    refine (tag_reads _).next ((dec_reads hblank _).next ?_)
    exact (tag_reads _).next (hrows.map fun rows => (e.line, rows.flatten))
  · have hne : chr '[' ≠ chr '0' := by decide
    simp [literal_tag, ascii, hne]

/-- The entries of a group. -/
theorem entries_read {es : List BlockEntry} (hes : ∀ e ∈ es, e.Printable ex w) :
    Reads (many readBlock) Closed (es.flatMap (BlockEntry.text ex w))
      (es.map fun e => (e.line, e.line.shown ex w)) := by
  let items := es.map fun e => (e.text ex w, (e.line, e.line.shown ex w))
  have hblank : chr ' ' ≠ chr '0' ∧ chr ' ' ≠ chr '[' := by decide
  have hread : Reads (many readBlock)
      (fun rest => ¬ascii [' ', ' '] <+: rest ∧ readBlock rest = none)
      (items.flatMap Prod.fst) (items.map Prod.snd) := by
    refine many_reads (fun x hx => ?_) fun x hx => ?_
    · obtain ⟨e, he, rfl⟩ := List.mem_map.mp hx
      refine ⟨BlockEntry.text_reads (hes e he), fun rest => ?_⟩
      rcases BlockEntry.text_head ex w (hes e he).debug with ⟨t, ht⟩ | ⟨t, ht⟩
      · simp [ht, ascii, hblank.2]
      · simp [ht, ascii, hblank.1]
    · obtain ⟨e, he, rfl⟩ := List.mem_map.mp hx
      rcases BlockEntry.text_head ex w (hes e he).debug with ⟨t, ht⟩ | ⟨t, ht⟩
      · simp [ht]
      · simp [ht]
  have htexts : items.flatMap Prod.fst = es.flatMap (BlockEntry.text ex w) := by
    simp [items, List.flatMap_map]
  have hvalues : items.map Prod.snd = es.map fun e => (e.line, e.line.shown ex w) := by
    simp [items]
  rw [← htexts, ← hvalues]
  exact hread.mono fun rest hrest => ⟨hrest.row, readBlock_none hrest⟩

/-! ## The report -/

/-- The headings and the blocks of a report can be printed. -/
structure Report.Printable (ex : Bool) (w : World) (r : Report) : Prop where
  heads : ∀ s ∈ [r.tiny, r.small, r.large], s.head < 2 ^ 60
  lines : ∀ l ∈ r.lines, l.Printable ex w
  total : r.total < 2 ^ 64

/-- **A group** is read back. -/
theorem EntryGroup.text_reads {g : EntryGroup} {name : List Char}
    (hes : ∀ e ∈ g.entries, e.Printable ex w) :
    Reads (readSection name) Closed (g.text name ex w)
      (g.section, g.section.lines.map (ShowLine.shown ex w)) := by
  have htext : g.text name ex w = ascii name ++ (ascii ['0', 'x'] ++
      (numeralText true 16 g.head ++ [chr '\n'] ++ g.entries.flatMap (BlockEntry.text ex w))) := by
    simp [EntryGroup.text, hexText, ascii]
  have hvalue : (g.section, g.section.lines.map (ShowLine.shown ex w)) =
      (⟨g.head, (g.entries.map fun e => (e.line, e.line.shown ex w)).map Prod.fst⟩,
        (g.entries.map fun e => (e.line, e.line.shown ex w)).map Prod.snd) := by
    simp [EntryGroup.section, Function.comp_def]
  rw [htext, hvalue]
  refine (tag_reads _).next ((tag_reads _).next ((hex_reads (by decide) _).next ?_))
  exact (entries_read hes).map fun blocks =>
    ((⟨g.head, blocks.map Prod.fst⟩ : Section), blocks.map Prod.snd)

/-- A heading closes the group before it. -/
theorem closed_of_head {c : Char} {cs : List Char} {t : List Byte} (hb : chr c ≠ chr ' ')
    (hd : chr c ≠ chr '[') (h0 : chr c ≠ chr '0') : Closed (ascii (c :: cs) ++ t) := by
  constructor
  · simp [ascii, hb.symm]
  · simp [literal_tag, ascii, hd.symm]
  · simp [ascii, h0.symm]

/-- All entries, in the order they are written in. -/
def Listing.entries (l : Listing) : List BlockEntry :=
  l.tiny.entries ++ l.small.entries ++ l.large.entries

theorem Listing.report_lines (l : Listing) : l.report.lines = l.entries.map BlockEntry.line := by
  simp [Listing.entries, Listing.report, Report.lines, EntryGroup.section]

/-- **A listing is read back** as its report, with the bytes of the blocks that were dumped. -/
theorem Listing.reads {l : Listing} (hl : ∀ e ∈ l.entries, e.Printable ex w) :
    readReport.all (l.text ex w) = some (l.report, l.report.lines.map (ShowLine.shown ex w)) := by
  simp only [Listing.entries, List.mem_append, or_imp, forall_and] at hl
  obtain ⟨⟨htiny, hsmall⟩, hlarge⟩ := hl
  have hvalue : (l.report, l.report.lines.map (ShowLine.shown ex w)) =
      ((⟨l.tiny.section, l.small.section, l.large.section, l.total⟩ : Report),
        l.tiny.section.lines.map (ShowLine.shown ex w) ++
        l.small.section.lines.map (ShowLine.shown ex w) ++
        l.large.section.lines.map (ShowLine.shown ex w)) := by
    simp [Report.lines, Listing.report]
  have htext : l.text ex w = l.tiny.text Text.tinyName ex w ++ (l.small.text Text.smallName ex w ++
      (l.large.text Text.largeName ex w ++ (ascii Text.totalName ++ (decText l.total ++ [chr ' '] ++
        (ascii ['b', 'y', 't', 'e', 's', '\n']))))) := by
    simp [Listing.text, totalText, ascii]
  rw [htext, hvalue]
  suffices hreads : Reads readReport (fun _ => True) _ _ from hreads.all trivial
  refine (EntryGroup.text_reads htiny).bind ?_ fun rest _ => ?_
  · refine (EntryGroup.text_reads hsmall).bind ?_ fun rest _ => ?_
    · refine (EntryGroup.text_reads hlarge).bind ?_ fun rest _ => ?_
      · refine (tag_reads _).next ((dec_reads (by decide) _).next ?_)
        exact (tag_reads _).map fun _ => _
      · rw [List.append_assoc]
        exact closed_of_head (by decide) (by decide) (by decide)
    · simp only [EntryGroup.text, List.append_assoc]
      exact closed_of_head (by decide) (by decide) (by decide)
  · simp only [EntryGroup.text, List.append_assoc]
    exact closed_of_head (by decide) (by decide) (by decide)

end FtMalloc
