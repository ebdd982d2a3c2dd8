import FtMalloc.Results.Debug
import FtMalloc.Results.Listing
import FtMalloc.Results.Numbers
import FtMalloc.Results.Sequential
import FtMalloc.Run.Turns
import FtMalloc.Source.Traverse

/-!
# The report and its text (`src/show_alloc_mem.c:45-107`, `bonus/src/show_alloc_mem.c:79-208`)

Whatever the state, and wherever `Source/Show.lean` has a report, the program that writes writes the
text of that report, as long as the numbers fit the buffers and the dumped bytes can be read.
`Renders` says so of a part of the walk. There are debug lines between the lines of the report,
unless `DEBUG` is off.

Results:
* `report_renders`: the text of the report.
* `report_readable`: in every state of either allocator, whichever `mmap` failed, the text of
  `show_alloc_mem` is read back as its report, and has a line for every live pointer.
* `dump_readable`: the text of `show_alloc_mem_ex` is read back as the same report, with all the
  bytes of every block.
-/

namespace FtMalloc

open Lib Bonus

variable {L : Locals} {debug ex : Bool} {w w' : World} {sh sh' sh'' : Shown}
  {p q : Locals → Printed → C Printed} {out : Printed} {v start bytes z i : Nat} {t : List Byte}

/-! ## Numbers -/

theorem writeStr_run (s : List Char) : Text.writeStr s out w = some (out.put (ascii s), w) := rfl

/-- A short number fits the buffer of `write_hex`. -/
theorem writeHex_run (h : v < 2 ^ 60) :
    Text.writeHex L v out w = some (out.put (hexText v), w) := by
  have hv : (BitVec.ofNat 64 v).toNat = v := by
    rw [BitVec.toNat_ofNat]
    exact Nat.mod_eq_of_lt (h.trans (by decide))
  have hrun := Show.writeHex_short (L.hex out.text.length) (v := BitVec.ofNat 64 v) (by omega)
  unfold Show.WritesHex at hrun
  unfold Text.writeHex
  rw [hrun, hv]
  rfl

theorem writeDec_run (h : v < 2 ^ 64) :
    Text.writeDec L v out w = some (out.put (decText v), w) := by
  have hv : (BitVec.ofNat 64 v).toNat = v := by
    rw [BitVec.toNat_ofNat]
    exact Nat.mod_eq_of_lt h
  have hrun := Show.write_dec_fits (L.dec out.text.length) (BitVec.ofNat 64 v)
  unfold Text.writeDec
  rw [hrun, hv]
  rfl

/-! ## The debug line -/

/-- What `calculate_zone_block_address` writes. -/
def addressText (debug : Bool) (zone i addr : Nat) : List Byte :=
  if debug then addressCall.line (Text.addressArgs zone i addr) else []

theorem addressCall_wellFormed : addressCall.WellFormed :=
  debugCalls_checked.1 _ (by simp [debugCalls, commonCalls])

theorem addressArgs_taken (zone i addr : Nat) :
    addressCall.Takes (Text.addressArgs zone i addr) := ⟨rfl, by simp [Text.addressArgs]⟩

theorem debugAddress_run (debug : Bool) (zone i addr : Nat) (L : Locals) (out : Printed) :
    Text.debugAddress debug L zone i addr out w =
      some (out.put (addressText debug zone i addr), w) := by
  unfold Text.debugAddress addressText
  cases debug with
  | false =>
    refine Prog.if_false_run (by decide) ?_
    simp [Printed.put]
  | true =>
    obtain ⟨r, hrun⟩ := addressCall_wellFormed.run (k := L.kernel) (addressArgs_taken zone i addr)
      out.text
    refine Prog.if_true_run rfl ?_
    rw [hrun]
    rfl

theorem addressText_debug (debug : Bool) (zone i addr : Nat) :
    DebugText (addressText debug zone i addr) := by
  unfold addressText
  split
  · exact Or.inr (addressCall_wellFormed.line_eq (addressArgs_taken zone i addr))
  · exact Or.inl rfl

/-! ## Parts of the walk -/

/-- `p` writes entries for the lines that the walk of the numbers adds on its way from `sh` to
`sh'`, the same whatever it finds on the stack, and counts the same. -/
def Renders (ex : Bool) (w : World) (p : Locals → Printed → C Printed) (sh sh' : Shown) : Prop :=
  ∃ es : List BlockEntry, sh'.lines = sh.lines ++ es.map BlockEntry.line ∧
    (∀ e ∈ es, DebugText e.debug) ∧ ((∀ e ∈ es, e.line.Printable ex w) → ∀ L t,
      p L ⟨t, sh.total⟩ w = some (⟨t ++ es.flatMap (BlockEntry.text ex w), sh'.total⟩, w))

/-- Nothing is written. -/
theorem Renders.of_pure (h : ∀ L out, p L out w = some (out, w)) : Renders ex w p sh sh := by
  refine ⟨[], (List.append_nil _).symm, by simp, fun _ L t => ?_⟩
  rw [h, List.flatMap_nil, List.append_nil]

/-- **One part after the other.** -/
theorem Renders.trans (h : Renders ex w p sh sh') (h' : Renders ex w q sh' sh'') :
    Renders ex w (fun L out => p L out >>= q L) sh sh'' := by
  obtain ⟨es, hes, hd, hp⟩ := h
  obtain ⟨es', hes', hd', hq⟩ := h'
  refine ⟨es ++ es', by rw [hes', hes, List.map_append, List.append_assoc], fun e he => ?_,
    fun hprint L t => ?_⟩
  · exact (List.mem_append.mp he).elim (hd e) (hd' e)
  · have h1 := hp (fun e he => hprint e (List.mem_append_left _ he)) L t
    have h2 := hq (fun e he => hprint e (List.mem_append_right _ he)) L
      (t ++ es.flatMap (BlockEntry.text ex w))
    rw [List.flatMap_append, ← List.append_assoc]
    exact Prog.bind_to h1 h2

theorem Renders.congr (h : Renders ex w p sh sh') (he : ∀ L out, q L out w = p L out w) :
    Renders ex w q sh sh' := by
  obtain ⟨es, hes, hd, hp⟩ := h
  exact ⟨es, hes, hd, fun hprint L t => (he _ _).trans (hp hprint L t)⟩

/-- Something is read first. -/
theorem Renders.read {α : Type} {x : C α} {a : α} {f : α → Locals → Printed → C Printed}
    (hx : x w = some (a, w)) (h : Renders ex w (f a) sh sh') :
    Renders ex w (fun L out => x >>= fun a => f a L out) sh sh' :=
  h.congr fun _ _ => Prog.bind_of hx

/-- A loop that has reached its end. -/
theorem Renders.ended {b : Prop} [Decidable b] {x : C Shown} (y : Locals → Printed → C Printed)
    (hb : b) (h : (if b then pure sh else x) w = some (sh', w')) :
    w' = w ∧ Renders ex w (fun L out => if b then pure out else y L out) sh sh' := by
  rw [if_pos hb] at h
  obtain ⟨rfl, rfl⟩ := Prod.mk.inj (Option.some.inj h)
  exact ⟨rfl, .of_pure fun _ _ => Prog.if_true_run hb rfl⟩

variable (debug ex)

/-- **The line of a block**, after what `p` writes. -/
theorem line_renders (sh : Shown) (start bytes : Nat) (ht : DebugText t)
    (hp : ∀ L out, p L out w = some (out.put t, w)) :
    Renders ex w (fun L out => p L out >>= Text.line ex L start bytes) sh
      (sh.line start bytes) := by
  refine ⟨[⟨t, ⟨start, wrap (start + bytes), bytes⟩⟩], rfl, by simpa using ht,
    fun hprint L before => ?_⟩
  have hl := hprint _ List.mem_cons_self
  have hdump : ∀ out, Text.hexDump ex start bytes out w = some (out.put
      (if ex then ShowLine.dump w ⟨start, wrap (start + bytes), bytes⟩ else []), w) := by
    intro out
    cases ex with
    | false =>
      refine Prog.if_false_run (by decide) ?_
      simp [Printed.put]
    | true =>
      obtain ⟨hsize, hm⟩ := hl.dump rfl
      exact Prog.if_true_run rfl (Prog.bind_to (dump_rows hsize hm).1 rfl)
  refine Prog.bind_to (hp L _) ?_
  refine Prog.bind_to (writeHex_run hl.start) (Prog.bind_to (writeStr_run _) ?_)
  refine Prog.bind_to (writeHex_run hl.stop) (Prog.bind_to (writeStr_run _) ?_)
  refine Prog.bind_to (writeDec_run hl.bytes) (Prog.bind_to (writeStr_run _) ?_)
  refine Prog.bind_to (hdump _) ?_
  simp [Printed.put, BlockEntry.text, ShowLine.text, Shown.line]

/-- The body of the loop over the blocks of a zone. -/
theorem showBlock_renders (h : showBlock z i sh w = some (sh', w')) :
    w' = w ∧ Renders ex w (fun L => Text.showBlock debug ex L z i) sh sh' := by
  obtain ⟨bitmap, h1, h⟩ := load_reads.run_bind h
  obtain ⟨byte, h2, h⟩ := loadByte_reads.run_bind h
  by_cases hbit : byte &&& bitMask (i % 8) = 0#8
  · rw [if_pos hbit] at h
    obtain ⟨sizes, h3, h⟩ := load_reads.run_bind h
    obtain ⟨req, h4, h⟩ := load_reads.run_bind h
    obtain ⟨start, h5, h⟩ := (calculateZoneBlockAddress_reads z i).run_bind h
    obtain ⟨rfl, rfl⟩ := Prod.mk.inj (Option.some.inj h)
    have hline := line_renders ex sh start req (addressText_debug debug z i start)
      (debugAddress_run (w := w) debug z i start)
    refine ⟨rfl, hline.congr fun L out => ?_⟩
    refine Prog.bind_to h1 (Prog.bind_to h2 (Prog.if_true_run hbit ?_))
    exact Prog.bind_to h3 (Prog.bind_to h4 (Prog.bind_to h5 rfl))
  · rw [if_neg hbit] at h
    obtain ⟨rfl, rfl⟩ := Prod.mk.inj (Option.some.inj h)
    exact ⟨rfl, .read h1 (.read h2 (.of_pure fun L out => Prog.if_false_run hbit rfl))⟩

theorem showBlocks_renders : ∀ {k i : Nat} {sh : Shown}, showBlocks z i k sh w = some (sh', w') →
    w' = w ∧ Renders ex w (fun L => Text.showBlocks debug ex L z i k) sh sh' := by
  intro k
  induction k with
  | zero =>
    intro i sh h
    obtain ⟨rfl, rfl⟩ := Prod.mk.inj (Option.some.inj h)
    exact ⟨rfl, .of_pure fun _ _ => rfl⟩
  | succ k ih =>
    intro i sh h
    obtain ⟨sh₁, w₁, h1, h2⟩ := Prog.bind_eq_some.mp h
    obtain ⟨rfl, hfirst⟩ := showBlock_renders debug ex h1
    obtain ⟨rfl, hrest⟩ := ih h2
    exact ⟨rfl, hfirst.trans hrest⟩

/-- A zone: its own total is added to the one so far. -/
theorem showZone_renders {s : Shown} (h : showZone z w = some (s, w')) (sh : Shown) :
    w' = w ∧ Renders ex w (fun L => Text.showZone debug ex L z) sh (sh.append s) := by
  obtain ⟨n, h1, h2⟩ := loadInt_reads.run_bind h
  obtain ⟨rfl, es, hes, hd, hp⟩ := showBlocks_renders debug ex h2
  have hlines : s.lines = es.map BlockEntry.line := hes
  refine ⟨rfl, es, congrArg (sh.lines ++ ·) hlines, hd, fun hprint L t => ?_⟩
  exact Prog.bind_to h1 (Prog.bind_to (hp hprint L t) rfl)

theorem showZones_renders : ∀ {fuel z : Nat} {sh : Shown},
    showZones fuel z sh w = some (sh', w') →
    w' = w ∧ Renders ex w (fun L => Text.showZones debug ex L fuel z) sh sh' := by
  intro fuel
  induction fuel with
  | zero =>
    intro z sh h
    by_cases h0 : z = null
    · exact Renders.ended _ h0 h
    · rw [showZones, if_neg h0] at h
      cases h
  | succ fuel ih =>
    intro z sh h
    by_cases h0 : z = null
    · exact Renders.ended _ h0 h
    · rw [showZones, if_neg h0] at h
      obtain ⟨s, w₁, h1, h2⟩ := Prog.bind_eq_some.mp h
      obtain ⟨rfl, hzone⟩ := showZone_renders debug ex h1 sh
      obtain ⟨next, h3, h4⟩ := load_reads.run_bind h2
      obtain ⟨rfl, hrest⟩ := ih h4
      exact ⟨rfl, (hzone.trans (hrest.read h3)).congr fun L out => Prog.if_false_run h0 rfl⟩

theorem showLarge_renders : ∀ {fuel b : Nat} {sh : Shown},
    showLarge fuel b sh w = some (sh', w') →
    w' = w ∧ Renders ex w (fun L => Text.showLarge ex L fuel b) sh sh' := by
  intro fuel
  induction fuel with
  | zero =>
    intro b sh h
    by_cases h0 : b = null
    · exact Renders.ended _ h0 h
    · rw [showLarge, if_neg h0] at h
      cases h
  | succ fuel ih =>
    intro b sh h
    by_cases h0 : b = null
    · exact Renders.ended _ h0 h
    · rw [showLarge, if_neg h0] at h
      obtain ⟨size, h1, h2⟩ := load_reads.run_bind h
      obtain ⟨next, h3, h4⟩ := load_reads.run_bind h2
      obtain ⟨rfl, hrest⟩ := ih h4
      have hline := line_renders (w := w') (p := fun _ => pure) ex sh (b + BlockT.sizeof + 8) size
        (Or.inl rfl) fun L out => by simp [Printed.put]
      have hlast := hrest.read (f := fun next L => Text.showLarge ex L fuel next) h3
      refine ⟨rfl, (hline.trans hlast).congr fun L out => ?_⟩
      exact Prog.if_false_run h0 (Prog.bind_to h1 rfl)

/-! ## The whole report -/

theorem heading_run {name : List Char} {first : Nat} (L : Locals) (h : first < 2 ^ 60) :
    Text.heading L name first out w =
      some (out.put (ascii name ++ hexText first ++ ascii ['\n']), w) := by
  refine Prog.bind_to (writeStr_run _) (Prog.bind_to (writeHex_run h) ?_)
  refine (writeStr_run _).trans ?_
  simp [Printed.put]

/-- **A class**: its heading, and entries for its lines. -/
theorem showClass_renders {free full : Head} {total : Nat} {r : Section × Nat} (name : List Char)
    (h : showClass free full total w = some (r, w')) : w' = w ∧ ∃ g : EntryGroup,
      g.section = r.1 ∧ (∀ e ∈ g.entries, DebugText e.debug) ∧ (g.head < 2 ^ 60 →
        (∀ e ∈ g.entries, e.line.Printable ex w) → ∀ L t,
          Text.showClass debug ex L name free full ⟨t, total⟩ w =
            some (⟨t ++ g.text name ex w, r.2⟩, w)) := by
  rw [showClass, Prog.get_bind] at h
  obtain ⟨sh₁, w₁, h1, h2⟩ := Prog.bind_eq_some.mp h
  obtain ⟨rfl, hfree⟩ := showZones_renders debug ex h1
  obtain ⟨sh₂, w₂, h3, h4⟩ := Prog.bind_eq_some.mp h2
  obtain ⟨rfl, hfull⟩ := showZones_renders debug ex h3
  obtain ⟨rfl, rfl⟩ := Prod.mk.inj (Option.some.inj h4)
  obtain ⟨es, hes, hd, hp⟩ := hfree.trans hfull
  have hlines : sh₂.lines = es.map BlockEntry.line := hes
  let first := if w₂.heap.get free ≠ null then w₂.heap.get free else w₂.heap.get full
  refine ⟨rfl, ⟨first, es⟩, congrArg (Section.mk first) hlines.symm, hd,
    fun hhead hprint L t => ?_⟩
  refine Prog.bind_to rfl (Prog.bind_to (heading_run L hhead) ?_)
  refine (hp hprint L _).trans ?_
  simp [EntryGroup.text, first]

/-- **The text of the report.** Where the report has numbers that can be printed, both functions
write a listing of it, whatever is on the stack before, and change nothing. -/
theorem report_renders {r : Report} (h : showAllocMem w = some (r, w'))
    (hr : r.Printable ex w) : w' = w ∧ ∃ l : Listing, l.report = r ∧
      (∀ e ∈ l.entries, e.Printable ex w) ∧
        ∀ L, Text.report debug ex L w = some (l.text ex w, w) := by
  obtain ⟨tiny, w₁, h1, h2⟩ := Prog.bind_eq_some.mp h
  obtain ⟨rfl, g₁, hg₁, hd₁, htiny⟩ := showClass_renders debug ex Text.tinyName h1
  obtain ⟨small, w₂, h3, h4⟩ := Prog.bind_eq_some.mp h2
  obtain ⟨rfl, g₂, hg₂, hd₂, hsmall⟩ := showClass_renders debug ex Text.smallName h3
  rw [Prog.get_bind] at h4
  obtain ⟨large, w₃, h5, h6⟩ := Prog.bind_eq_some.mp h4
  obtain ⟨rfl, es, hes, hd₃, hlarge⟩ := showLarge_renders ex h5
  obtain ⟨rfl, rfl⟩ := Prod.mk.inj (Option.some.inj h6)
  have hes : large.lines = es.map BlockEntry.line := hes
  let l : Listing := ⟨g₁, g₂, ⟨w₃.heap.fullLargeBlocks, es⟩, large.total⟩
  have hreport : l.report =
      ⟨tiny.1, small.1, ⟨w₃.heap.fullLargeBlocks, large.lines⟩, large.total⟩ := by
    rw [← hg₁, ← hg₂, hes]
    rfl
  rw [← hreport] at hr
  have hentries : ∀ e ∈ l.entries, e.Printable ex w₃ := by
    intro e he
    have hline : e.line ∈ l.report.lines := by
      rw [l.report_lines]
      exact List.mem_map_of_mem he
    refine ⟨?_, hr.lines _ hline⟩
    simp only [Listing.entries, List.mem_append] at he
    rcases he with (he | he) | he
    · exact hd₁ e he
    · exact hd₂ e he
    · exact hd₃ e he
  have hp := fun e he => (hentries e he).line
  simp only [Listing.entries, List.mem_append, or_imp, forall_and] at hp
  have hheads := hr.heads
  simp only [List.forall_mem_cons] at hheads
  refine ⟨rfl, l, hreport, hentries, fun L => ?_⟩
  refine Prog.bind_to (htiny hheads.1 hp.1.1 L []) ?_
  refine Prog.bind_to (hsmall hheads.2.1 hp.1.2 L _) ?_
  refine Prog.bind_to rfl (Prog.bind_to (heading_run L hheads.2.2.1) ?_)
  refine Prog.bind_to (hlarge hp.2 L _) ?_
  refine Prog.bind_to (writeStr_run _) (Prog.bind_to (writeDec_run hr.total) ?_)
  refine Prog.bind_to (writeStr_run _) ?_
  simp [l, Listing.text, totalText, EntryGroup.text, Printed.put]

/-! ## Reading it back -/

/-- Every mapping ends at an address of 15 digits or less. -/
def Os.Short (os : Os) : Prop := ∀ r ∈ os.regions, os.limit r < 2 ^ 60

/-- The text of the report, with or without debug lines, and whatever is on the stack before, is
read back as the report, with the bytes of the blocks if they are dumped. The report has a line for
each of the pointers. -/
def World.Readable (ex : Bool) (w : World) (live : Nat → Prop) : Prop :=
  ∃ r, showAllocMem w = some (r, w) ∧
    (∀ debug, ∃ t, (∀ L, Text.report debug ex L w = some (t, w)) ∧
      readReport.all t = some (r, r.lines.map (ShowLine.shown ex w))) ∧
    ∀ p, live p → ∃ l ∈ r.lines, l.start = p ∧ l.stop = p + l.bytes

/-- `show_alloc_mem` writes a text that is read back as its report, no bytes with the lines, and has
a line for each of the pointers. -/
def World.Legible (w : World) (live : Nat → Prop) : Prop :=
  ∃ r, showAllocMem w = some (r, w) ∧
    (∀ debug, ∃ t, (∀ L, Text.showAllocMem debug L w = some (t, w)) ∧
      readReport.all t = some (r, r.lines.map fun _ => [])) ∧
    ∀ p, live p → ∃ l ∈ r.lines, l.start = p ∧ l.stop = p + l.bytes

variable {P : Nat} {A : AHeap} {k : Cell} {n : Nat} {x : Nat} {h : Head} {c : Config World}
  {ι : Type} [DecidableEq ι] {S : Sys ι BonusWorld Thread}

/-- What is written down for a cell fits. -/
theorem AHeap.Fitting.le_cap (hf : A.Fitting) (hk : A.Records k n) : n ≤ A.cap k := by
  cases k with
  | slot c z i => exact hf hk
  | block b => exact hk.2.ge

/-- A node is at a short address. -/
theorem Rep.node_short (hr : Rep P w A) (hs : w.os.Short) (hx : x ∈ A.lists h) : x < 2 ^ 60 := by
  have hreg := hr.backed.region hx
  have hlimit := hr.backed.system.le_limit ⟨x, A.len P h x⟩
  have hshort := hs _ hreg
  simp only at hlimit
  omega

theorem headD_short {xs : List Nat} (hxs : ∀ x ∈ xs, x < 2 ^ 60) : xs.headD null < 2 ^ 60 := by
  cases xs with
  | nil => exact Nat.two_pow_pos 60
  | cons x xs => exact hxs x List.mem_cons_self

/-- **The line of a held cell** can be printed. -/
theorem Rep.line_printable (hP : ValidPage P) (hr : Rep P w A) (hf : A.Fitting) (hs : w.os.Short)
    (hk : A.Holds k) : (ShowLine.of (A.entry P k)).Printable ex w ∧
      (ShowLine.of (A.entry P k)).stop = k.addr P + A.recorded k := by
  obtain ⟨n, hn⟩ := AHeap.holds_iff_records.mp hk
  have hfits := hf.le_cap hn
  have hcell := hr.wf.hasCell hk
  obtain ⟨h, hm, -, hroom⟩ := hcell.node hP
  have hreg := hr.backed.region hm
  have hlimit := hr.backed.system.le_limit ⟨k.base, A.len P h k.base⟩
  have hshort := hs _ hreg
  simp only at hlimit
  have hstop : wrap (k.addr P + n) = k.addr P + n := wrap_of_lt (by omega)
  have hline : ShowLine.of (A.entry P k) = ⟨k.addr P, k.addr P + n, n⟩ := by
    rw [AHeap.entry, hn.recorded, ShowLine.of, hstop]
  rw [hline, hn.recorded]
  refine ⟨⟨?_, ?_, ?_, fun _ => ⟨?_, fun x hx => ?_⟩⟩, rfl⟩
  · change k.addr P < 2 ^ 60
    omega
  · change k.addr P + n < 2 ^ 60
    omega
  · change n < 2 ^ 64
    omega
  · simp only [ptrdiffMax]
    omega
  · exact hr.payload_mapped hP hcell (Nat.lt_of_lt_of_le hx hfits)

/-- The report of a represented heap can be printed. -/
theorem Rep.report_printable (hP : ValidPage P) (hr : Rep P w A) (hf : A.Fitting)
    (hs : w.os.Short) : (A.report P).Printable ex w := by
  have hfirst : ∀ c, A.first c < 2 ^ 60 := fun c => headD_short fun x hx => by
    rcases List.mem_append.mp hx with hx | hx
    · exact hr.node_short hs hx
    · exact hr.node_short hs hx
  refine ⟨?_, fun l hl => ?_, Nat.mod_lt _ (by decide)⟩
  · simp only [List.forall_mem_cons, AHeap.report]
    exact ⟨hfirst .tiny, hfirst .small, headD_short fun x hx => hr.node_short hs hx, by simp⟩
  · rw [AHeap.report_lines, List.mem_map] at hl
    obtain ⟨y, hy, rfl⟩ := hl
    obtain ⟨k, hk, rfl⟩ := List.mem_map.mp hy
    exact (hr.line_printable ex hP hf hs (hr.wf.mem_heldCells.mp hk)).1

/-- **A represented heap can be read** from either text. -/
theorem Rep.readable (hP : ValidPage P) (hr : Rep P w A) (hf : A.Fitting) (hs : w.os.Short)
    {live : Nat → Prop} (hlive : ∀ p, live p → ∃ k, A.Holds k ∧ k.addr P = p) :
    w.Readable ex live := by
  have hrun := showAllocMem_run hP hr
  have hprint := hr.report_printable ex hP hf hs
  refine ⟨A.report P, hrun, fun debug => ?_, fun p hp => ?_⟩
  · obtain ⟨-, l, hreport, hentries, htext⟩ := report_renders debug ex hrun hprint
    exact ⟨l.text ex w, htext, hreport ▸ Listing.reads hentries⟩
  · obtain ⟨k, hk, rfl⟩ := hlive p hp
    refine ⟨ShowLine.of (A.entry P k), ?_, rfl, (hr.line_printable ex hP hf hs hk).2⟩
    rw [AHeap.report_lines]
    exact List.mem_map_of_mem (List.mem_map_of_mem (hr.wf.mem_heldCells.mpr hk))

/-! ## The two functions -/

/-- The pointers of all threads. -/
def Threads.Owns (S : Sys ι BonusWorld Thread) (p : Nat) : Prop :=
  ∃ i, ∃ x ∈ (S.thread i).owned, x.ptr = p

/-- Between two sections the shared heap can be read from either text. -/
theorem threads_readable [Platform] (ex : Bool) (hS : Threads.Reachable P S)
    (hs : S.shared.world.os.Short) : S.shared.world.Readable ex (Threads.Owns S) := by
  have hP := hS.1
  obtain ⟨A, hh, hf⟩ := threads_kept (fitting_kept hP) hS
  obtain ⟨A', hh'⟩ := threads_inv hS
  have hf' : A'.Fitting := (fitting_kept hP).rep hh.rep hh'.shared.rep hf
  refine hh'.shared.rep.readable ex hP hf' hs ?_
  rintro p ⟨i, x, hx, rfl⟩
  obtain ⟨k, hk, haddr, -⟩ := (hh'.own i).owned.cell x hx
  exact ⟨k, hk, haddr⟩

/-- **The text of `show_alloc_mem`** says what the report says, in every state of the mandatory
allocator, and between the sections of any number of threads of the bonus one. -/
theorem report_readable [Platform] :
    (∀ c, Reachable P c → c.state.os.Short →
      c.state.Legible fun p => ∃ x ∈ c.live, x.ptr = p) ∧
    ∀ {ι : Type} [DecidableEq ι] (S : Sys ι BonusWorld Thread), Threads.Reachable P S →
      S.shared.world.os.Short → S.shared.world.Legible (Threads.Owns S) := by
  refine ⟨fun c hc hs => ?_, fun S hS hs => threads_readable false hS hs⟩
  obtain ⟨A, hI, hf⟩ := reachable_kept (fitting_kept hc.1) hc
  refine hI.rep.readable false hc.1 hf hs ?_
  rintro p ⟨x, hx, rfl⟩
  obtain ⟨k, hk, haddr, -⟩ := hI.owned.cell x hx
  exact ⟨k, hk, haddr⟩

/-- Blocks of every class, of one client or of two threads. -/
theorem report_readable_sample :
    (∃ c : Config World, c.live = sampleLive ∧
      c.state.Legible fun p => ∃ x ∈ c.live, x.ptr = p) ∧
    ∃ S : Sys Bool BonusWorld Thread,
      (S.thread true).owned = [⟨8589936533, 400⟩, ⟨17179869232, 200000⟩] ∧
      (S.thread false).owned = [⟨34359738416, 4001⟩, ⟨8589935501, 500⟩] ∧
      S.shared.world.Legible (Threads.Owns S) := by
  obtain ⟨c, t, hrun, hlive, -, hshort⟩ := run_sample
  obtain ⟨S, hS, htrue, hfalse, -, hshortS⟩ := threads_mixed_sample
  have hs : c.state.os.Short := by simpa [Os.Short] using hshort
  have hsS : S.shared.world.os.Short := by simpa [Os.Short] using hshortS
  have hreach := Threads.reach_inBounds hS
  exact ⟨⟨c, hlive, report_readable.1 c ⟨validPage_4096, _, _, t, hrun⟩ hs⟩, S, htrue, hfalse,
    report_readable.2 S ⟨validPage_4096, _, _, hreach⟩ hsS⟩

/-- **The text of `show_alloc_mem_ex`**, between the sections of any number of threads: it says what
the report of `show_alloc_mem` says, and the dumps below the lines are all the bytes of every
block. -/
theorem dump_readable [Platform] (hS : Threads.Reachable P S) (hs : S.shared.world.os.Short) :
    ∃ r, showAllocMem S.shared.world = some (r, S.shared.world) ∧
      (∀ debug, ∃ t, (∀ L, Text.showAllocMemEx debug L S.shared.world = some (t, S.shared.world)) ∧
        readReport.all t = some (r, r.lines.map (ShowLine.contents S.shared.world))) ∧
      ∀ p, Threads.Owns S p → ∃ l ∈ r.lines, l.start = p ∧ l.stop = p + l.bytes :=
  threads_readable true hS hs

theorem dump_readable_sample : ∃ S : Sys Bool BonusWorld Thread,
    (S.thread true).owned = [⟨8589936533, 400⟩, ⟨17179869232, 200000⟩] ∧
    (S.thread false).owned = [⟨34359738416, 4001⟩, ⟨8589935501, 500⟩] ∧
    ∃ r, showAllocMem S.shared.world = some (r, S.shared.world) ∧
      (∀ debug, ∃ t, (∀ L, Text.showAllocMemEx debug L S.shared.world = some (t, S.shared.world)) ∧
        readReport.all t = some (r, r.lines.map (ShowLine.contents S.shared.world))) ∧
      ∀ p, Threads.Owns S p → ∃ l ∈ r.lines, l.start = p ∧ l.stop = p + l.bytes := by
  obtain ⟨S, hS, htrue, hfalse, -, hshort⟩ := threads_mixed_sample
  have hs : S.shared.world.os.Short := by simpa [Os.Short] using hshort
  have hreach := Threads.reach_inBounds hS
  exact ⟨S, htrue, hfalse, dump_readable ⟨validPage_4096, _, _, hreach⟩ hs⟩

end FtMalloc
