import FtMalloc.Abstract.Held
import FtMalloc.Run.Observe
import FtMalloc.Source.Show

/-!
# What `show_alloc_mem` reports

`heldCells` lists the held cells in the order in which `show_alloc_mem` comes upon them: zone by
zone along the free and the full list of each class, then the large blocks.

Results:
* `mem_heldCells`, `heldCells_nodup`: it has every held cell, each once.
* `showAllocMem_run`: `show_alloc_mem` changes nothing and writes a line for each of them, with its
  pointer and its recorded size; the total is the sum of the sizes as a `size_t`.
-/

namespace FtMalloc

open Lib

/-! ## The held cells in order -/

namespace AHeap

variable (P : Nat) (A : AHeap)

/-- Slot `i` of the zone `z` is handed out: `show_zone` shows the slots whose bit is clear. -/
def taken (z i : Nat) : Bool := ((A.slots z)[i]?.join).isSome

/-- The size written down for a cell: its `requested_sizes` entry, or the size in the block's
header. -/
def recorded : Cell → Nat
  | .slot _ z i => ((A.slots z)[i]?.join).getD 0
  | .block b => A.size b

/-- The held cells of a zone, from slot `i` on, in the order in which they are shown. -/
def zoneCells (c : Cls) (z i k : Nat) : List Cell :=
  ((List.range' i k).filter (A.taken z)).map (.slot c z)

/-- The held cells of a class: zones with a free slot first, as `show_alloc_mem` walks them. -/
def classCells (c : Cls) : List Cell :=
  (A.lists c.freeHead ++ A.lists c.fullHead).flatMap fun z => A.zoneCells c z 0 (c.cells P)

/-- The held large blocks. -/
def largeCells : List Cell := (A.lists .fullLargeBlocks).map .block

/-- The held cells, in the order of the report. -/
def heldCells : List Cell := A.classCells P .tiny ++ A.classCells P .small ++ A.largeCells

/-- The allocation reported for a cell: its pointer and the size written down. -/
def entry (k : Cell) : Alloc := ⟨k.addr P, A.recorded k⟩

variable {P A} {k : Cell} {c c' : Cls} {z i n s : Nat}

theorem taken_iff : A.taken z i = true ↔ ∃ r, (A.slots z)[i]? = some (some r) := by
  unfold taken
  rw [Option.isSome_iff_exists]
  exact exists_congr fun r => Option.join_eq_some_iff

theorem Records.recorded (hk : A.Records k n) : A.recorded k = n := by
  cases k with
  | slot c z i =>
    change ((A.slots z)[i]?.join).getD 0 = n
    rw [hk.2]
    rfl
  | block b => exact hk.2

theorem mem_zoneCells : k ∈ A.zoneCells c z i n ↔
    ∃ j, i ≤ j ∧ j < i + n ∧ A.taken z j = true ∧ k = .slot c z j := by
  unfold zoneCells
  rw [List.mem_map]
  constructor
  · rintro ⟨j, hj, rfl⟩
    obtain ⟨hr, ht⟩ := List.mem_filter.mp hj
    have hb := List.mem_range'_1.mp hr
    exact ⟨j, hb.1, hb.2, ht, rfl⟩
  · rintro ⟨j, h1, h2, ht, rfl⟩
    exact ⟨j, List.mem_filter.mpr ⟨List.mem_range'_1.mpr ⟨h1, h2⟩, ht⟩, rfl⟩

theorem Wf.mem_classCells (hw : A.Wf P) :
    k ∈ A.classCells P c ↔ A.Holds k ∧ ∃ z i, k = .slot c z i := by
  unfold classCells
  rw [List.mem_flatMap]
  constructor
  · rintro ⟨z, hz, hk⟩
    obtain ⟨i, -, -, ht, rfl⟩ := mem_zoneCells.mp hk
    exact ⟨⟨List.mem_append.mp hz, taken_iff.mp ht⟩, z, i, rfl⟩
  · rintro ⟨hk, z, i, rfl⟩
    have hi := (hw.hasCell hk).2
    obtain ⟨hz, hr⟩ := hk
    exact ⟨z, List.mem_append.mpr hz, mem_zoneCells.mpr
      ⟨i, Nat.zero_le i, by omega, taken_iff.mpr hr, rfl⟩⟩

theorem mem_largeCells : k ∈ A.largeCells ↔ A.Holds k ∧ ∃ b, k = .block b := by
  unfold largeCells
  rw [List.mem_map]
  constructor
  · rintro ⟨b, hb, rfl⟩
    exact ⟨hb, b, rfl⟩
  · rintro ⟨hk, b, rfl⟩
    exact ⟨b, hk, rfl⟩

/-- **Every held cell is listed**, and nothing else is. -/
theorem Wf.mem_heldCells (hw : A.Wf P) : k ∈ A.heldCells P ↔ A.Holds k := by
  unfold heldCells
  rw [List.mem_append, List.mem_append, hw.mem_classCells, hw.mem_classCells, mem_largeCells]
  constructor
  · rintro ((h | h) | h) <;> exact h.1
  · intro hk
    cases k with
    | slot c z i =>
      cases c with
      | tiny => exact Or.inl (Or.inl ⟨hk, z, i, rfl⟩)
      | small => exact Or.inl (Or.inr ⟨hk, z, i, rfl⟩)
    | block b => exact Or.inr ⟨hk, b, rfl⟩

theorem zoneCells_nodup : (A.zoneCells c z i n).Nodup := by
  refine List.Nodup.map (fun a b h => ?_) (List.Nodup.filter _ List.nodup_range')
  injection h

theorem Wf.classCells_nodup (hw : A.Wf P) : (A.classCells P c).Nodup := by
  have hzones : (A.lists c.freeHead ++ A.lists c.fullHead).Nodup :=
    List.Nodup.append (hw.nodup _) (hw.nodup _) fun x h1 h2 =>
      c.freeHead_ne_fullHead (hw.once h1 h2)
  refine List.nodup_flatMap.mpr ⟨fun z _ => zoneCells_nodup, hzones.imp fun {y z} hne k h1 h2 => ?_⟩
  obtain ⟨i, -, -, -, rfl⟩ := mem_zoneCells.mp h1
  obtain ⟨j, -, -, -, he⟩ := mem_zoneCells.mp h2
  injection he with _ h
  exact hne h

/-- **No held cell is listed twice**, as no node is on two lists or twice on one. -/
theorem Wf.heldCells_nodup (hw : A.Wf P) : (A.heldCells P).Nodup := by
  unfold heldCells
  refine List.Nodup.append (List.Nodup.append hw.classCells_nodup hw.classCells_nodup ?_) ?_ ?_
  · intro k h1 h2
    obtain ⟨-, z, i, rfl⟩ := hw.mem_classCells.mp h1
    obtain ⟨-, y, j, he⟩ := hw.mem_classCells.mp h2
    cases he
  · refine List.Nodup.map (fun a b h => ?_) (hw.nodup _)
    injection h
  · intro k h1 h2
    obtain ⟨-, b, rfl⟩ := mem_largeCells.mp h2
    rcases List.mem_append.mp h1 with h1 | h1
    · obtain ⟨-, z, i, he⟩ := hw.mem_classCells.mp h1
      cases he
    · obtain ⟨-, z, i, he⟩ := hw.mem_classCells.mp h1
      cases he

end AHeap

/-! ## What is written -/

/-- The line of an allocation: start, end and number of bytes. -/
def ShowLine.of (x : Alloc) : ShowLine := ⟨x.ptr, wrap (x.ptr + x.size), x.size⟩

/-- The lines of some allocations, written with the total at `t`, which is a `size_t` and wraps. -/
def Shown.of (t : Nat) (xs : List Alloc) : Shown :=
  ⟨xs.map ShowLine.of, wrap (t + (xs.map Alloc.size).sum)⟩

theorem Shown.of_line (t : Nat) (xs : List Alloc) (p s : Nat) :
    (Shown.of t xs).line p s = Shown.of t (xs ++ [⟨p, s⟩]) := by
  simp [Shown.of, Shown.line, ShowLine.of, wrap, Nat.add_assoc]

theorem Shown.of_append (t : Nat) (xs ys : List Alloc) :
    (Shown.of t xs).append (Shown.of 0 ys) = Shown.of t (xs ++ ys) := by
  simp [Shown.of, Shown.append, wrap, Nat.add_assoc]

variable {P : Nat} {w : World} {A : AHeap} {c : Cls} {z i t : Nat} {xs : List Alloc}

theorem Rep.taken_bit (hP : ValidPage P) (hr : Rep P w A) (hz : A.HasZone c z)
    (hi : i < c.cells P) : bit w.mem (z + 72) i = !A.taken z i := by
  have hbits := (hP.layout c).bits
  have hlt : i < (A.slots z).length := by
    rw [hr.wf.cells hz]
    exact hi
  rw [(hr.zone hz).1.bits i (by omega), AHeap.taken, List.getElem?_eq_getElem hlt]
  cases (A.slots z)[i] <;> simp

/-- One block of a zone (`show_alloc_mem.c:48-59`): a line when its bit is clear, none when it is
set. -/
theorem showBlock_run (hP : ValidPage P) (hr : Rep P w A) (hz : A.HasZone c z)
    (hi : i < c.cells P) : showBlock z i (Shown.of t xs) w =
      some (Shown.of t (xs ++ (A.zoneCells c z i 1).map (A.entry P)), w) := by
  have hzr := (hr.zone hz).1
  have hL := hP.layout c
  have hhd := hL.header
  have hbits := hL.bits
  have hroom := hL.room
  have hat := (hr.zone hz).2
  refine Prog.bind_to (load_to (zone_mapped hP hr hz (by decide)) hzr.bitmapAt) ?_
  refine Prog.bind_to (loadByte_of (hat.mapped (by omega) (by omega))) ?_
  have hbit := hr.taken_bit hP hz hi
  have hmask := and_bitMask_ne_zero (w.mem (z + 72 + i / 8)) (Nat.mod_lt i (by decide : 0 < 8))
  rw [← bit, hbit] at hmask
  by_cases ht : A.taken z i = true
  · obtain ⟨r, hslot⟩ := AHeap.taken_iff.mp ht
    have hzero : w.mem (z + 72 + i / 8) &&& bitMask (i % 8) = 0#8 := by
      by_contra h
      have := hmask.mp h
      simp [ht] at this
    have hcells : A.zoneCells c z i 1 = [.slot c z i] := by simp [AHeap.zoneCells, ht]
    have hrec : A.recorded (.slot c z i) = r := by simp [AHeap.recorded, hslot]
    refine Prog.if_true_run hzero ?_
    refine Prog.bind_to (load_to (zone_mapped hP hr hz (by decide)) hzr.sizesAt) ?_
    refine Prog.bind_to (load_to (hat.mapped (by omega) (by omega)) (hzr.sizes i r hslot)) ?_
    refine Prog.bind_to (calculateZoneBlockAddress_run hP hr hz i) ?_
    rw [hcells, List.map_cons, List.map_nil, AHeap.entry, hrec]
    exact congrArg (fun s => some (s, w)) (Shown.of_line t xs _ r)
  · have hne : ¬w.mem (z + 72 + i / 8) &&& bitMask (i % 8) = 0#8 :=
      hmask.mpr (by simp [ht])
    have hcells : A.zoneCells c z i 1 = [] := by simp [AHeap.zoneCells, ht]
    refine Prog.if_false_run hne ?_
    rw [hcells, List.map_nil, List.append_nil]
    rfl

theorem zoneCells_succ (A : AHeap) (c : Cls) (z i k : Nat) :
    A.zoneCells c z i (k + 1) = A.zoneCells c z i 1 ++ A.zoneCells c z (i + 1) k := by
  unfold AHeap.zoneCells
  rw [← List.map_append, ← List.filter_append]
  rfl

/-- The loop over the blocks of a zone (`show_alloc_mem.c:47-60`). -/
theorem showBlocks_run (hP : ValidPage P) (hr : Rep P w A) (hz : A.HasZone c z) :
    ∀ (k : Nat) {i : Nat} (xs : List Alloc), i + k ≤ c.cells P →
      showBlocks z i k (Shown.of t xs) w =
        some (Shown.of t (xs ++ (A.zoneCells c z i k).map (A.entry P)), w) := by
  intro k
  induction k with
  | zero =>
    intro i xs _
    simp [showBlocks, AHeap.zoneCells]
  | succ k ih =>
    intro i xs hk
    refine Prog.bind_to (showBlock_run hP hr hz (by omega)) ((ih _ (by omega)).trans ?_)
    rw [zoneCells_succ A c z i k, List.map_append, List.append_assoc]

theorem showZone_run (hP : ValidPage P) (hr : Rep P w A) (hz : A.HasZone c z) :
    showZone z w = some (Shown.of 0 ((A.zoneCells c z 0 (c.cells P)).map (A.entry P)), w) := by
  refine Prog.bind_to (loadInt_to (zone_mapped hP hr hz (by decide)) (hr.zone hz).1.blocks) ?_
  rw [Int.toNat_natCast]
  exact showBlocks_run (t := 0) hP hr hz (c.cells P) [] (by omega)

/-- The reported allocations of a list of zones, zone by zone. -/
def AHeap.zoneEntries (P : Nat) (A : AHeap) (c : Cls) (zs : List Nat) : List Alloc :=
  (zs.flatMap fun z => A.zoneCells c z 0 (c.cells P)).map (A.entry P)

/-- The loop over a list of zones (`show_alloc_mem.c:73`), each link read after the zone was
shown. -/
theorem showZones_run (hP : ValidPage P) (hr : Rep P w A) :
    ∀ {zs : List Nat} {p h q fuel : Nat} (xs : List Alloc), zoneNode.Seg w.mem p h zs q 0 →
      (∀ z ∈ zs, A.HasZone c z) → zs.length ≤ fuel →
      showZones fuel h (Shown.of t xs) w = some (Shown.of t (xs ++ A.zoneEntries P c zs), w) := by
  intro zs
  induction zs with
  | nil =>
    intro p h q fuel xs hs _ _
    have h0 : h = null := hs.2.symm
    rw [AHeap.zoneEntries, List.flatMap_nil, List.map_nil, List.append_nil]
    cases fuel with
    | zero => exact Prog.if_true_run h0 rfl
    | succ fuel => exact Prog.if_true_run h0 rfl
  | cons z zs ih =>
    intro p h q fuel xs hs hz hf
    obtain ⟨rfl, h0, -, hrest⟩ := hs
    obtain ⟨fuel, rfl⟩ : ∃ n, fuel = n + 1 := Nat.exists_eq_add_one.mpr (by simp at hf; omega)
    have hzone := hz h List.mem_cons_self
    refine Prog.if_false_run h0 (Prog.bind_to (showZone_run hP hr hzone) ?_)
    refine Prog.bind_to (load_of (zone_mapped hP hr hzone (by decide))) ?_
    rw [Shown.of_append]
    refine (ih _ hrest (fun y hy => hz y (List.mem_cons_of_mem _ hy)) (by simpa using hf)).trans ?_
    rw [AHeap.zoneEntries, AHeap.zoneEntries, List.flatMap_cons, List.map_append,
      List.append_assoc]

/-- A list of the heap, within the fuel of the loop: there are no more nodes than mappings. -/
theorem Rep.zone_seg (hr : Rep P w A) {h : Head} (hc : h.cls = some c) :
    ∃ q, zoneNode.Seg w.mem 0 (w.heap.get h) (A.lists h) q 0 ∧
      (∀ z ∈ A.lists h, A.HasZone c z) ∧ (A.lists h).length ≤ w.os.regions.length := by
  obtain ⟨q, hs⟩ := hr.lists h
  rw [Cls.node_eq hc] at hs
  exact ⟨q, hs, fun z hz => AHeap.hasZone_of_mem hc hz, hr.backed.length_le hr.wf⟩

/-- The heading of a class (`show_alloc_mem.c:67-68`, `77-78`): the first zone of the free list, or
else of the full one. -/
def AHeap.first (A : AHeap) (c : Cls) : Nat :=
  (A.lists c.freeHead ++ A.lists c.fullHead).headD null

theorem Rep.first_eq (hr : Rep P w A) (c : Cls) :
    (if w.heap.get c.freeHead ≠ null then w.heap.get c.freeHead else w.heap.get c.fullHead) =
      A.first c := by
  have hne := fun x hx => (hr.lists c.freeHead).ne_zero x hx
  rw [hr.get_head, hr.get_head, AHeap.first]
  cases hx : A.lists c.freeHead with
  | nil => simp
  | cons x xs =>
    have h0 : x ≠ null := hne x (by rw [hx]; exact List.mem_cons_self)
    simp [h0]

/-- The section of a class: the address in its heading and its lines. -/
def AHeap.sectionOf (P : Nat) (A : AHeap) (c : Cls) : Section :=
  ⟨A.first c, ((A.classCells P c).map (A.entry P)).map ShowLine.of⟩

theorem showClass_run (hP : ValidPage P) (hr : Rep P w A) (c : Cls) (t : Nat) :
    showClass c.freeHead c.fullHead (wrap t) w = some ((A.sectionOf P c,
      wrap (t + (((A.classCells P c).map (A.entry P)).map Alloc.size).sum)), w) := by
  obtain ⟨q, hfree, hzf, hlf⟩ := hr.zone_seg c.cls_freeHead
  obtain ⟨q', hfull, hzg, hlg⟩ := hr.zone_seg c.cls_fullHead
  have hcells : (A.classCells P c).map (A.entry P) =
      [] ++ A.zoneEntries P c (A.lists c.freeHead) ++ A.zoneEntries P c (A.lists c.fullHead) := by
    rw [AHeap.classCells, List.flatMap_append, List.map_append]
    rfl
  refine Prog.bind_to rfl (Prog.bind_to (showZones_run (t := t) hP hr [] hfree hzf hlf) ?_)
  refine Prog.bind_to (showZones_run hP hr _ hfull hzg hlg) ?_
  rw [← hcells, hr.first_eq]
  rfl

theorem showLarge_run (hr : Rep P w A) :
    ∀ {bs : List Nat} {p h q fuel : Nat} (xs : List Alloc), blockNode.Seg w.mem p h bs q 0 →
      (∀ b ∈ bs, b ∈ A.lists .fullLargeBlocks) → bs.length ≤ fuel →
      showLarge fuel h (Shown.of t xs) w =
        some (Shown.of t (xs ++ (bs.map Cell.block).map (A.entry P)), w) := by
  intro bs
  induction bs with
  | nil =>
    intro p h q fuel xs hs _ _
    have h0 : h = null := hs.2.symm
    rw [List.map_nil, List.map_nil, List.append_nil]
    cases fuel with
    | zero => exact Prog.if_true_run h0 rfl
    | succ fuel => exact Prog.if_true_run h0 rfl
  | cons b bs ih =>
    intro p h q fuel xs hs hb hf
    obtain ⟨rfl, h0, -, hrest⟩ := hs
    obtain ⟨fuel, rfl⟩ : ∃ n, fuel = n + 1 := Nat.exists_eq_add_one.mpr (by simp at hf; omega)
    obtain ⟨hbr, hat⟩ := hr.block (h := .fullLargeBlocks) rfl (hb h List.mem_cons_self)
    have hm : ∀ o, o + 8 ≤ 48 → w.os.Mapped (h + o) 8 := fun o ho =>
      hat.mapped (by omega) (by omega)
    refine Prog.if_false_run h0 (Prog.bind_to (load_to (hm _ (by decide)) hbr.size) ?_)
    refine Prog.bind_to (load_of (hm _ (by decide))) ?_
    rw [Shown.of_line]
    refine (ih _ hrest (fun y hy => hb y (List.mem_cons_of_mem _ hy)) (by simpa using hf)).trans ?_
    rw [List.append_assoc]
    rfl

/-- The report of a heap, computed from the abstract heap alone. -/
def AHeap.report (P : Nat) (A : AHeap) : Report where
  tiny := A.sectionOf P .tiny
  small := A.sectionOf P .small
  large := ⟨(A.lists .fullLargeBlocks).headD null, (A.largeCells.map (A.entry P)).map ShowLine.of⟩
  total := wrap (((A.heldCells P).map (A.entry P)).map Alloc.size).sum

theorem AHeap.report_lines (P : Nat) (A : AHeap) :
    (A.report P).lines = ((A.heldCells P).map (A.entry P)).map ShowLine.of := by
  simp [Report.lines, AHeap.report, AHeap.sectionOf, AHeap.heldCells]

/-- **`show_alloc_mem` reports the held cells** (`show_alloc_mem.c:64-107`) and changes nothing. -/
theorem showAllocMem_run (hP : ValidPage P) (hr : Rep P w A) :
    showAllocMem w = some (A.report P, w) := by
  obtain ⟨q, hs⟩ := hr.lists .fullLargeBlocks
  have hlen := hr.backed.length_le (h := .fullLargeBlocks) hr.wf
  have hhead : w.heap.fullLargeBlocks = (A.lists .fullLargeBlocks).headD null :=
    hr.get_head .fullLargeBlocks
  have htotal : (A.report P).total = wrap (0 +
      (((A.classCells P .tiny).map (A.entry P)).map Alloc.size).sum +
      (((A.classCells P .small).map (A.entry P)).map Alloc.size).sum +
      ((A.largeCells.map (A.entry P)).map Alloc.size).sum) := by
    simp [AHeap.report, AHeap.heldCells, Nat.add_assoc]
  have hreport : A.report P = ⟨A.sectionOf P .tiny, A.sectionOf P .small,
      ⟨w.heap.fullLargeBlocks, (A.largeCells.map (A.entry P)).map ShowLine.of⟩,
      (A.report P).total⟩ := by
    rw [hhead]
    rfl
  rw [hreport, htotal]
  refine Prog.bind_to (showClass_run hP hr .tiny 0) (Prog.bind_to (showClass_run hP hr .small _) ?_)
  exact Prog.bind_to rfl (Prog.bind_to (showLarge_run hr [] hs (fun _ hb => hb) hlen) rfl)

end FtMalloc
