import FtMalloc.Run.Invariant

/-!
# What a debugger sees

Executable observations of a machine state: the nodes of each list, found by following `next` from
the head (`World.nodes`), the fields of a zone, the bytes the allocator keeps for itself
(`Metadata`), and the whole heap as data (`World.view`).

`Rep.nodes_eq` and `Rep.zone_fields` say what they are in a represented heap.
-/

namespace FtMalloc

open Lib

namespace World

variable (w : World)

/-- The nodes of a list, following `next`; there is no more than one node for each mapping. -/
def nodes (h : Head) : List Nat := h.node.walk w.mem w.os.regions.length (w.heap.get h)

/-- `z` is in one of the two lists of class `c`, that of the zones with a free block or that of the
full ones. -/
def InClass (c : Cls) (z : Nat) : Prop := z ∈ w.nodes c.freeHead ∨ z ∈ w.nodes c.fullHead

/-- `z->number_of_blocks`, the number of blocks the zone was cut into. -/
def numberOfBlocks (z : Nat) : Int := ldInt w.mem (z + ZoneT.numberOfBlocks)

/-- `z->free_count`, the number of blocks `find_free_block` may still take. -/
def freeCount (z : Nat) : Int := ldInt w.mem (z + ZoneT.freeCount)

/-- `z->type`, which picks the lists the zone goes to. -/
def zoneType (z : Nat) : Int := ldInt w.mem (z + ZoneT.type)

/-- `z->zone_size`, the length its mapping has and is unmapped with. -/
def zoneSize (z : Nat) : Nat := ld w.mem 8 (z + ZoneT.zoneSize)

/-- `z->bitmap`, one bit for each block, set while the block is free. -/
def bitmap (z : Nat) : Nat := ld w.mem 8 (z + ZoneT.bitmap)

/-- `z->requested_sizes`, what `malloc` was asked for, for each block. -/
def requestedSizes (z : Nat) : Nat := ld w.mem 8 (z + ZoneT.requestedSizes)

/-- `(z->number_of_blocks + 7) / 8`. -/
def bitmapLen (z : Nat) : Nat := ((w.numberOfBlocks z + 7).tdiv 8).toNat

/-- `calculate_zone_block_address(z, i)` (`malloc.c:125-129`). -/
def blockAddress (z i : Nat) : Nat :=
  ld w.mem 8 (z + ZoneT.memory) +
    i * (8 + if w.zoneType z = tinyBlock then tinyBlockSize else smallBlockSize)

/-- The `n` bytes at `a` are the allocator's: a `zone_t`, a bitmap, a `requested_sizes` array, the
header word of a slot, a `block_t`, or the header word of a large block. -/
inductive Metadata : Nat → Nat → Prop
  | zone {c : Cls} {z : Nat} : w.InClass c z → Metadata z ZoneT.sizeof
  | bitmap {c : Cls} {z : Nat} : w.InClass c z → Metadata (w.bitmap z) (w.bitmapLen z)
  | sizes {c : Cls} {z : Nat} : w.InClass c z →
      Metadata (w.requestedSizes z) (8 * (w.numberOfBlocks z).toNat)
  | header {c : Cls} {z i : Nat} : w.InClass c z → (i : Int) < w.numberOfBlocks z →
      Metadata (w.blockAddress z i - 8) 8
  | block {h : Head} {b : Nat} : h.cls = none → b ∈ w.nodes h → Metadata b BlockT.sizeof
  | blockHeader {h : Head} {b : Nat} : h.cls = none → b ∈ w.nodes h →
      Metadata (b + BlockT.sizeof) 8

/-- `p` is the address of a block that is handed out: a block of a zone whose bit is clear, or a
large block of the full list. -/
inductive HandedOut : Nat → Prop
  | slot {c : Cls} {z i : Nat} : w.InClass c z → (i : Int) < w.numberOfBlocks z →
      bit w.mem (w.bitmap z) i = false → HandedOut (w.blockAddress z i)
  | block {b : Nat} : b ∈ w.nodes .fullLargeBlocks → HandedOut (b + BlockT.sizeof + 8)

end World

/-- A zone as data, its arrays read out. -/
structure ZoneView where
  zone : Nat
  freeCount : Int
  bitmap : List Byte
  requestedSizes : List Nat
  deriving DecidableEq

/-- A large block as data: its address and the size in its header. -/
structure BlockView where
  block : Nat
  size : Nat
  deriving DecidableEq

/-- The heap as data: the flag, the zones and the large blocks of each list, in list order. -/
structure HeapView where
  initialized : Int
  zones : Cls → List ZoneView × List ZoneView
  blocks : List BlockView × List BlockView

namespace World

variable (w : World)

/-- What a zone holds, read through its own pointers. -/
def zoneView (z : Nat) : ZoneView where
  zone := z
  freeCount := w.freeCount z
  bitmap := (List.range (w.bitmapLen z)).map fun i => w.mem (w.bitmap z + i)
  requestedSizes := (List.range (w.numberOfBlocks z).toNat).map fun i =>
    ld w.mem 8 (w.requestedSizes z + 8 * i)

/-- What a large block holds. -/
def blockView (b : Nat) : BlockView := ⟨b, ld w.mem 8 (b + BlockT.size)⟩

/-- What the heap holds: of each class the zones with free slots and those without, and the
cached and the handed out large blocks. -/
def view : HeapView where
  initialized := w.heap.initialized
  zones := fun c =>
    ((w.nodes c.freeHead).map w.zoneView, (w.nodes c.fullHead).map w.zoneView)
  blocks :=
    ((w.nodes .freeLargeBlocks).map w.blockView, (w.nodes .fullLargeBlocks).map w.blockView)

end World

variable {P : Nat} {w w' : World} {A : AHeap} {c : Cls} {z i : Nat} {h : Head}

/-- **Following `next`** from a head of the heap variable finds the nodes of the abstract list, in
its order. -/
theorem Rep.nodes_eq (hr : Rep P w A) (h : Head) : w.nodes h = A.lists h := by
  obtain ⟨q, hs⟩ := hr.lists h
  exact NodeLayout.walk_eq hs (hr.backed.length_le hr.wf)

/-- A list head holds the first node, or NULL. -/
theorem Rep.get_head (hr : Rep P w A) (h : Head) : w.heap.get h = (A.lists h).headD null := by
  have hl := hr.lists h
  cases hx : A.lists h with
  | nil => exact (hl.head_eq_zero_iff.mpr hx)
  | cons x xs =>
    rw [hx] at hl
    exact hl.head_cons

/-- The heap variable is its flag and its six list heads. -/
theorem Heap.eq_of_get {h h' : Heap} (hflag : h.initialized = h'.initialized)
    (hget : ∀ x, h.get x = h'.get x) : h = h' := by
  have h1 := hget .freeTinyZones
  have h2 := hget .freeSmallZones
  have h3 := hget .fullTinyZones
  have h4 := hget .fullSmallZones
  have h5 := hget .freeLargeBlocks
  have h6 := hget .fullLargeBlocks
  cases h
  cases h'
  simp only [Heap.get] at h1 h2 h3 h4 h5 h6
  simp_all

/-- The heap variable is determined by the flag and the lists, so two worlds that represent one heap
have the same. -/
theorem Rep.heap_eq {A' : AHeap} (hr : Rep P w A) (hr' : Rep P w' A')
    (hi : A.initialized = A'.initialized) (hl : ∀ h, A.lists h = A'.lists h) :
    w.heap = w'.heap := by
  refine Heap.eq_of_get ?_ fun h => ?_
  · rw [hr.flag, hr'.flag, hi]
  · rw [hr.get_head, hr'.get_head, hl]

theorem Rep.inClass_iff (hr : Rep P w A) : w.InClass c z ↔ A.HasZone c z := by
  unfold World.InClass AHeap.HasZone
  rw [hr.nodes_eq, hr.nodes_eq]

/-- The fields of a zone of a represented heap: those `create_zone` gave it, which nobody has
changed since. -/
structure ZoneFieldsOf (P : Nat) (w : World) (c : Cls) (z : Nat) : Prop where
  type : w.zoneType z = c.code
  number : w.numberOfBlocks z = (c.cells P : Nat)
  size : w.zoneSize z = c.total P
  bitmap : w.bitmap z = z + 72
  bytes : w.bitmapLen z = c.bitmapLen P
  sizes : w.requestedSizes z = z + 72 + c.bitmapLen P
  address : ∀ i, w.blockAddress z i = c.slotAddr P z i

theorem Rep.zone_fields (hr : Rep P w A) (hz : A.HasZone c z) : ZoneFieldsOf P w c z := by
  have hzr := (hr.zone hz).1
  have hsize : (if c.code = tinyBlock then tinyBlockSize else smallBlockSize) = c.size := by
    cases c <;> rfl
  refine ⟨hzr.type, hzr.blocks, hzr.zoneSize, hzr.bitmapAt, ?_, hzr.sizesAt, fun i => ?_⟩
  · unfold World.bitmapLen World.numberOfBlocks
    rw [hzr.blocks, bitmap_bytes, Int.toNat_natCast]
  · unfold World.blockAddress World.zoneType
    rw [hzr.memoryAt, hzr.type, hsize]
    rfl

/-- **The blocks that are handed out** are the held cells: slots with their bit clear, and blocks on
the full list. -/
theorem Rep.handedOut_iff (hP : ValidPage P) (hr : Rep P w A) {p : Nat} :
    w.HandedOut p ↔ ∃ k, A.Holds k ∧ k.addr P = p := by
  constructor
  · rintro (⟨hz, hi, hbit⟩ | hb)
    · rename_i c z i
      have hzone := hr.inClass_iff.mp hz
      have hf := hr.zone_fields hzone
      have hlen := hr.wf.cells hzone
      have hbits := (hP.layout c).bits
      rw [hf.number] at hi
      have hic : i < c.cells P := by exact_mod_cast hi
      rw [hf.bitmap, (hr.zone hzone).1.bits i (by omega)] at hbit
      have hlt : i < (A.slots z).length := by omega
      refine ⟨.slot c z i, ⟨hzone, ?_⟩, (hf.address i).symm⟩
      rw [List.getElem?_eq_getElem hlt] at hbit ⊢
      cases hs : (A.slots z)[i] with
      | none => simp [hs] at hbit
      | some r => exact ⟨r, rfl⟩
    · rw [hr.nodes_eq] at hb
      exact ⟨.block _, hb, rfl⟩
  · rintro ⟨k, hk, rfl⟩
    cases k with
    | slot c z i =>
      obtain ⟨hz, r, hslot⟩ := hk
      have hf := hr.zone_fields hz
      have hlen := hr.wf.cells hz
      have hbits := (hP.layout c).bits
      have hi : i < c.cells P := by
        rw [← hlen]
        exact (List.getElem?_eq_some_iff.mp hslot).1
      have haddr : (Cell.slot c z i).addr P = w.blockAddress z i := (hf.address i).symm
      rw [haddr]
      refine World.HandedOut.slot (hr.inClass_iff.mpr hz) ?_ ?_
      · rw [hf.number]
        exact_mod_cast hi
      · rw [hf.bitmap, (hr.zone hz).1.bits i (by omega), hslot]
        rfl
    | block b =>
      refine World.HandedOut.block ?_
      rw [hr.nodes_eq]
      exact hk

/-- What is kept when neither the heap variable, nor memory, nor the mappings change: everything
that can be observed. -/
theorem World.view_congr (hh : w'.heap = w.heap) (hm : w'.mem = w.mem)
    (hr : w'.os.regions = w.os.regions) : w'.view = w.view := by
  obtain ⟨heap, mem, os⟩ := w
  obtain ⟨heap', mem', os'⟩ := w'
  obtain rfl : heap' = heap := hh
  obtain rfl : mem' = mem := hm
  have hregions : os'.regions = os.regions := hr
  have hn : ∀ h, (World.mk heap' mem' os').nodes h = (World.mk heap' mem' os).nodes h := by
    intro h
    unfold World.nodes
    rw [hregions]
  unfold World.view
  simp only [hn]
  rfl

/-- What two equal views have in common: the nodes of each list. -/
theorem World.nodes_of_view (hv : w'.view = w.view) :
    w'.heap.initialized = w.heap.initialized ∧ ∀ h, w'.nodes h = w.nodes h := by
  have hzones : ∀ {w : World} {xs : List Nat}, (xs.map w.zoneView).map ZoneView.zone = xs := by
    intro w xs
    rw [List.map_map]
    exact List.map_id xs
  have hblocks : ∀ {w : World} {xs : List Nat}, (xs.map w.blockView).map BlockView.block = xs := by
    intro w xs
    rw [List.map_map]
    exact List.map_id xs
  have hz : ∀ c : Cls, (w'.nodes c.freeHead = w.nodes c.freeHead) ∧
      w'.nodes c.fullHead = w.nodes c.fullHead := by
    intro c
    have h := congrFun (congrArg HeapView.zones hv) c
    have h1 := congrArg (fun p => List.map ZoneView.zone p.1) h
    have h2 := congrArg (fun p => List.map ZoneView.zone p.2) h
    simp only [World.view, hzones] at h1 h2
    exact ⟨h1, h2⟩
  have hb := congrArg HeapView.blocks hv
  have hb1 := congrArg (fun p => List.map BlockView.block p.1) hb
  have hb2 := congrArg (fun p => List.map BlockView.block p.2) hb
  simp only [World.view, hblocks] at hb1 hb2
  refine ⟨congrArg HeapView.initialized hv, fun h => ?_⟩
  cases h with
  | freeTinyZones => exact (hz .tiny).1
  | freeSmallZones => exact (hz .small).1
  | fullTinyZones => exact (hz .tiny).2
  | fullSmallZones => exact (hz .small).2
  | freeLargeBlocks => exact hb1
  | fullLargeBlocks => exact hb2

end FtMalloc
