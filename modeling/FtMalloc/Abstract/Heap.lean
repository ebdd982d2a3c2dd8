import FtMalloc.Source.World
import Mathlib.Data.List.Nodup
import Mathlib.Logic.Function.Basic

/-!
# The abstract allocator

What the allocator keeps, without bytes: six lists of nodes, for each zone the state of its slots
(`none` free, `some r` handed out with requested size `r`) and for each large block its size.
The operations are those of `malloc.c` on this view; they take and return the operating system's
state.

* `Wf` is the shape every intermediate state has: no node twice, every zone with all its slots.
* `Ok` is the invariant between calls: zones on a free list have a free slot, zones on a full
  list have none, large blocks are large and cached ones not too large, and an uninitialised heap
  holds unused zones at most.
* A `Cell` is a slot of a zone or a large block; `Holds` says that it is handed out.

* `Backed` says that the mappings of the nodes exist, so that a new mapping is nobody's node.

`Abstract/Shape.lean` has the lemmas about the single updates, `Abstract/Steps.lean` proves that
the operations keep `Ok` and what they do to the held cells.
-/

namespace FtMalloc

/-! ## Classes and their geometry -/

/-- The two zone classes. -/
inductive Cls
  | tiny
  | small
  deriving DecidableEq, Repr

namespace Cls

/-- The block size of the class. -/
def size : Cls → Nat
  | tiny => 64
  | small => 1024

/-- The value of `zone->type`. -/
def code : Cls → Int
  | tiny => 0
  | small => 1

/-- The list of zones with a free slot (`malloc.h:68-69`). -/
def freeHead : Cls → Head
  | tiny => .freeTinyZones
  | small => .freeSmallZones

/-- The list of zones without one (`malloc.h:70-71`). -/
def fullHead : Cls → Head
  | tiny => .fullTinyZones
  | small => .fullSmallZones

variable (P : Nat) (c : Cls)

/-- The number of slots of a zone. -/
def cells : Nat := slotCount P c.size

/-- The number of bitmap bytes. -/
def bitmapLen : Nat := (c.cells P + 7) / 8

/-- Where the slots start. -/
def dataOff : Nat := 72 + c.bitmapLen P + 8 * c.cells P

/-- The size of a zone. -/
def total : Nat := totalSize P c.size

/-- The address handed out for slot `i` of the zone `z` (`malloc.c:64`, `126`); its header word lies
just below. -/
def slotAddr (z i : Nat) : Nat := z + c.dataOff P + 8 + i * (8 + c.size)

/-- The class a request of `s` bytes goes to, `none` for the large blocks. -/
def ofSize (s : Nat) : Option Cls :=
  if s ≤ tinyBlockSize then some tiny else if s ≤ smallBlockSize then some small else none

end Cls

theorem Cls.ofSize_some {s : Nat} {c : Cls} (h : Cls.ofSize s = some c) : s ≤ c.size := by
  unfold Cls.ofSize at h
  split at h
  · cases h
    assumption
  · split at h
    · cases h
      assumption
    · cases h

theorem Cls.ofSize_none {s : Nat} : Cls.ofSize s = none ↔ 1024 < s := by
  unfold Cls.ofSize
  simp only [tinyBlockSize, smallBlockSize]
  split
  · simp
    omega
  · split
    · simp
      omega
    · simp
      omega

/-- The class of a list of zones, `none` for a list of large blocks. -/
def Head.cls : Head → Option Cls
  | .freeTinyZones | .fullTinyZones => some .tiny
  | .freeSmallZones | .fullSmallZones => some .small
  | .freeLargeBlocks | .fullLargeBlocks => none

@[simp] theorem Cls.cls_freeHead (c : Cls) : c.freeHead.cls = some c := by cases c <;> rfl

@[simp] theorem Cls.cls_fullHead (c : Cls) : c.fullHead.cls = some c := by cases c <;> rfl

/-- The two lists of a class, and the two lists of large blocks, hold the same kind of node. -/
theorem Cls.cls_full_free (c : Cls) : c.fullHead.cls = c.freeHead.cls := by cases c <;> rfl

theorem Head.cls_large : Head.fullLargeBlocks.cls = Head.freeLargeBlocks.cls := rfl

theorem Cls.freeHead_ne_fullHead (c : Cls) : c.freeHead ≠ c.fullHead := by cases c <;> decide

theorem Head.eq_of_cls {h : Head} {c : Cls} (hc : h.cls = some c) :
    h = c.freeHead ∨ h = c.fullHead := by
  cases h <;> cases c <;> simp_all [Head.cls, Cls.freeHead, Cls.fullHead]

/-- A page size `getpagesize` may return: it is not zero, and the zone arithmetic does not
overflow. -/
structure ValidPage (P : Nat) : Prop where
  pos : 1 ≤ P
  small : 8 * roundTotal P 1024 < 2 ^ 31

theorem validPage_4096 : ValidPage 4096 := ⟨by decide, by decide⟩

/-- The layout of a class fits its zones. -/
theorem ValidPage.fits {P : Nat} (hP : ValidPage P) (c : Cls) : ZoneFits P c.size (c.cells P) := by
  refine fits_of_small hP.pos ?_
  have hs := hP.small
  cases c with
  | small => exact hs
  | tiny =>
    have h1 := (roundTotal_bounds (b := 64) hP.pos).2
    have h2 := (roundTotal_bounds (b := 1024) hP.pos).1
    have h3 := page_le_roundTotal (b := 1024) hP.pos
    have hle : roundTotal P 64 ≤ roundTotal P 1024 :=
      Nat.mul_le_mul_right _ (Nat.div_le_div_right (by omega))
    have : Cls.tiny.size = 64 := rfl
    rw [this]
    omega

/-- The arithmetic facts about a class's layout, with its names for them. -/
structure Cls.Layout (P : Nat) (c : Cls) : Prop where
  blocks : nBlocks P c.size = c.cells P
  enough : 100 ≤ c.cells P
  cap : c.cells P ≤ 2047
  bitmap : bitmapBytes (c.cells P) = c.bitmapLen P
  data : dataOffset (c.cells P) = c.dataOff P
  room : c.dataOff P + c.cells P * (8 + c.size) ≤ c.total P
  bits : 8 * c.bitmapLen P ≤ c.cells P + 7 ∧ c.cells P ≤ 8 * c.bitmapLen P
  header : c.dataOff P = 72 + c.bitmapLen P + 8 * c.cells P
  total_lt : c.total P < 2 ^ 31
  size_pos : 64 ≤ c.size ∧ c.size ≤ 1024

theorem ValidPage.layout {P : Nat} (hP : ValidPage P) (c : Cls) : c.Layout P := by
  have hf := hP.fits c
  refine ⟨hf.slots, hf.enough, hf.cap, hf.bitmap, hf.data, hf.room, ?_, rfl, ?_, ?_⟩
  · unfold Cls.bitmapLen
    omega
  · have hsm := hP.small
    have ht := hf.total
    have h1 := (roundTotal_bounds (b := c.size) hP.pos).2
    have h2 := (roundTotal_bounds (b := 1024) hP.pos).1
    have h3 := page_le_roundTotal (b := 1024) hP.pos
    unfold Cls.total
    rw [ht]
    cases c <;> simp only [Cls.size] at h1 ⊢ <;> omega
  · cases c <;> simp [Cls.size]

/-! ## The abstract heap -/

/-- What the allocator hands out: a slot of a zone or a large block. -/
inductive Cell
  | slot (c : Cls) (z i : Nat)
  | block (b : Nat)
  deriving DecidableEq, Repr

/-- The pointer the client gets for a cell. -/
def Cell.addr (P : Nat) : Cell → Nat
  | slot c z i => c.slotAddr P z i
  | block b => b + 48

theorem Cell.addr_ne_zero {P : Nat} {k : Cell} : k.addr P ≠ 0 := by
  cases k with
  | slot c z i =>
    change z + c.dataOff P + 8 + i * (8 + c.size) ≠ 0
    omega
  | block b => exact Nat.succ_ne_zero _

/-- The allocator's state without bytes: the six lists in their order, the slots of each zone with
the sizes requested, and the recorded size of each large block. -/
structure AHeap where
  initialized : Bool
  lists : Head → List Nat
  slots : Nat → List (Option Nat)
  size : Nat → Nat

namespace AHeap

/-- The heap before the first call. -/
def empty : AHeap where
  initialized := false
  lists := fun _ => []
  slots := fun _ => []
  size := fun _ => 0

/-- `z` is a zone of class `c`. -/
def HasZone (A : AHeap) (c : Cls) (z : Nat) : Prop :=
  z ∈ A.lists c.freeHead ∨ z ∈ A.lists c.fullHead

/-- The number of free slots of `z`. -/
def freeCount (A : AHeap) (z : Nat) : Nat := (A.slots z).countP (·.isNone)

/-- The first free slot of `z`. -/
def leastFree (A : AHeap) (z : Nat) : Option Nat := (A.slots z).findIdx? (·.isNone)

/-- The bytes a node of the list `h` was mapped with. -/
def len (P : Nat) (A : AHeap) (h : Head) (x : Nat) : Nat :=
  match h.cls with
  | some c => c.total P
  | none => 48 + A.size x

/-- Nothing of the heap is at `x`: it is on none of the six lists. -/
def Fresh (A : AHeap) (x : Nat) : Prop := ∀ h, x ∉ A.lists h

/-- Change one slot. -/
def setSlot (A : AHeap) (z i : Nat) (s : Option Nat) : AHeap :=
  { A with slots := Function.update A.slots z ((A.slots z).set i s) }

/-- Take a node out of a list. -/
def detach (A : AHeap) (x : Nat) (h : Head) : AHeap :=
  { A with lists := Function.update A.lists h ((A.lists h).erase x) }

/-- Append a node to a list. -/
def append (A : AHeap) (x : Nat) (h : Head) : AHeap :=
  { A with lists := Function.update A.lists h (A.lists h ++ [x]) }

/-- Move a node to the end of another list. -/
def move (A : AHeap) (x : Nat) (h h' : Head) : AHeap := (A.detach x h).append x h'

/-- A new zone at `b`. -/
def addZone (P : Nat) (A : AHeap) (c : Cls) (b : Nat) : AHeap :=
  { A with
    slots := Function.update A.slots b (List.replicate (c.cells P) none) }.append b c.freeHead

/-- A new large block at `b`. -/
def addBlock (A : AHeap) (b s : Nat) : AHeap :=
  { A with size := Function.update A.size b s }.append b .fullLargeBlocks

/-- The first cached block that is large enough, which is what a first-fit search finds. -/
def fit (A : AHeap) (s : Nat) : Option Nat :=
  (A.lists .freeLargeBlocks).find? fun b => decide (s ≤ A.size b)

/-- The heap with its flag set. -/
def init (A : AHeap) : AHeap := { A with initialized := true }

/-! ### Allocation -/

/-- `create_zone`: whether the zone was mapped, and what is left. -/
def createZone (P : Nat) (A : AHeap) (os : Os) (c : Cls) : Bool × AHeap × Os :=
  match os.reply (c.total P) with
  | some b => (true, A.addZone P c b, os.mmap (c.total P))
  | none => (false, A, os.mmap (c.total P))

/-- `setup_global_heap`: the tiny zone first, and the flag only when both were mapped. -/
def setup (P : Nat) (A : AHeap) (os : Os) : Bool × AHeap × Os :=
  let r := A.createZone P os .tiny
  if r.1 then
    let r' := r.2.1.createZone P r.2.2 .small
    if r'.1 then (true, r'.2.1.init, r'.2.2) else r'
  else
    r

/-- The lazy setup of `malloc`. -/
def ready (P : Nat) (A : AHeap) (os : Os) : Bool × AHeap × Os :=
  if A.initialized then (true, A, os) else A.setup P os

/-- Slot `i` of the zone `z` is handed out. A zone that is now full moves to the full list and
another one is mapped; when that fails the slot is not returned. -/
def takeSlot (P : Nat) (A : AHeap) (os : Os) (c : Cls) (z i s : Nat) : Nat × AHeap × Os :=
  let A₁ := A.setSlot z i (some s)
  if A₁.freeCount z = 0 then
    let r := (A₁.move z c.freeHead c.fullHead).createZone P os c
    (if r.1 then c.slotAddr P z i else 0, r.2)
  else
    (c.slotAddr P z i, A₁, os)

/-- `find_free_block` on the first zone of the class's free list. -/
def allocZone (P : Nat) (A : AHeap) (os : Os) (c : Cls) (s : Nat) : Nat × AHeap × Os :=
  match A.lists c.freeHead with
  | [] => (0, A, os)
  | z :: _ =>
    match A.leastFree z with
    | none => (0, A, os)
    | some i => A.takeSlot P os c z i s

/-- `find_free_large_block`: the first cached block that fits, else a new mapping of `48 + s`
bytes. -/
def allocLarge (A : AHeap) (os : Os) (s : Nat) : Nat × AHeap × Os :=
  match A.fit s with
  | some b => (b + 48, A.move b .freeLargeBlocks .fullLargeBlocks, os)
  | none =>
    match os.reply (wrap (48 + s)) with
    | some b => (b + 48, A.addBlock b s, os.mmap (wrap (48 + s)))
    | none => (0, A, os.mmap (wrap (48 + s)))

/-- `alloc_block`. -/
def alloc (P : Nat) (A : AHeap) (os : Os) (s : Nat) : Nat × AHeap × Os :=
  match Cls.ofSize s with
  | some c => A.allocZone P os c s
  | none => A.allocLarge os s

/-- `malloc`. -/
def malloc (P : Nat) (A : AHeap) (os : Os) (s : Nat) : Nat × AHeap × Os :=
  if s = 0 ∨ ptrdiffMax < s then (0, A, os)
  else
    let r := A.ready P os
    if r.1 then r.2.1.alloc P r.2.2 s else (0, r.2)

/-! ### Release -/

/-- The zone branch of `free`: the slot is empty, and its zone may be given back or change lists. -/
def freeSlot (P : Nat) (A : AHeap) (os : Os) (c : Cls) (z i : Nat) : AHeap × Os :=
  let A₁ := A.setSlot z i none
  if A₁.freeCount z = c.cells P then
    if A.lists c.freeHead = [z] then (A₁, os)
    else (A₁.detach z c.freeHead, os.munmap ⟨z, c.total P⟩)
  else if A₁.freeCount z = 1 then
    (A₁.move z c.fullHead c.freeHead, os)
  else
    (A₁, os)

/-- The large branch of `free`: given back above `100 * 1024` bytes, else cached with its recorded
size. -/
def freeLarge (A : AHeap) (os : Os) (b : Nat) : AHeap × Os :=
  if 102400 < A.size b then (A.detach b .fullLargeBlocks, os.munmap ⟨b, 48 + A.size b⟩)
  else (A.move b .fullLargeBlocks .freeLargeBlocks, os)

/-- `free` of a cell's pointer. -/
def free (P : Nat) (A : AHeap) (os : Os) : Cell → AHeap × Os
  | .slot c z i => A.freeSlot P os c z i
  | .block b => A.freeLarge os b

/-! ### Cells -/

/-- A cell exists, handed out or not. -/
def HasCell (P : Nat) (A : AHeap) : Cell → Prop
  | .slot c z i => A.HasZone c z ∧ i < c.cells P
  | .block b => ∃ h : Head, h.cls = none ∧ b ∈ A.lists h

/-- A cell is handed out: a slot with a requested size, or a block of the full list. -/
def Holds (A : AHeap) : Cell → Prop
  | .slot c z i => A.HasZone c z ∧ ∃ r, (A.slots z)[i]? = some (some r)
  | .block b => b ∈ A.lists .fullLargeBlocks

/-- The bytes a cell has room for, which may be more than were requested. -/
def cap (A : AHeap) : Cell → Nat
  | .slot c _ _ => c.size
  | .block b => A.size b

/-- The end of `realloc`, after the allocation `r`: the old cell is released unless `r` failed. -/
def replace (P : Nat) (k : Cell) (r : Nat × AHeap × Os) : Nat × AHeap × Os :=
  if r.1 = 0 then r else (r.1, r.2.1.free P r.2.2 k)

/-- `realloc` of a cell's pointer. -/
def realloc (P : Nat) (A : AHeap) (os : Os) (k : Cell) (s : Nat) : Nat × AHeap × Os :=
  if s ≤ A.cap k then (k.addr P, A, os) else replace P k (A.malloc P os s)

/-! ## Shape and invariant -/

/-- The shape of every state, also in the middle of a call. -/
structure Wf (P : Nat) (A : AHeap) : Prop where
  nodup : ∀ h, (A.lists h).Nodup
  once : ∀ {h h' x}, x ∈ A.lists h → x ∈ A.lists h' → h = h'
  cells : ∀ {c z}, A.HasZone c z → (A.slots z).length = c.cells P

/-- The invariant between calls: a zone is on its free list exactly when it has a free slot, cached
blocks are small enough to be kept, and before the setup nothing is handed out. -/
structure Ok (P : Nat) (A : AHeap) : Prop extends Wf P A where
  hasFree : ∀ {c : Cls} {z}, z ∈ A.lists c.freeHead → 0 < A.freeCount z
  noFree : ∀ {c : Cls} {z}, z ∈ A.lists c.fullHead → A.freeCount z = 0
  large : ∀ {h x}, h.cls = none → x ∈ A.lists h → 1024 < A.size x
  cached : ∀ {x}, x ∈ A.lists .freeLargeBlocks → A.size x ≤ 102400
  unused : A.initialized = false → (∀ {c z}, A.HasZone c z → A.freeCount z = c.cells P) ∧
    A.lists .freeSmallZones = [] ∧ A.lists .freeLargeBlocks = [] ∧ A.lists .fullLargeBlocks = []

/-- Every node has its mapping, with the length it was mapped with, and the system is in order. -/
structure Backed (P : Nat) (A : AHeap) (os : Os) : Prop where
  system : os.Ok
  region : ∀ {h x}, x ∈ A.lists h → ⟨x, A.len P h x⟩ ∈ os.regions

end AHeap

end FtMalloc
