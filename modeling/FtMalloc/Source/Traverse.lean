import FtMalloc.Source.Show

/-!
# The steps of `show_alloc_mem` (`bonus/src/show_alloc_mem.c:52-208`)

`show_alloc_mem` and `show_alloc_mem_ex` take no lock. They read a list head, visit one node after
the other and read its `next`, then go on to the next list: the zones of each class, the free ones
first, and the large blocks that are handed out. `Stop` says where a traversal is; one step reads a
head, or visits a node and reads its `next`.

`show_alloc_mem_ex` is `show_alloc_mem` with a dump of every block (`ex`). The heads that are read
for the headings alone are left out, and so are the lines themselves, which `Source/Show.lean` has.

Results: `visit_reads`: a visit reads only, and the cursor goes on to the `next` of the node.
-/

namespace FtMalloc

open Lib Prog

namespace Bonus

/-! ## A dump -/

/-- `n` bytes from `addr + i` on. -/
def dumpBytes (addr : Nat) : Nat → Nat → C (List Byte)
  | _, 0 => pure []
  | i, n + 1 => do
    let b ← loadByte (addr + i)
    let bs ← dumpBytes addr (i + 1) n
    pure (b :: bs)

/-- `n` lines of `hex_dump` (`show_alloc_mem.c:54-76`), from byte `i` on: up to 16 bytes in
hexadecimal and again as text. -/
def dumpLines (addr size : Nat) : Nat → Nat → C (List (List Byte × List Byte))
  | _, 0 => pure []
  | i, n + 1 => do
    let hex ← dumpBytes addr i (min 16 (size - i))
    let text ← dumpBytes addr i (min 16 (size - i))
    let rest ← dumpLines addr size (i + 16) n
    pure ((hex, text) :: rest)

/-- `hex_dump` (`show_alloc_mem.c:52-77`), as the bytes it reads. -/
def hexDump (addr size : Nat) : C (List (List Byte × List Byte)) :=
  dumpLines addr size 0 ((size + 15) / 16)

/-- The body of `show_zone_ex`'s loop (`show_alloc_mem.c:146-158`). -/
def showBlockEx (zone i : Nat) (sh : Shown) : C Shown := do
  let bitmap ← load 8 (zone + ZoneT.bitmap)
  let byte ← loadByte (bitmap + i / 8)
  if byte &&& bitMask (i % 8) = 0#8 then
    let sizes ← load 8 (zone + ZoneT.requestedSizes)
    let req ← load 8 (sizes + 8 * i)
    let start ← calculateZoneBlockAddress zone i
    let _ ← hexDump start req
    pure (sh.line start req)
  else
    pure sh

/-- `show_zone_ex`'s loop, `k` blocks from block `i` on. -/
def showBlocksEx (zone : Nat) : Nat → Nat → Shown → C Shown
  | _, 0, sh => pure sh
  | i, k + 1, sh => do
    let sh ← showBlockEx zone i sh
    showBlocksEx zone (i + 1) k sh

/-- `show_zone_ex` (`show_alloc_mem.c:143-161`). -/
def showZoneEx (zone : Nat) : C Shown := do
  let n ← loadInt (zone + ZoneT.numberOfBlocks)
  showBlocksEx zone 0 n.toNat ⟨[], 0⟩

/-! ## The traversal -/

/-- `total += show_zone(zone); zone = zone->next;`: the node's memory is read as long as the visit
lasts. -/
def visitZone (ex : Bool) (zone : Nat) : C Nat := do
  let _ ← (if ex then showZoneEx zone else showZone zone)
  load 8 (zone + ZoneT.next)

/-- The body of the loop over the large blocks (`show_alloc_mem.c:126-135`, `191-201`). -/
def visitBlock (ex : Bool) (block : Nat) : C Nat := do
  let size ← load 8 (block + BlockT.size)
  let _ ← (if ex then hexDump (block + BlockT.sizeof + 8) size else pure [])
  load 8 (block + BlockT.next)

/-- The body of the loop over a list. -/
def visit (ex : Bool) : Head → Nat → C Nat
  | .freeTinyZones | .fullTinyZones | .freeSmallZones | .fullSmallZones => visitZone ex
  | .freeLargeBlocks | .fullLargeBlocks => visitBlock ex

/-- Where a traversal is: before the head of a list, or at a node of the loop over one. -/
inductive Stop
  | head (h : Head)
  | node (h : Head) (x : Nat)
  | finished

/-- After the loop over a list. -/
def afterList : Head → Stop
  | .freeTinyZones => .head .fullTinyZones
  | .fullTinyZones => .head .freeSmallZones
  | .freeSmallZones => .head .fullSmallZones
  | .fullSmallZones => .head .fullLargeBlocks
  | .freeLargeBlocks | .fullLargeBlocks => .finished

/-- The test of the loop: `while (zone)`, `while (block)`. -/
def arrive (h : Head) (x : Nat) : Stop := if x = null then afterList h else .node h x

/-- The next step of the traversal: a list head is read, or a node is visited. No lock is taken, and
other threads may come in between. -/
def Stop.exec (ex : Bool) : Stop → C Stop
  | .head h => do
    let x ← readHead h
    pure (arrive h x)
  | .node h x => do
    let next ← visit ex h x
    pure (arrive h next)
  | .finished => Prog.fault

/-! ## A visit reads -/

section Reads

variable {α : Type} {x : C α} {w w' : World} {n a : Nat}

theorem load_reads : ReadOnly (load n a) := fun _ _ _ h => by
  unfold load at h
  split at h
  · exact (Prod.mk.inj (Option.some.inj h)).2.symm
  · cases h

theorem loadInt_reads : ReadOnly (loadInt a) := fun _ _ _ h => by
  unfold loadInt at h
  split at h
  · exact (Prod.mk.inj (Option.some.inj h)).2.symm
  · cases h

theorem loadByte_reads : ReadOnly (loadByte a) := fun _ _ _ h => by
  unfold loadByte at h
  split at h
  · exact (Prod.mk.inj (Option.some.inj h)).2.symm
  · cases h

theorem calculateZoneBlockAddress_reads (z i : Nat) : ReadOnly (calculateZoneBlockAddress z i) :=
  load_reads.bind fun _ => (loadInt_reads.bind fun _ => .pure _).bind fun _ => .pure _

theorem showBlocks_reads (z : Nat) : ∀ (k i : Nat) (sh : Shown), ReadOnly (showBlocks z i k sh)
  | 0, _, sh => .pure sh
  | k + 1, i, sh => by
    refine ReadOnly.bind ?_ fun sh => showBlocks_reads z k (i + 1) sh
    refine load_reads.bind fun _ => loadByte_reads.bind fun _ => ReadOnly.ite ?_ (.pure _)
    exact load_reads.bind fun _ => load_reads.bind fun _ =>
      (calculateZoneBlockAddress_reads z i).bind fun _ => .pure _

theorem dumpBytes_reads (a : Nat) : ∀ k i : Nat, ReadOnly (dumpBytes a i k)
  | 0, _ => .pure _
  | k + 1, i => loadByte_reads.bind fun _ => (dumpBytes_reads a k (i + 1)).bind fun _ => .pure _

theorem dumpLines_reads (a size : Nat) : ∀ k i : Nat, ReadOnly (dumpLines a size i k)
  | 0, _ => .pure _
  | k + 1, i => (dumpBytes_reads a _ i).bind fun _ => (dumpBytes_reads a _ i).bind fun _ =>
    (dumpLines_reads a size k (i + 16)).bind fun _ => .pure _

theorem showBlocksEx_reads (z : Nat) : ∀ (k i : Nat) (sh : Shown), ReadOnly (showBlocksEx z i k sh)
  | 0, _, sh => .pure sh
  | k + 1, i, sh => by
    refine ReadOnly.bind ?_ fun sh => showBlocksEx_reads z k (i + 1) sh
    refine load_reads.bind fun _ => loadByte_reads.bind fun _ => ReadOnly.ite ?_ (.pure _)
    exact load_reads.bind fun _ => load_reads.bind fun _ =>
      (calculateZoneBlockAddress_reads z i).bind fun _ =>
      (dumpLines_reads _ _ _ _).bind fun _ => .pure _

/-- What a program that only reads returns when its last step is a load. -/
theorem bind_load (hx : ReadOnly x) (h : (x >>= fun _ => load 8 a) w = some (n, w')) :
    w' = w ∧ n = ld w.mem 8 a := by
  obtain ⟨b, v, h1, h2⟩ := Prog.bind_eq_some.mp h
  obtain rfl := hx _ _ _ h1
  unfold load at h2
  split at h2
  · obtain ⟨rfl, rfl⟩ := Prod.mk.inj (Option.some.inj h2)
    exact ⟨rfl, rfl⟩
  · cases h2

end Reads

/-- The links of the nodes of a list. -/
def linksOf : Head → NodeLayout
  | .freeTinyZones | .fullTinyZones | .freeSmallZones | .fullSmallZones => zoneNode
  | .freeLargeBlocks | .fullLargeBlocks => blockNode

/-- **A visit** changes nothing, and the cursor goes on to `next`. -/
theorem visit_reads {ex : Bool} {h : Head} {x next : Nat} {w w' : World}
    (hrun : visit ex h x w = some (next, w')) : w' = w ∧ next = (linksOf h).nextOf w.mem x := by
  have hzone : visitZone ex x w = some (next, w') → w' = w ∧ next = zoneNode.nextOf w.mem x := by
    refine bind_load (ReadOnly.ite ?_ ?_)
    · exact loadInt_reads.bind fun n => showBlocksEx_reads x n.toNat 0 ⟨[], 0⟩
    · exact loadInt_reads.bind fun n => showBlocks_reads x n.toNat 0 ⟨[], 0⟩
  have hblock : visitBlock ex x w = some (next, w') →
      w' = w ∧ next = blockNode.nextOf w.mem x := by
    intro h
    obtain ⟨size, v, h1, h2⟩ := Prog.bind_eq_some.mp h
    obtain rfl := load_reads _ _ _ h1
    exact bind_load (ReadOnly.ite (dumpLines_reads _ _ _ _) (.pure _)) h2
  cases h with
  | freeLargeBlocks => exact hblock hrun
  | fullLargeBlocks => exact hblock hrun
  | _ => exact hzone hrun

end Bonus

end FtMalloc
