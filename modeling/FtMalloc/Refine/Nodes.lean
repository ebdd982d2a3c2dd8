import FtMalloc.Abstract.Steps
import FtMalloc.Refine.Rep

/-!
# Which nodes the operations keep

`A.Node c x` says that `x` is a zone of the class `c`, or a large block when there is no class,
whichever of the two lists it is on. An allocation keeps every node (`alloc_node`), and so does a
release, unless it gives the mapping of its own node back (`Drops`, `free_node`); then that node is
gone and nothing is mapped at its address (`free_drops`).
-/

namespace FtMalloc

namespace AHeap

/-- `x` is on one of the two lists of its kind. -/
def Node (A : AHeap) (c : Option Cls) (x : Nat) : Prop := ∃ h : Head, h.cls = c ∧ x ∈ A.lists h

/-- The release of the cell gives the mapping of its node back: it empties a zone that is not alone
on the free list (`malloc.c:242-250`), or the block is above 102400 bytes (`malloc.c:265`). -/
def Drops (P : Nat) (A : AHeap) : Cell → Prop
  | .slot c z _ => A.freeCount z + 1 = c.cells P ∧ A.lists c.freeHead ≠ [z]
  | .block b => 102400 < A.size b

variable {P : Nat} {A A' : AHeap} {h h' : Head} {x y z i s b : Nat} {c : Option Cls} {cl : Cls}
  {o : Option Nat} {os : Os} {k : Cell}

/-! ## Single updates -/

theorem Node.mono (hx : A.Node c x) (hm : ∀ {h}, x ∈ A.lists h → x ∈ A'.lists h) : A'.Node c x := by
  obtain ⟨h, hc, hx⟩ := hx
  exact ⟨h, hc, hm hx⟩

theorem Node.setSlot (hx : A.Node c x) : (A.setSlot z i o).Node c x := hx

theorem Node.addZone (hx : A.Node c x) : (A.addZone P cl b).Node c x :=
  hx.mono fun hm => mem_addZone.mpr (Or.inl hm)

theorem Node.addBlock (hx : A.Node c x) : (A.addBlock b s).Node c x :=
  hx.mono fun hm => mem_addBlock.mpr (Or.inl hm)

theorem Node.detach (hw : A.Wf P) (hx : A.Node c x) (hne : x ≠ y) : (A.detach y h).Node c x :=
  hx.mono fun hm => hw.mem_detach.mpr ⟨hm, fun e => hne e.2⟩

/-- A node that moves stays a node of its kind, on the other list. -/
theorem Node.move (hw : A.Wf P) (hx : A.Node c x) (hy : y ∈ A.lists h) (hc : h'.cls = h.cls) :
    (A.move y h h').Node c x := by
  obtain ⟨g, hg, hm⟩ := hx
  by_cases he : x = y
  · subst he
    obtain rfl := hw.once hm hy
    exact ⟨h', hc.trans hg, (hw.mem_move hy).mpr (Or.inr ⟨rfl, rfl⟩)⟩
  · exact ⟨g, hg, (hw.mem_move hy).mpr (Or.inl ⟨he, hm⟩)⟩

theorem Node.createZone (hx : A.Node c x) : (A.createZone P os cl).2.1.Node c x := by
  unfold AHeap.createZone
  split
  · exact hx.addZone
  · exact hx

/-! ## Allocation -/

theorem Node.takeSlot (hw : A.Wf P) (hz : z ∈ A.lists cl.freeHead) (hx : A.Node c x) :
    (A.takeSlot P os cl z i s).2.1.Node c x := by
  unfold AHeap.takeSlot
  by_cases h0 : (A.setSlot z i (some s)).freeCount z = 0
  · rw [if_pos h0]
    exact (Node.move hw.setSlot hx.setSlot hz cl.cls_full_free).createZone
  · rw [if_neg h0]
    exact hx.setSlot

/-- **An allocation** keeps every node, whether it takes a slot, retires a zone or adds a node. -/
theorem alloc_node (hw : A.Wf P) (hx : A.Node c x) : (A.alloc P os s).2.1.Node c x := by
  unfold alloc
  cases Cls.ofSize s with
  | some cl =>
    dsimp only
    unfold allocZone
    split
    · exact hx
    · rename_i z rest hl
      have hz : z ∈ A.lists cl.freeHead := AHeap.first_mem hl
      split
      · exact hx
      · exact hx.takeSlot hw hz
  | none =>
    dsimp only
    unfold allocLarge
    split
    · rename_i b hfit
      exact hx.move hw (fit_some hfit).1 Head.cls_large
    · split
      · exact hx.addBlock
      · exact hx

/-! ## Release -/

/-- The free count of a slot's zone after its release, which `free` compares next. -/
theorem Holds.freeCount_set (hk : A.Holds (.slot cl z i)) :
    (A.setSlot z i none).freeCount z = A.freeCount z + 1 := by
  obtain ⟨-, r, hr⟩ := hk
  exact freeCount_release hr

/-- A zone with a free slot is on the free list: full ones have none. -/
theorem Ok.mem_freeHead (hok : A.Ok P) (hz : A.HasZone cl z) (hpos : A.freeCount z ≠ 0) :
    z ∈ A.lists cl.freeHead := hz.resolve_right fun hm => hpos (hok.noFree hm)

/-- **A release** keeps every node but the one it gives back. -/
theorem free_node (hok : A.Ok P) (hk : A.Holds k) (hx : A.Node c x)
    (hd : k.base = x → ¬A.Drops P k) : (A.free P os k).1.Node c x := by
  have hw := hok.toWf
  cases k with
  | slot cl z i =>
    have hcount := hk.freeCount_set
    change (A.freeSlot P os cl z i).1.Node c x
    unfold freeSlot
    by_cases hall : (A.setSlot z i none).freeCount z = cl.cells P
    · rw [if_pos hall]
      by_cases hone : A.lists cl.freeHead = [z]
      · rw [if_pos hone]
        exact hx.setSlot
      · rw [if_neg hone]
        refine Node.detach hw.setSlot hx.setSlot fun he => ?_
        exact hd he.symm ⟨hcount.symm.trans hall, hone⟩
    · rw [if_neg hall]
      by_cases hone : (A.setSlot z i none).freeCount z = 1
      · rw [if_pos hone]
        refine Node.move hw.setSlot hx.setSlot ?_ cl.cls_full_free.symm
        refine hk.1.resolve_left fun hm => ?_
        have hpos := hok.hasFree hm
        omega
      · rw [if_neg hone]
        exact hx.setSlot
  | block b =>
    change (A.freeLarge os b).1.Node c x
    unfold freeLarge
    by_cases hbig : 102400 < A.size b
    · rw [if_pos hbig]
      exact hx.detach hw fun he => hd he.symm hbig
    · rw [if_neg hbig]
      exact hx.move hw hk Head.cls_large.symm

/-- No mapping starts where one was given back, since no two of them began there. -/
theorem Backed.munmap_base (hb : A.Backed P os) (hx : x ∈ A.lists h) :
    ∀ r ∈ (os.munmap ⟨x, A.len P h x⟩).regions, r.base ≠ x := by
  intro r hr he
  obtain ⟨hne, hr⟩ := hb.system.mem_munmap.mp hr
  have hap := hb.system.apart _ hr _ (hb.region hx) hne
  have h1 := (hb.system.legal _ hr).1
  have h2 := (hb.system.legal _ (hb.region hx)).1
  have h3 := hb.system.le_limit r
  have h4 := hb.system.le_limit ⟨x, A.len P h x⟩
  simp only at hap h2 h4
  omega

/-- **A node that is given back** is not mapped any more: whoever still has its address must not
follow it. -/
theorem free_drops (hP : ValidPage P) (hok : A.Ok P) (hb : A.Backed P os) (hk : A.Holds k)
    (hd : A.Drops P k) : ∀ r ∈ (A.free P os k).2.regions, r.base ≠ k.base := by
  cases k with
  | slot cl z i =>
    obtain ⟨hall, hone⟩ := hd
    have hmany := (hP.layout cl).enough
    have hz := hok.mem_freeHead hk.1 (by omega)
    have hmunmap := hb.munmap_base hz
    rw [len_of_cls cl.cls_freeHead] at hmunmap
    change ∀ r ∈ (A.freeSlot P os cl z i).2.regions, r.base ≠ z
    rw [freeSlot, if_pos (hk.freeCount_set.trans hall), if_neg hone]
    exact hmunmap
  | block b =>
    have hbig : 102400 < A.size b := hd
    change ∀ r ∈ (A.freeLarge os b).2.regions, r.base ≠ b
    rw [freeLarge, if_pos hbig]
    exact hb.munmap_base (h := .fullLargeBlocks) hk

end AHeap

end FtMalloc
