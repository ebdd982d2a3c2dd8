import FtMalloc.Refine.Alloc

/-!
# Release (`malloc.c:226-274`)

* `Rep.header`: the word below a cell's pointer is the cell's own (`Cell.word`); `slot_decodes`
  and `block_decodes` unpack it.
* `freePtr_run`: on the pointer of a cell that is handed out, the function is `AHeap.free`. What
  it passes to `munmap` is the mapping of a node that was taken out of its list.
* `free_run`: so is `free`.

`freeSlotMem`, `freeLargeMem` and `freeMem` are what release does to memory.
-/

namespace FtMalloc

open Lib

/-! ## What release does to memory -/

namespace AHeap

/-- What the zone branch of `free` does to memory (`malloc.c:238-261`): the slot is released, and
the zone leaves its list when it is empty and not alone there, or moves back to the free list when
it was full. -/
def freeSlotMem (P : Nat) (A : AHeap) (c : Cls) (z i : Nat) (m : Mem) : Mem :=
  let A₁ := A.setSlot z i none
  let m₁ := releasedMem m z i
  if A₁.freeCount z = c.cells P then
    if A.lists c.freeHead = [z] then m₁ else A₁.detachMem z c.freeHead m₁
  else if A₁.freeCount z = 1 then
    A₁.moveMem z c.fullHead c.freeHead m₁
  else
    m₁

/-- What the large branch of `free` does to memory (`malloc.c:263-271`): the block leaves the full
list, and joins the free one unless it is so large that it is unmapped. -/
def freeLargeMem (A : AHeap) (b : Nat) (m : Mem) : Mem :=
  let m₁ := A.detachMem b .fullLargeBlocks m
  if 102400 < A.size b then m₁
  else (A.detach b .fullLargeBlocks).appendMem b .freeLargeBlocks
    (stInt m₁ (b + BlockT.free) 1)

/-- What `free` of a cell's pointer does to memory, by the kind of the cell. -/
def freeMem (P : Nat) (A : AHeap) : Cell → Mem → Mem
  | .slot c z i => A.freeSlotMem P c z i
  | .block b => A.freeLargeMem b

end AHeap

variable {P : Nat} {w : World} {m m' : Mem} {A : AHeap} {z s a b i j n : Nat} {c : Cls} {k : Cell}

/-! ## Header words -/

/-- The header word of a cell, which `free` and `realloc` read below its pointer: the zone with the
index packed into it, or the block. -/
def Cell.word : Cell → Nat
  | slot _ z i => metaPack z i
  | block b => b

/-- A zone is at least a page, so its address leaves room for the flag and index bits. -/
theorem Rep.zone_room (hP : ValidPage P) (hr : Rep P w A) (hz : A.HasZone c z) :
    z % 4096 = 0 ∧ z + 4096 ≤ 2 ^ 64 := by
  have hat := (hr.zone hz).2
  have hL := hP.layout c
  have h1 := hL.enough
  have h2 := hL.header
  have h3 := hL.slot_le (z := 0) (i := 99) (by omega)
  have h4 := hL.size_pos
  have h5 := hat.end_le
  unfold Cls.headerAddr at h3
  exact ⟨hat.aligned, by omega⟩

/-- **The word below a cell's pointer** (`malloc.c:233`) is its header word, and it can be read. -/
theorem Rep.header (hP : ValidPage P) (hr : Rep P w A) (hk : A.HasCell P k) :
    8 ≤ k.addr P ∧ w.os.Mapped (k.addr P - 8) 8 ∧ ld w.mem 8 (k.addr P - 8) = k.word := by
  cases k with
  | slot c z i =>
    obtain ⟨hz, hi⟩ := hk
    obtain ⟨hzr, hat⟩ := hr.zone hz
    have hslot := (hP.layout c).slot_le (z := z) hi
    have haddr : (Cell.slot c z i).addr P = c.headerAddr P z i + 8 := Cls.slotAddr_eq
    have hge : z ≤ c.headerAddr P z i := by
      unfold Cls.headerAddr
      omega
    rw [haddr, Nat.add_sub_cancel]
    exact ⟨by omega, hat.mapped hge (by omega), hzr.headers i hi⟩
  | block b =>
    obtain ⟨h, hc, hb⟩ := hk
    obtain ⟨hbr, hat⟩ := hr.block hc hb
    have haddr : (Cell.block b).addr P - 8 = b + 40 := rfl
    rw [haddr]
    refine ⟨?_, hat.mapped (by omega) (by omega), hbr.header⟩
    change 8 ≤ b + 48
    omega

theorem Rep.slot_decodes (hP : ValidPage P) (hr : Rep P w A) (hk : A.HasCell P (.slot c z i)) :
    metaIsZone (Cell.slot c z i).word = true ∧ metaZone (Cell.slot c z i).word = z ∧
      metaBlockNum (Cell.slot c z i).word = i := by
  obtain ⟨hz, hi⟩ := hk
  obtain ⟨hal, hroom⟩ := hr.zone_room hP hz
  have hcap := (hP.layout c).cap
  exact ⟨metaIsZone_pack hal (by omega), metaZone_pack hal hroom (by omega),
    metaBlockNum_pack hal (by omega)⟩

theorem Rep.block_decodes (hr : Rep P w A) (hk : A.HasCell P (.block b)) :
    metaIsZone (Cell.block b).word = false := by
  obtain ⟨h, hc, hb⟩ := hk
  exact metaIsZone_aligned (hr.nodeAt hb).aligned

/-! ## A slot -/

theorem Rep.unmapped (hP : ValidPage P) (hr : Rep P w A) (hf : A.Fresh b) :
    Rep P { w with os := w.os.munmap ⟨b, n⟩ } A :=
  hr.system hP (hr.backed.munmap hf) hr.page (Agrees.refl _ _)

theorem freeListOf_eq (c : Cls) : freeListOf c.code = c.freeHead := by cases c <;> rfl

/-- A zone is alone in its list when its links are NULL, which is what `malloc.c:247` asks. -/
theorem Rep.alone_iff (hr : Rep P w A) (hz : z ∈ A.lists c.freeHead) :
    A.lists c.freeHead = [z] ↔
      zoneNode.prevOf w.mem z = 0 ∧ zoneNode.nextOf w.mem z = 0 := by
  obtain ⟨ys, zs, hsplit⟩ := List.append_of_mem hz
  have hl := hr.lists c.freeHead
  rw [hsplit, Cls.node_eq c.cls_freeHead] at hl
  rw [hsplit, hl.prevOf_eq_zero_iff, hl.nextOf_eq_zero_iff]
  constructor
  · intro h
    have hlen := congrArg List.length h
    simp only [List.length_append, List.length_cons, List.length_nil] at hlen
    exact ⟨List.eq_nil_of_length_eq_zero (by omega), List.eq_nil_of_length_eq_zero (by omega)⟩
  · rintro ⟨rfl, rfl⟩
    rfl

/-- **Reclaiming an empty zone** (`malloc.c:242-251`): it stays when it is alone in its list, and is
unmapped otherwise. -/
theorem reclaimZone_run [Platform]
    (hP : ValidPage P) (hr : Rep P w A) (hz : z ∈ A.lists c.freeHead) :
    Writes P w A (reclaimZone z) ()
      (if A.lists c.freeHead = [z] then (A, w.os)
        else (A.detach z c.freeHead, w.os.munmap ⟨z, c.total P⟩))
      (if A.lists c.freeHead = [z] then id else A.detachMem z c.freeHead) := by
  have hzone : A.HasZone c z := Or.inl hz
  obtain ⟨hzr, hat⟩ := hr.zone hzone
  have hm : ∀ {o k}, o + k ≤ 72 → w.os.Mapped (z + o) k := zone_mapped hP hr hzone
  have halone := hr.alone_iff hz
  -- the run up to the test
  have hrun : ∀ {o : Option (Unit × World)},
      (if zoneNode.prevOf w.mem z ≠ null ∨ zoneNode.nextOf w.mem z ≠ null then (do
          lstDetach (freeListOf c.code) z
          let base ← load 8 (z + ZoneT.base)
          let size ← load 8 (z + ZoneT.zoneSize)
          let _ ← munmap base size
          pure () : C Unit) else pure ()) w = o → reclaimZone z w = o := by
    intro o ho
    refine Prog.bind_to (loadInt_to (hm (by decide)) hzr.type) ?_
    refine Prog.bind_to (load_of (hm (by decide))) ?_
    exact Prog.bind_to (load_of (hm (by decide))) ho
  by_cases hone : A.lists c.freeHead = [z]
  · simp only [if_pos hone]
    obtain ⟨hp, hn⟩ := halone.mp hone
    exact ⟨w, hrun (Prog.if_false_run (by rw [hp, hn]; simp) rfl), rfl, hr, Agrees.refl _ _, rfl⟩
  · simp only [if_neg hone]
    obtain ⟨w₁, hdet, hos₁, hr₁, hn₁, hag₁, hmem₁⟩ := hr.detach_writes hP hz
    have hreg := hr.backed.region hz
    rw [AHeap.len_of_cls c.cls_freeHead] at hreg
    have hz₁ : ZoneRep P w₁.mem c z (A.slots z) := by
      unfold NodeRep at hn₁
      rwa [c.cls_freeHead] at hn₁
    refine ⟨{ w₁ with os := w₁.os.munmap ⟨z, c.total P⟩ }, hrun ?_, by rw [hos₁],
      hr₁.unmapped hP (hr.wf.fresh_detach hz), hag₁.mono fun a ha => hr.payload_not_meta hP ha,
      hmem₁⟩
    refine Prog.if_true_run (by rw [halone, not_and_or] at hone; exact hone) ?_
    rw [freeListOf_eq]
    rw [Cls.node_eq c.cls_freeHead] at hdet
    refine Prog.bind_to hdet ?_
    refine Prog.bind_to (load_to (by rw [hos₁]; exact hm (by decide)) hz₁.base) ?_
    refine Prog.bind_to (load_to (by rw [hos₁]; exact hm (by decide)) hz₁.zoneSize) ?_
    exact Prog.bind_to (munmap_of (by rw [hos₁]; exact hreg)) rfl

/-- A full zone goes back to the free list (`malloc.c:252-261`), the type stored in it picking the
two lists. -/
theorem reopenZone_run (hP : ValidPage P) (hr : Rep P w A) (hz : z ∈ A.lists c.fullHead) :
    Writes P w A (reopenZone z) () (A.move z c.fullHead c.freeHead, w.os)
      (A.moveMem z c.fullHead c.freeHead) := by
  obtain ⟨w₁, w₂, hdet, hadd, hos₂, hr₂, hag₂, hmem₂⟩ := hr.move_writes hP hz c.cls_full_free.symm
  have hzone : A.HasZone c z := Or.inr hz
  refine ⟨w₂, ?_, hos₂, hr₂, hag₂.mono fun a ha => hr.payload_not_meta hP ha, hmem₂⟩
  refine Prog.bind_to (loadInt_to (zone_mapped hP hr hzone (by decide)) (hr.zone hzone).1.type) ?_
  cases c with
  | tiny => exact Prog.if_true_run rfl (Prog.bind_to hdet hadd)
  | small => exact Prog.if_false_run (by decide) (Prog.if_true_run rfl (Prog.bind_to hdet hadd))

/-- **The zone branch of `free` (`malloc.c:234-261`) is `AHeap.freeSlot`**: the slot, and what
becomes of its zone. -/
theorem freeZoneBlock_run [Platform] (hP : ValidPage P) (hr : Rep P w A) (hok : A.Ok P)
    (hk : A.Holds (.slot c z i)) :
    Writes P w A (freeZoneBlock z i) () (A.freeSlot P w.os c z i) (A.freeSlotMem P c z i) := by
  obtain ⟨hz, r, hslot⟩ := hk
  have hi : i < c.cells P := by
    rw [← hr.wf.cells hz]
    exact (List.getElem?_eq_some_iff.mp hslot).1
  obtain ⟨hr₁, hag₁⟩ := releasedMem_rep hP hr hz hslot
  have hz₁ : (A.setSlot z i none).HasZone c z := hz
  have hmany := (hP.layout c).enough
  have hmcount : w.os.Mapped (z + ZoneT.freeCount) 4 := zone_mapped hP hr hz (by decide)
  have hrun : ∀ {o : Option (Unit × World)},
      (if ((A.setSlot z i none).freeCount z : Int) = (c.cells P : Int) then reclaimZone z
        else if ((A.setSlot z i none).freeCount z : Int) = 1 then reopenZone z else pure ())
          (w.setMem (releasedMem w.mem z i)) = o → freeZoneBlock z i w = o := by
    intro o ho
    refine Prog.bind_to (updateBitmap_run hP hr hz hi _) ?_
    refine Prog.bind_to (addFreeCount_run hmcount) ?_
    refine Prog.bind_to (loadInt_to hmcount (hr₁.count_bounds hP hz₁).1) ?_
    exact Prog.bind_to (loadInt_to (zone_mapped hP hr₁ hz₁ (by decide)) (hr₁.zone hz₁).1.blocks) ho
  unfold AHeap.freeSlot AHeap.freeSlotMem
  by_cases hall : (A.setSlot z i none).freeCount z = c.cells P
  · simp only [if_pos hall]
    have hzf : z ∈ A.lists c.freeHead := hok.on_free hz hslot (by omega)
    obtain ⟨w₂, hrec, hos₂, hr₂, hag₂, hmem₂⟩ := reclaimZone_run (c := c) hP hr₁ hzf
    refine ⟨w₂, hrun ((Prog.if_true_run (by rw [hall]) hrec)), hos₂, hr₂, hag₁.trans hag₂, ?_⟩
    rw [hmem₂, AHeap.lists_setSlot]
    split <;> rfl
  · simp only [if_neg hall]
    by_cases hone : (A.setSlot z i none).freeCount z = 1
    · simp only [if_pos hone]
      have hzf : z ∈ A.lists c.fullHead := hok.on_full hz hslot hone
      obtain ⟨w₂, hre, hos₂, hr₂, hag₂, hmem₂⟩ := reopenZone_run (c := c) hP hr₁ hzf
      refine ⟨w₂, hrun ?_, hos₂, hr₂, hag₁.trans hag₂, hmem₂⟩
      exact Prog.if_false_run (by omega) (Prog.if_true_run (by omega) hre)
    · simp only [if_neg hone]
      refine ⟨w.setMem (releasedMem w.mem z i), hrun ?_, rfl, hr₁, hag₁, rfl⟩
      exact Prog.if_false_run (by omega) (Prog.if_false_run (by omega) rfl)

/-! ## A large block -/

/-- Marking a block that is in no list (`malloc.c:269`): the mark is a field that nothing reads
back. -/
theorem markFree_run (hP : ValidPage P) (hr : Rep P w A) (hf : A.Fresh b)
    (hreg : ⟨b, 48 + s⟩ ∈ w.os.regions) (hb : BlockRep w.mem b s) :
    let m' := stInt w.mem (b + BlockT.free) 1
    storeInt (b + BlockT.free) 1 w = some ((), w.setMem m') ∧ Rep P (w.setMem m') A ∧
      BlockRep m' b s ∧ Agrees w.mem m' fun a => a < b ∨ b + 48 ≤ a := by
  have hat : NodeAt w b (48 + s) := hr.backed.system.nodeAt hreg
  have hag : Agrees w.mem (stInt w.mem (b + BlockT.free) 1) fun a => a < b ∨ b + 48 ≤ a := by
    intro a ha
    refine st_out ?_
    simp only [BlockT.free]
    omega
  refine ⟨storeInt_of (hat.mapped (by omega) (by simp only [BlockT.free]; omega)),
    hr.frame hP (hag.mono fun a ha => ?_), ?_, hag⟩
  · obtain ⟨h, x, hx, h1, h2⟩ := ha.inNode hP
    have hap := hr.backed.system.apart _ (hr.backed.region hx) _ hreg fun e =>
      hf.ne_of_mem hx (congrArg Region.base e)
    have h3 := hr.backed.system.le_limit ⟨x, A.len P h x⟩
    have h4 := hr.backed.system.le_limit ⟨b, 48 + s⟩
    simp only at hap h3 h4
    omega
  · constructor <;> simp (disch := decide) only [ld_stInt_off, ldInt_stInt_off]
    · exact hb.size
    · exact hb.type
    · exact hb.header

/-- **The large branch of `free` (`malloc.c:262-271`) is `AHeap.freeLarge`**: unmapped above 102400
bytes, kept for the next request otherwise. -/
theorem freeLargeBlock_run [Platform]
    (hP : ValidPage P) (hr : Rep P w A) (hk : A.Holds (.block b)) :
    Writes P w A (freeLargeBlock b) () (A.freeLarge w.os b) (A.freeLargeMem b) := by
  have hb : b ∈ A.lists .fullLargeBlocks := hk
  obtain ⟨w₁, hdet, hos₁, hr₁, hn₁, hag₁, hmem₁⟩ := hr.detach_writes hP hb
  have hb₁ : BlockRep w₁.mem b (A.size b) := hn₁
  have hreg : ⟨b, 48 + A.size b⟩ ∈ w.os.regions := hr.backed.region hb
  have hreg₁ : ⟨b, 48 + A.size b⟩ ∈ w₁.os.regions := by rw [hos₁]; exact hreg
  have hat : NodeAt w₁ b (48 + A.size b) := hr₁.backed.system.nodeAt hreg₁
  have hlt : 48 + A.size b < 2 ^ 64 := by
    have h1 := hat.end_le
    have h2 := hat.ne_zero
    omega
  have hf := hr.wf.fresh_detach hb
  have hload : load 8 (b + BlockT.size) w₁ = some (A.size b, w₁) :=
    load_to (hat.mapped (by omega) (by simp only [BlockT.size]; omega)) hb₁.size
  have hpay : ∀ a, A.Payload P a → ¬A.Meta P a := fun a ha => hr.payload_not_meta hP ha
  unfold AHeap.freeLarge AHeap.freeLargeMem
  by_cases hbig : 102400 < A.size b
  · simp only [if_pos hbig]
    refine ⟨{ w₁ with os := w₁.os.munmap ⟨b, 48 + A.size b⟩ }, ?_, by rw [hos₁],
      hr₁.unmapped hP hf, hag₁.mono hpay, hmem₁⟩
    refine Prog.bind_to hdet (Prog.bind_to hload (Prog.if_true_run hbig ?_))
    rw [show wrap (BlockT.sizeof + 8 + A.size b) = 48 + A.size b from wrap_of_lt hlt]
    exact Prog.bind_to (munmap_of hreg₁) rfl
  · simp only [if_neg hbig]
    obtain ⟨hmark, hr₂, hb₂, hag₂⟩ := markFree_run hP hr₁ hf hreg₁ hb₁
    obtain ⟨w₃, hadd, hos₃, hr₃, hag₃, hmem₃⟩ := hr₂.append_writes (h := .freeLargeBlocks) hP hf
      hreg₁ hb₂ fun c hc => by cases hc
    rw [World.setMem_mem, hmem₁] at hmem₃
    refine ⟨w₃, ?_, hos₃.trans hos₁, hr₃, ?_, hmem₃⟩
    · refine Prog.bind_to hdet (Prog.bind_to hload (Prog.if_false_run hbig ?_))
      exact Prog.bind_to hmark hadd
    · refine (hag₁.mono hpay).trans ((hag₂.mono fun a ha => ?_).trans (hag₃.mono fun a ha hm => ?_))
      · have hno := hpay a ha
        by_contra hin
        exact hno ⟨.fullLargeBlocks, b, hb, by rw [ownByte_block rfl]; omega⟩
      · exact hpay a ha (AHeap.meta_move hr.wf hb Head.cls_large.symm hm)

/-! ## `free` -/

/-- **`free` past its NULL test is `AHeap.free`**: the header word leads to the cell, whatever its
owner wrote into its payload. -/
theorem freePtr_writes [Platform]
    (hP : ValidPage P) (hr : Rep P w A) (hok : A.Ok P) (hk : A.Holds k) :
    Writes P w A (freePtr (k.addr P)) () (A.free P w.os k) (A.freeMem P k) := by
  have hcell := hr.wf.hasCell hk
  obtain ⟨-, hm, hword⟩ := hr.header hP hcell
  cases k with
  | slot c z i =>
    obtain ⟨hflag, hzone, hnum⟩ := hr.slot_decodes hP hcell
    obtain ⟨w', hrun, hrest⟩ := freeZoneBlock_run hP hr hok hk
    refine ⟨w', Prog.bind_to (load_to hm hword) (Prog.if_true_run hflag ?_), hrest⟩
    rw [hzone, hnum]
    exact hrun
  | block b =>
    obtain ⟨w', hrun, hrest⟩ := freeLargeBlock_run hP hr hk
    have hflag : ¬metaIsZone (Cell.block b).word = true := by
      rw [hr.block_decodes hcell]
      exact Bool.false_ne_true
    exact ⟨w', Prog.bind_to (load_to hm hword) (Prog.if_false_run hflag hrun), hrest⟩

theorem freePtr_run [Platform] (hP : ValidPage P) (hr : Rep P w A) (hok : A.Ok P) (hk : A.Holds k) :
    Refines P w A (freePtr (k.addr P)) () (A.free P w.os k) :=
  (freePtr_writes hP hr hok hk).refines

/-- A cell's pointer is not NULL: it lies behind a header in a mapping. -/
theorem Rep.addr_ne_zero (hP : ValidPage P) (hr : Rep P w A) (hk : A.HasCell P k) :
    k.addr P ≠ 0 := by
  have h8 := (hr.header hP hk).1
  omega

theorem free_writes [Platform] (hP : ValidPage P) (hr : Rep P w A) (hok : A.Ok P) (hk : A.Holds k) :
    Writes P w A (free (k.addr P)) () (A.free P w.os k) (A.freeMem P k) := by
  obtain ⟨w', hrun, hrest⟩ := freePtr_writes hP hr hok hk
  exact ⟨w', Prog.if_false_run (hr.addr_ne_zero hP (hr.wf.hasCell hk)) hrun, hrest⟩

theorem free_run [Platform] (hP : ValidPage P) (hr : Rep P w A) (hok : A.Ok P) (hk : A.Holds k) :
    Refines P w A (free (k.addr P)) () (A.free P w.os k) :=
  (free_writes hP hr hok hk).refines

end FtMalloc
