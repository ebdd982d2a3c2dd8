import FtMalloc.Abstract.Calls
import FtMalloc.Source.Bonus
import FtMalloc.Refine.Realloc

/-!
# The bonus allocator on represented heaps (`bonus/src/malloc_bonus.c:116-365`)

* `findSetBit_run`: the bound check of the bonus `find_set_bit` never strikes, so
  `Bonus.allocBlock` is `AHeap.alloc` (`allocBlock_run`) and does what `alloc_block` of `malloc.c`
  does (`allocBlock_eq`).
* `word_high`: on high addresses the header words are high.
* `headerType_run`: the type read without a lock is that of the cell.
* `malloc_eq`, `free_run`, `realloc_run`: the entry points on a heap whose mutexes are free.
  `malloc` is the one of `malloc.c`. `free` is too unless the header word is below `2 ^ 32`, and
  then it does nothing. `realloc` is too for sizes `malloc` accepts.
-/

namespace FtMalloc

open Lib

/-! ## Abstract operations -/

/-- The type a cell is kept under, as its zone or block stores it: that of the class, or
`LARGE_BLOCK`. -/
def Cell.type : Cell → Int
  | slot c _ _ => c.code
  | block _ => largeBlock

namespace AHeap

/-- The bonus `free` of a cell's pointer: nothing when the header word is below `2 ^ 32`
(`malloc_bonus.c:303`), and otherwise the release. -/
def bonusFree (P : Nat) (A : AHeap) (os : Os) (k : Cell) : AHeap × Os :=
  if k.word < 0x100000000 then (A, os) else A.free P os k

/-- The bonus `realloc` of a cell's pointer (`malloc_bonus.c:329-364`): size zero releases, a size
that fits stays, and a larger one goes to `alloc_block` without the test of `malloc` and moves. -/
def bonusRealloc (P : Nat) (A : AHeap) (os : Os) (k : Cell) (s : Nat) : Nat × AHeap × Os :=
  if s = 0 then (0, A.bonusFree P os k)
  else if s ≤ A.cap k then (k.addr P, A, os)
  else replace P k (A.alloc P os s)

variable {P : Nat} {A : AHeap} {os : Os} {k : Cell} {s : Nat}

theorem bonusFree_releases (hP : ValidPage P) (hs : A.Sound P os) (hk : A.Holds k) :
    Releases P A k (A.bonusFree P os k) := by
  unfold bonusFree
  split
  · exact ⟨hs, fun _ hk' => ⟨hk', rfl⟩⟩
  · exact free_releases hP hs hk

/-- The header word of a cell of a high node is high: the flag and the index are in the low bits of
an address from `2 ^ 32` on. -/
theorem Backed.word_high (hP : ValidPage P) (hb : A.Backed P os) (h : os.High)
    (hk : A.HasCell P k) : 2 ^ 32 ≤ k.word := by
  cases k with
  | slot c z i =>
    obtain ⟨hz, hi⟩ := hk
    obtain ⟨g, -, hm⟩ := hz.mem
    have hreg := hb.region hm
    have hal := (hb.system.legal _ hreg).2.2.1
    have hhigh := h.region _ hreg
    have hcap := (hP.layout c).cap
    simp only at hal hhigh
    change 2 ^ 32 ≤ metaPack z i
    rw [metaPack_eq hal (by omega)]
    omega
  | block b =>
    obtain ⟨g, -, hm⟩ := hk
    exact h.region _ (hb.region hm)

end AHeap

namespace Bonus

variable {P : Nat} {w : World} {W : BonusWorld} {A : AHeap} {k : Cell} {s z i : Nat} {c : Cls}

/-! ## `alloc_block` -/

/-- **The bonus `find_set_bit` (`malloc_bonus.c:116-136`) finds the first free slot**: its test of
the index never decides. -/
theorem findSetBit_run (hP : ValidPage P) : Finds P findSetBit := by
  intro w A c z i hr hz hi
  obtain ⟨hlt, hset, hlow⟩ := leastFree_bit hP hr hz hi
  obtain ⟨hzr, hat⟩ := hr.zone hz
  have hbits := (hP.layout c).bits
  have hin : ¬(i : Int) ≥ (c.cells P : Nat) := by omega
  have hstart : 0 * 8 ≤ i := by omega
  have hend : i < (0 + c.bitmapLen P) * 8 := by omega
  refine Prog.if_false_run hat.ne_zero ?_
  refine Prog.bind_to (loadInt_to (zone_mapped hP hr hz (by decide)) hzr.blocks) ?_
  refine Prog.bind_to (load_to (zone_mapped hP hr hz (by decide)) hzr.bitmapAt) ?_
  rw [scan_bytes hP, Int.toNat_natCast]
  have hscan := scanBytes_run hstart hend (fun j hj => scan_mapped hP hr hz (by omega)) hset
    (fun t _ ht => hlow t ht) fun b => if (b : Int) ≥ (c.cells P : Nat) then -1 else b
  rw [hscan, if_neg hin]

/-- **`alloc_block` (`malloc_bonus.c:202-219`) is `AHeap.alloc`**, as in `malloc.c`. -/
theorem allocBlock_run [Platform] (hP : ValidPage P) (hr : Rep P w A) (hok : A.Ok P)
    (hwrap : 48 + s < 2 ^ 64 ∨ w.os.reply (wrap (48 + s)) = none) :
    let r := A.alloc P w.os s
    Refines P w A (allocBlock s) r.1 r.2 :=
  FtMalloc.allocBlock_run hP (findSetBit_run hP) hr hok hwrap

/-- Two scans that find the same slot take the same block: the rest of `find_free_block` is the same
code. -/
theorem findFreeBlock_congr {find find' : Nat → C Int} (hf : Finds P find) (hf' : Finds P find')
    (hr : Rep P w A) (hok : A.Ok P) (c : Cls) :
    findFreeBlockWith find (w.heap.get c.freeHead) s w =
      findFreeBlockWith find' (w.heap.get c.freeHead) s w := by
  have hl := hr.lists c.freeHead
  cases hlist : A.lists c.freeHead with
  | nil =>
    have h0 := hl.head_eq_zero_iff.mpr hlist
    exact (Prog.if_true_run h0 rfl).trans (Prog.if_true_run h0 rfl).symm
  | cons z rest =>
    have hz : z ∈ A.lists c.freeHead := AHeap.first_mem hlist
    obtain ⟨i, hi, -⟩ := AHeap.exists_leastFree (hok.hasFree hz)
    rw [hlist] at hl
    rw [hl.head_cons]
    have h0 := (hr.nodeAt hz).ne_zero
    unfold findFreeBlockWith
    rw [Prog.ite_run, Prog.ite_run, if_neg h0, if_neg h0, Prog.bind_of (hf hr (Or.inl hz) hi),
      Prog.bind_of (hf' hr (Or.inl hz) hi)]

/-- **Both allocators take the same block**, since their two `find_set_bit` find the same slot. -/
theorem allocBlock_eq [Platform] (hP : ValidPage P) (hr : Rep P w A) (hok : A.Ok P) :
    allocBlock s w = FtMalloc.allocBlock s w := by
  have hzone := findFreeBlock_congr (s := s) (findSetBit_run hP) (FtMalloc.findSetBit_run hP) hr hok
  unfold allocBlock FtMalloc.allocBlock allocBlockWith
  rw [Prog.get_bind, Prog.get_bind, Prog.ite_run, Prog.ite_run, Prog.ite_run, Prog.ite_run]
  split
  · exact hzone .tiny
  · split
    · exact hzone .small
    · rfl

/-! ## Headers -/

/-- **The type behind a header word** (`malloc_bonus.c:307`) is the cell's, and names the mutex it
is kept under. -/
theorem headerType_run (hP : ValidPage P) (hr : Rep P w A) (hk : A.HasCell P k) :
    headerType k.word w = some (k.type, w) := by
  cases k with
  | slot c z i =>
    obtain ⟨hflag, hzone, -⟩ := hr.slot_decodes hP hk
    refine Prog.if_true_run hflag ?_
    rw [hzone]
    exact loadInt_to (zone_mapped hP hr hk.1 (by decide)) (hr.zone hk.1).1.type
  | block b =>
    have hflag : ¬metaIsZone (Cell.block b).word = true := by
      rw [hr.block_decodes hk]
      exact Bool.false_ne_true
    obtain ⟨h, hc, hb⟩ := hk
    obtain ⟨hbr, hat⟩ := hr.block hc hb
    have hm : w.os.Mapped (b + BlockT.type) 4 :=
      hat.mapped (by omega) (by simp only [BlockT.type]; omega)
    exact Prog.if_false_run hflag (loadInt_to hm hbr.type)

/-- A cell's type is one of the three, so the test of `malloc_bonus.c:308` never returns early. -/
theorem type_known (k : Cell) :
    ¬(k.type ≠ tinyBlock ∧ k.type ≠ smallBlock ∧ k.type ≠ largeBlock) := by
  rintro ⟨h1, h2, h3⟩
  cases k with
  | slot c z i =>
    cases c with
    | tiny => exact h1 rfl
    | small => exact h2 rfl
  | block b => exact h3 rfl

/-! ## The entry points -/

/-- **The unlocked test and the section of the setup** (`malloc_bonus.c:227-237`) are the lazy setup
of `malloc.c`. -/
theorem checkSetup_run {e : Int} {w₁ : World} (hfree : W.held = unlocked)
    (hrun : ensureSetup W.world = some (e, w₁)) :
    checkSetup W = some (e, { W with world := w₁ }) := by
  refine Prog.bind_to rfl ?_
  by_cases hi : W.world.heap.initialized = 0
  · exact Prog.if_true_run hi (setupSection_run hfree hrun)
  · have hskip : ensureSetup W.world = some (0, W.world) :=
      Prog.bind_to rfl (Prog.if_false_run hi rfl)
    obtain ⟨rfl, rfl⟩ := Prod.mk.inj (Option.some.inj (hrun.symm.trans hskip))
    exact Prog.if_false_run hi rfl

/-- **`malloc`** (`malloc_bonus.c:221-245`) does what it does in `malloc.c`, when no other thread
comes between its sections. -/
theorem malloc_eq [Platform] (hP : ValidPage P) (hr : Rep P W.world A) (hok : A.Ok P)
    (hfree : W.held = unlocked) {q : Nat} {w' : World}
    (hrun : FtMalloc.malloc s W.world = some (q, w')) :
    malloc s W = some (q, { W with world := w' }) := by
  by_cases hsize : s = 0 ∨ s > ptrdiffMax
  · obtain ⟨rfl, rfl⟩ :=
      Prod.mk.inj (Option.some.inj (hrun.symm.trans (Prog.if_true_run hsize rfl)))
    exact Prog.if_true_run hsize rfl
  · obtain ⟨w₁, hrun₁, hos₁, hr₁, -⟩ := ensureSetup_run hP hr
    have hs₁ := (AHeap.ready_sound hP ⟨hok, hr.backed⟩).1
    have hrest : (if (if (A.ready P W.world.os).1 = true then (0 : Int) else 1) ≠ 0 then pure null
        else FtMalloc.allocBlock s : C Nat) w₁ = some (q, w') := by
      rw [← hrun, FtMalloc.malloc, if_neg hsize, Prog.bind_of hrun₁]
    refine Prog.if_false_run hsize (Prog.bind_to (checkSetup_run hfree hrun₁) ?_)
    by_cases hready : (A.ready P W.world.os).1 = true
    · rw [if_pos hready] at hrest ⊢
      refine Prog.if_false_run (by decide) (allocSection_run hfree ?_)
      rw [allocBlock_eq hP hr₁ hs₁.ok]
      exact (Prog.if_false_run (by decide) rfl).symm.trans hrest
    · rw [if_neg hready] at hrest ⊢
      obtain ⟨rfl, rfl⟩ := Prod.mk.inj (Option.some.inj
        (hrest.symm.trans (Prog.if_true_run (by decide) rfl)))
      exact Prog.if_true_run (by decide) rfl

/-- `realloc(NULL, s)` is `malloc(s)` (`malloc_bonus.c:325-328`). -/
theorem realloc_null [Platform] (s : Nat) : realloc null s = malloc s := if_pos rfl

/-- **`free`** of a cell whose header word is a high address does what it does in `malloc.c`: the
tests of `malloc_bonus.c:303-309` let it pass. -/
theorem free_eq [Platform] (hP : ValidPage P) (hr : Rep P W.world A) (hk : A.HasCell P k)
    (hfree : W.held = unlocked) (hhigh : ¬k.word < 0x100000000) {w' : World}
    (hrun : freePtr (k.addr P) W.world = some ((), w')) :
    free (k.addr P) W = some ((), { W with world := w' }) := by
  obtain ⟨-, hm, hword⟩ := hr.header hP hk
  refine Prog.if_false_run (hr.addr_ne_zero hP hk) ?_
  refine Prog.bind_to (lift_of (load_to hm hword)) (Prog.if_false_run hhigh ?_)
  refine Prog.bind_to (lift_of (headerType_run hP hr hk)) (Prog.if_false_run (type_known k) ?_)
  exact freeSection_run hfree hrun

/-- **`free`** of any other cell does nothing (`malloc_bonus.c:303-306`). -/
theorem free_skip [Platform] (hP : ValidPage P) (hr : Rep P W.world A) (hk : A.HasCell P k)
    (hlow : k.word < 0x100000000) : free (k.addr P) W = some ((), W) := by
  obtain ⟨-, hm, hword⟩ := hr.header hP hk
  refine Prog.if_false_run (hr.addr_ne_zero hP hk) ?_
  exact Prog.bind_to (lift_of (load_to hm hword)) (Prog.if_true_run hlow rfl)

/-- **`free` (`malloc_bonus.c:293-315`) is `AHeap.bonusFree`**, and the payload of every cell stays
as it is. -/
theorem free_run [Platform]
    (hP : ValidPage P) (hr : Rep P W.world A) (hok : A.Ok P) (hk : A.Holds k)
    (hfree : W.held = unlocked) :
    let r := A.bonusFree P W.world.os k
    ∃ w', free (k.addr P) W = some ((), { W with world := w' }) ∧ w'.os = r.2 ∧ Rep P w' r.1 ∧
      Agrees W.world.mem w'.mem (A.Payload P) := by
  have hcell := hr.wf.hasCell hk
  unfold AHeap.bonusFree
  by_cases hlow : k.word < 0x100000000
  · rw [if_pos hlow]
    exact ⟨W.world, free_skip hP hr hcell hlow, rfl, hr, Agrees.refl _ _⟩
  · rw [if_neg hlow]
    obtain ⟨w', hrun, hrest⟩ := freePtr_run hP hr hok hk
    exact ⟨w', free_eq hP hr hcell hfree hlow hrun, hrest⟩

/-- The run of `realloc` up to the comparison of the sizes (`malloc_bonus.c:325-349`). -/
theorem realloc_measured [Platform] (hP : ValidPage P) (hr : Rep P W.world A) (hk : A.HasCell P k)
    (hs : s ≠ 0) {o : Option (Nat × BonusWorld)}
    (ho : (if s ≤ A.cap k then pure (k.addr P) else (do
        let new ← allocSection s
        if new = null then pure null
        else
          lift (ftMemcpy new (k.addr P) (A.cap k))
          freeSection k.type (k.addr P)
          pure new : B Nat)) W = o) : realloc (k.addr P) s W = o := by
  obtain ⟨-, hm, hword⟩ := hr.header hP hk
  refine Prog.if_false_run (hr.addr_ne_zero hP hk) (Prog.if_false_run hs ?_)
  refine Prog.bind_to (lift_of (load_to hm hword)) ?_
  refine Prog.bind_to (lift_of (headerType_run hP hr hk)) ?_
  exact Prog.bind_to (lift_of (currentSize_run hP hr hk)) ho

/-- **`realloc` is `AHeap.bonusRealloc`**, and for sizes that `malloc` accepts it does what it does
in `malloc.c`. -/
theorem realloc_run [Platform]
    (hP : ValidPage P) (hr : Rep P W.world A) (hok : A.Ok P) (hk : A.Holds k)
    (hfree : W.held = unlocked) (hs : s ≠ 0)
    (hwrap : 48 + s < 2 ^ 64 ∨ W.world.os.reply (wrap (48 + s)) = none) :
    let r := A.bonusRealloc P W.world.os k s
    ∃ w', realloc (k.addr P) s W = some (r.1, { W with world := w' }) ∧ w'.os = r.2.2 ∧
      Rep P w' r.2.1 ∧
      (s ≤ ptrdiffMax → FtMalloc.realloc (k.addr P) s W.world = some (r.1, w')) := by
  have hcell := hr.wf.hasCell hk
  have hi := hok.initialized_of_holds hk
  unfold AHeap.bonusRealloc
  rw [if_neg hs]
  by_cases hfit : s ≤ A.cap k
  · rw [if_pos hfit]
    exact ⟨W.world, realloc_measured hP hr hcell hs (Prog.if_true_run hfit rfl), rfl, hr,
      fun _ => FtMalloc.realloc_measured hP hr hcell (Prog.if_true_run hfit rfl)⟩
  · rw [if_neg hfit]
    obtain ⟨w₁, hrun₁, hos₁, hr₁, hag₁⟩ := allocBlock_run (s := s) hP hr hok hwrap
    have hv := AHeap.alloc_serves hP ⟨hok, hr.backed⟩ hi hwrap
    -- the mandatory allocator goes through `malloc`
    have hsame : s ≤ ptrdiffMax → FtMalloc.malloc s W.world = some _ := fun hle => by
      rw [malloc_initialized (by omega) (by rw [hr.flag, hi]; decide), ← allocBlock_eq hP hr hok]
      exact hrun₁
    generalize A.alloc P W.world.os s = r at *
    have hsection := allocSection_run hfree hrun₁
    by_cases hnull : r.1 = 0
    · rw [AHeap.replace, if_pos hnull]
      refine ⟨w₁, realloc_measured hP hr hcell hs (Prog.if_false_run hfit
          (Prog.bind_to hsection ?_)), hos₁, hr₁, fun hle => FtMalloc.realloc_measured hP hr hcell
          (Prog.if_false_run hfit (Prog.bind_to (hsame hle) ?_))⟩
      · rw [hnull]
        exact Prog.if_true_run rfl rfl
      · rw [hnull]
        exact Prog.if_true_run rfl rfl
    · obtain ⟨w₂, w₃, hcopy, hfreed, hos₃, hr₃, -⟩ :=
        replace_run hP hr hk hv hnull hfit hos₁ hr₁ hag₁
      have hq : (AHeap.replace P k r).1 = r.1 := by rw [AHeap.replace, if_neg hnull]
      simp only [hq]
      refine ⟨w₃, realloc_measured hP hr hcell hs (Prog.if_false_run hfit (Prog.bind_to hsection
          (Prog.if_false_run hnull ?_))), hos₃, hr₃, fun hle =>
        FtMalloc.realloc_measured hP hr hcell (Prog.if_false_run hfit (Prog.bind_to (hsame hle)
          (Prog.if_false_run hnull ?_)))⟩
      · have hlift := lift_of (w := { W with world := w₁ }) hcopy
        exact Prog.bind_to hlift (Prog.bind_to (freeSection_run hfree hfreed) rfl)
      · rw [if_neg (by omega : ¬s < A.cap k)]
        exact Prog.bind_to hcopy
          (Prog.bind_to (Prog.if_false_run (hr.addr_ne_zero hP hcell) hfreed) rfl)

end Bonus

end FtMalloc
