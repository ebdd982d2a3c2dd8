import FtMalloc.Refine.Slots

/-!
# Allocation (`malloc.c:125-224`)

Results, each at every outcome of the `mmap` calls it makes:
* `retireZone_writes`: a full zone moves to the full list and another zone is mapped.
* `findFreeBlock_writes`, `findFreeLargeBlock_writes`, `allocBlock_writes` and `malloc_writes`: the
  functions are `AHeap.allocZone`, `AHeap.allocLarge`, `AHeap.alloc` and `AHeap.malloc`. The first
  and the third hold over any scan that finds the first free slot (`Finds`).

What each does to memory is a function of the abstract heap: `takeSlotMem`, `allocZoneMem`,
`allocLargeMem`, `allocMem` and `mallocMem`.
-/

namespace FtMalloc

open Lib

/-! ## What allocation does to memory -/

namespace AHeap

/-- What taking slot `i` of the zone `z` does to memory: the three stores of `malloc.c:141-143`, and
for the last free slot (`malloc.c:147-161`) the move of the zone to the full list and a zone to take
its place. -/
def takeSlotMem (P : Nat) (A : AHeap) (os : Os) (c : Cls) (z i s : Nat) (m : Mem) : Mem :=
  let A₁ := A.setSlot z i (some s)
  let m₁ := takenMem m z i s (c.bitmapLen P)
  if A₁.freeCount z = 0 then
    (A₁.move z c.freeHead c.fullHead).createZoneMem P os c
      (A₁.moveMem z c.freeHead c.fullHead m₁)
  else m₁

/-- What `find_free_block` does to memory (`malloc.c:133-164`): a slot of the first free zone is
taken, and nothing is written when the free list is empty. -/
def allocZoneMem (P : Nat) (A : AHeap) (os : Os) (c : Cls) (s : Nat) (m : Mem) : Mem :=
  match A.lists c.freeHead with
  | [] => m
  | z :: _ =>
    match A.leastFree z with
    | none => m
    | some i => A.takeSlotMem P os c z i s m

/-- What `find_free_large_block` does to memory (`malloc.c:166-185`): a block that fits changes
lists; otherwise a new one is mapped, initialised and appended, and a refused `mmap` writes
nothing. -/
def allocLargeMem (P : Nat) (A : AHeap) (os : Os) (s : Nat) (m : Mem) : Mem :=
  match A.fit s with
  | some b => A.moveMem b .freeLargeBlocks .fullLargeBlocks m
  | none =>
    match os.reply (wrap (48 + s)) with
    | some b =>
      A.appendMem b .fullLargeBlocks (blockMem b s (grantMem P b (wrap (48 + s)) m))
    | none => m

/-- What `alloc_block` does to memory (`malloc.c:187-204`), by the class of the size. -/
def allocMem (P : Nat) (A : AHeap) (os : Os) (s : Nat) (m : Mem) : Mem :=
  match Cls.ofSize s with
  | some c => A.allocZoneMem P os c s m
  | none => A.allocLargeMem P os s m

/-- What `malloc` does to memory (`malloc.c:206-224`): the lazy setup first, and then the block, if
the setup succeeded. -/
def mallocMem (P : Nat) (A : AHeap) (os : Os) (s : Nat) (m : Mem) : Mem :=
  if s = 0 ∨ ptrdiffMax < s then m
  else
    let r := A.ready P os
    let m₁ := A.readyMem P os m
    if r.1 then r.2.1.allocMem P r.2.2 s m₁ else m₁

end AHeap

variable {P : Nat} {w : World} {m m' : Mem} {A : AHeap} {z s a b i j k n h p q : Nat} {c : Cls}

/-! ## From a zone -/

theorem calculateZoneBlockAddress_run (hP : ValidPage P) (hr : Rep P w A) (hz : A.HasZone c z)
    (i : Nat) : calculateZoneBlockAddress z i w = some (c.slotAddr P z i, w) := by
  have hzr := (hr.zone hz).1
  have hsize : (if c.code = tinyBlock then tinyBlockSize else smallBlockSize) = c.size := by
    cases c <;> rfl
  refine Prog.bind_to (load_to (zone_mapped hP hr hz (by decide)) hzr.memoryAt) ?_
  refine Prog.bind_to (Prog.bind_to (loadInt_to (zone_mapped hP hr hz (by decide)) hzr.type) rfl) ?_
  rw [hsize]
  rfl

/-- The branch of `find_free_block` for a zone of class `c` (`malloc.c:149-160`): the type stored in
the zone picks the two lists and the block size, and for a represented zone it is the class. -/
theorem retireZone_eq (hP : ValidPage P) (hr : Rep P w A) (hz : A.HasZone c z) :
    retireZone z w = (do
      detach c.freeHead.node c.freeHead z
      addBack c.fullHead.node c.fullHead z
      createZone c.size : C Int) w := by
  have htype := (hr.zone hz).1.type
  unfold retireZone
  refine Prog.bind_to (loadInt_to (zone_mapped hP hr hz (by decide)) htype) ?_
  cases c with
  | tiny => exact Prog.if_true_run rfl rfl
  | small => exact Prog.if_false_run (by decide) (Prog.if_true_run rfl rfl)

theorem retireZone_writes (hP : ValidPage P) (hr : Rep P w A) (hz : z ∈ A.lists c.freeHead) :
    let A' := A.move z c.freeHead c.fullHead
    let r := A'.createZone P w.os c
    Writes P w A (retireZone z) (if r.1 then 0 else 1) r.2 fun m =>
      A'.createZoneMem P w.os c (A.moveMem z c.freeHead c.fullHead m) := by
  obtain ⟨w₁, w₂, hdet, hadd, hos₂, hr₂, hag₂, hmem₂⟩ := hr.move_writes hP hz c.cls_full_free
  obtain ⟨w₃, hrun, hos₃, hr₃, hag₃, hmem₃⟩ := createZone_writes hP hr₂ c
  rw [hos₂] at hrun hos₃ hr₃ hmem₃
  rw [hmem₂] at hmem₃
  refine ⟨w₃, ?_, hos₃, hr₃, ?_, hmem₃⟩
  · rw [retireZone_eq hP hr (Or.inl hz)]
    exact Prog.bind_to hdet (Prog.bind_to hadd hrun)
  · have hg := hr.wf.grows_move hz c.cls_full_free c.cls_freeHead
    exact (hag₂.mono fun a ha => hr.payload_not_meta hP ha).trans
      (hag₃.mono fun a ha => hg.payload ha)

/-- The test of `find_free_block` for a full zone (`malloc.c:147-161`): the counter in memory is the
number of free slots. -/
theorem retireIfFull_eq (hP : ValidPage P) (hr : Rep P w A) (hz : A.HasZone c z) :
    retireIfFull z w = if A.freeCount z = 0 then retireZone z w else some (0, w) := by
  have hm : w.os.Mapped (z + ZoneT.freeCount) 4 := zone_mapped hP hr hz (by decide)
  refine Prog.bind_to (loadInt_to hm (hr.count_bounds hP hz).1) ?_
  by_cases h0 : A.freeCount z = 0
  · rw [if_pos h0]
    refine Prog.if_true_run ?_ rfl
    rw [h0]
    rfl
  · rw [if_neg h0]
    exact Prog.if_false_run (by omega) rfl

/-- The run of `find_free_block` up to that test (`malloc.c:134-146`): the index that the scan finds
is that of the first free slot, and the three stores of the slot lead to `takenMem`. -/
theorem findFreeBlock_taken {find : Nat → C Int} (hP : ValidPage P) (hf : Finds P find)
    (hr : Rep P w A) (hz : A.HasZone c z) (hi : A.leastFree z = some i) {o : Option (Nat × World)}
    (ho : (do
        let e ← retireIfFull z
        if e ≠ 0 then pure null else calculateZoneBlockAddress z i : C Nat)
      (w.setMem (takenMem w.mem z i s (c.bitmapLen P))) = o) :
    findFreeBlockWith find z s w = o := by
  have hat := (hr.zone hz).2
  have hcells : i < c.cells P := by
    rw [← hr.wf.cells hz]
    exact (AHeap.leastFree_slot hi).1
  have hbits := (hP.layout c).bits
  have hroom := (hP.layout c).room
  have hhd := (hP.layout c).header
  have hmsizes : w.os.Mapped (z + ZoneT.requestedSizes) 8 := zone_mapped hP hr hz (by decide)
  have hmcount : w.os.Mapped (z + ZoneT.freeCount) 4 := zone_mapped hP hr hz (by decide)
  refine Prog.if_false_run hat.ne_zero (Prog.bind_to (hf hr hz hi) ?_)
  refine Prog.if_false_run (by omega) ?_
  rw [Int.toNat_natCast]
  refine Prog.bind_to (updateBitmap_run hP hr hz hcells _) ?_
  refine Prog.bind_to (load_to (v := z + 72 + c.bitmapLen P) hmsizes ?_) ?_
  · rw [← (hr.zone hz).1.sizesAt]
    refine ld_put_apart (Or.inl ?_)
    simp only [ZoneT.requestedSizes]
    omega
  · refine Prog.bind_to (store_of (hat.mapped (by omega) (by omega))) ?_
    exact Prog.bind_to (addFreeCount_run hmcount) ho

/-- **A block of a zone** whose first free slot is `i`: the slot is taken, and the zone retired when
it was the last one. -/
theorem findFreeBlock_take {find : Nat → C Int} (hP : ValidPage P) (hf : Finds P find)
    (hr : Rep P w A) (hz : z ∈ A.lists c.freeHead) (hi : A.leastFree z = some i)
    (hs : s < 256 ^ 8) :
    let r := A.takeSlot P w.os c z i s
    Writes P w A (findFreeBlockWith find z s) r.1 r.2 (A.takeSlotMem P w.os c z i s) := by
  have hzone : A.HasZone c z := Or.inl hz
  have hslot := (AHeap.leastFree_slot hi).2
  obtain ⟨hr₁, hag₁⟩ := takenMem_rep (s := s) hP hr hzone hslot hs
  have hg₁ := AHeap.grows_take (P := P) (s := s) hslot
  have hfull := retireIfFull_eq hP hr₁ (c := c) (z := z) hzone
  unfold AHeap.takeSlot AHeap.takeSlotMem
  by_cases h0 : (A.setSlot z i (some s)).freeCount z = 0
  · obtain ⟨w₂, hret, hos₂, hr₂, hag₂, hmem₂⟩ := retireZone_writes (c := c) hP hr₁ hz
    have hstay : ((A.setSlot z i (some s)).move z c.freeHead c.fullHead).HasZone c z :=
      (hr₁.wf.hasZone_move hz c.cls_full_free).mpr hzone
    rw [if_pos h0] at hfull
    simp only [h0, if_true]
    refine ⟨w₂, findFreeBlock_taken hP hf hr hzone hi ?_, hos₂, hr₂,
      hag₁.trans (hag₂.mono fun a ha => hg₁.payload ha), hmem₂⟩
    refine Prog.bind_to (hfull.trans hret) ?_
    rw [World.setMem_os]
    by_cases hc : (((A.setSlot z i (some s)).move z c.freeHead c.fullHead).createZone P w.os c).1
    · simp only [hc, if_true]
      refine Prog.if_false_run (by decide) ?_
      refine calculateZoneBlockAddress_run hP hr₂ ?_ i
      unfold AHeap.createZone
      split
      · exact AHeap.hasZone_addZone.mpr (Or.inl hstay)
      · exact hstay
    · simp only [if_neg hc]
      exact Prog.if_true_run (by decide) rfl
  · rw [if_neg h0] at hfull
    simp only [h0, if_false]
    refine ⟨w.setMem (takenMem w.mem z i s (c.bitmapLen P)),
      findFreeBlock_taken hP hf hr hzone hi ?_, rfl, hr₁, hag₁, rfl⟩
    refine Prog.bind_to hfull (Prog.if_false_run (by decide) ?_)
    exact calculateZoneBlockAddress_run hP hr₁ hzone i

/-- **`find_free_block` (`malloc.c:133-164`) is `AHeap.allocZone`**: the first free slot of the
first free zone, and a refill when it was the last one. -/
theorem findFreeBlock_writes {find : Nat → C Int} (hP : ValidPage P) (hf : Finds P find)
    (hr : Rep P w A) (hok : A.Ok P) (hs : s < 256 ^ 8) :
    let r := A.allocZone P w.os c s
    Writes P w A (findFreeBlockWith find (w.heap.get c.freeHead) s) r.1 r.2
      (A.allocZoneMem P w.os c s) := by
  have hl := hr.lists c.freeHead
  unfold AHeap.allocZone AHeap.allocZoneMem
  cases hlist : A.lists c.freeHead with
  | nil =>
    have h0 := hl.head_eq_zero_iff.mpr hlist
    exact ⟨w, Prog.if_true_run h0 rfl, rfl, hr, Agrees.refl _ _, rfl⟩
  | cons z rest =>
    have hz : z ∈ A.lists c.freeHead := AHeap.first_mem hlist
    obtain ⟨i, hi, -⟩ := AHeap.exists_leastFree (hok.hasFree hz)
    rw [hlist] at hl
    rw [hl.head_cons]
    simp only [hi]
    exact findFreeBlock_take hP hf hr hz hi hs

/-! ## A large block -/

/-- The search (`malloc.c:167-176`) walks the list to the first block that is large enough, and
reads nothing after it. -/
theorem findFit_run {sz : Nat → Nat} : ∀ {xs : List Nat} {p h fuel : Nat},
    blockNode.Seg w.mem p h xs q 0 → xs.length ≤ fuel →
    (∀ x ∈ xs, w.os.Mapped x 48 ∧ ld w.mem 8 x = sz x) →
    findFit s fuel h w = some ((xs.find? fun x => decide (s ≤ sz x)).getD 0, w)
  | [], _, _, 0, hs, _, _ => Prog.if_true_run hs.2.symm rfl
  | [], _, _, _ + 1, hs, _, _ => Prog.if_true_run hs.2.symm rfl
  | x :: xs, _, h, fuel + 1, hs, hf, hm => by
    obtain ⟨rfl, h0, -, hr⟩ := hs
    obtain ⟨⟨r, hreg, h1, h2⟩, hsz⟩ := hm _ List.mem_cons_self
    have hmap : ∀ o, o + 8 ≤ 48 → w.os.Mapped (h + o) 8 := fun o ho =>
      ⟨r, hreg, by omega, by omega⟩
    refine Prog.if_false_run h0 (Prog.bind_to (load_to (hmap _ (by decide)) hsz) ?_)
    by_cases hfit : s ≤ sz h
    · rw [List.find?_cons_of_pos (by simpa using hfit)]
      exact Prog.if_true_run hfit rfl
    · rw [List.find?_cons_of_neg (by simpa using hfit)]
      refine Prog.if_false_run hfit (Prog.bind_to (load_of (hmap _ (by decide))) ?_)
      exact findFit_run hr (by simpa using hf) fun y hy => hm y (List.mem_cons_of_mem _ hy)

theorem findFit_list (hr : Rep P w A) :
    findFit s w.os.regions.length w.heap.freeLargeBlocks w = some ((A.fit s).getD 0, w) := by
  obtain ⟨q, hs⟩ := hr.lists .freeLargeBlocks
  refine findFit_run hs (hr.backed.length_le hr.wf) fun x hx => ?_
  obtain ⟨hb, hat⟩ := hr.block rfl hx
  exact ⟨hat.mapped (Nat.le_refl _) (by omega), hb.size⟩

/-- A block that was mapped and initialised joins the full list (`malloc.c:183`); from then on it is
part of the abstract heap. -/
theorem Rep.addBlock (hP : ValidPage P) (hr : Rep P w A) (hf : A.Fresh b)
    (hreg : ⟨b, 48 + s⟩ ∈ w.os.regions) (hb : BlockRep w.mem b s) :
    Writes P w A (blockAddBack .fullLargeBlocks b) () (A.addBlock b s, w.os)
      (A.appendMem b .fullLargeBlocks) := by
  let A₁ : AHeap := { A with size := Function.update A.size b s }
  have hsize : ∀ {y}, y ≠ b → A₁.size y = A.size y := fun hy => Function.update_of_ne hy _ _
  have hself : A₁.size b = s := Function.update_self _ _ _
  have hr₁ : Rep P w A₁ := by
    refine ⟨hr.page, hr.flag, ⟨hr.wf.nodup, hr.wf.once, hr.wf.cells⟩,
      ⟨hr.backed.system, fun {g y} hy => ?_⟩, hr.lists, fun g y hy => ?_⟩
    · have hreg := hr.backed.region hy
      unfold AHeap.len at hreg ⊢
      rwa [hsize (hf.ne_of_mem hy)]
    · have hn := hr.nodes g y hy
      unfold NodeRep at hn ⊢
      rwa [hsize (hf.ne_of_mem hy)]
  obtain ⟨w', hrun, hos, hr', hag, hmem⟩ := hr₁.append_writes (h := .fullLargeBlocks) hP hf
    (by rw [AHeap.len_of_large rfl, hself]; exact hreg)
    (by change BlockRep w.mem b (A₁.size b); rw [hself]; exact hb) fun c hc => by cases hc
  refine ⟨w', hrun, hos, hr', hag.mono fun a ha hm => ?_, hmem⟩
  have hg := AHeap.grows_addBlock (P := P) (s := s) hf
  exact hr'.payload_not_meta hP (hg.payload ha) hm

/-- **`find_free_large_block` (`malloc.c:166-185`) is `AHeap.allocLarge`**, unless the length passed
to `mmap` wraps and the kernel grants it: then the block's size would say more than is mapped. -/
theorem findFreeLargeBlock_writes [Platform] (hP : ValidPage P) (hr : Rep P w A)
    (hwrap : 48 + s < 2 ^ 64 ∨ w.os.reply (wrap (48 + s)) = none) :
    let r := A.allocLarge w.os s
    Writes P w A (findFreeLargeBlock s) r.1 r.2 (A.allocLargeMem P w.os s) := by
  unfold findFreeLargeBlock AHeap.allocLarge AHeap.allocLargeMem
  cases hfit : A.fit s with
  | some b =>
    obtain ⟨hb, -⟩ := AHeap.fit_some hfit
    obtain ⟨w₁, w₂, hdet, hadd, hos₂, hr₂, hag₂, hmem₂⟩ := hr.move_writes hP hb Head.cls_large
    have hfind := findFit_list (s := s) hr
    rw [hfit] at hfind
    refine ⟨w₂, ?_, hos₂, hr₂, hag₂.mono fun a ha => hr.payload_not_meta hP ha, hmem₂⟩
    refine Prog.bind_to rfl (Prog.bind_to hfind (Prog.if_true_run (hr.nodeAt hb).ne_zero ?_))
    exact Prog.bind_to hdet (Prog.bind_to hadd rfl)
  | none =>
    have hfind := findFit_list (s := s) hr
    rw [hfit] at hfind
    cases hreply : w.os.reply (wrap (48 + s)) with
    | none =>
      refine ⟨_, ?_, rfl, hr.refused hP, Agrees.refl _ _, rfl⟩
      refine Prog.bind_to rfl (Prog.bind_to hfind (Prog.if_false_run (fun h => h rfl) ?_))
      exact Prog.bind_to (createBlock_refused hreply) (Prog.if_true_run rfl rfl)
    | some b =>
      have hlt : 48 + s < 2 ^ 64 := by
        rcases hwrap with h | h
        · exact h
        · rw [hreply] at h
          cases h
      rw [wrap_of_lt hlt] at hreply ⊢
      have hf := hr.backed.fresh hreply
      obtain ⟨w₁, hnew, hos₁, -, hr₁, hb₁, hag₁, hmem₁⟩ := createBlock_granted hP hr hlt hreply
      have hreg : ⟨b, 48 + s⟩ ∈ w₁.os.regions := by
        rw [hos₁, Os.mmap_granted hreply]
        exact List.mem_cons_self
      obtain ⟨w₂, hadd, hos₂, hr₂, hag₂, hmem₂⟩ := hr₁.addBlock hP hf hreg hb₁
      have hb0 := (hr₁.backed.system.nodeAt hreg).ne_zero
      rw [hmem₁] at hmem₂
      refine ⟨w₂, ?_, hos₂.trans hos₁, hr₂, (hag₁.mono fun a ha => ha.inNode hP).trans hag₂,
        hmem₂⟩
      refine Prog.bind_to rfl (Prog.bind_to hfind (Prog.if_false_run (fun h => h rfl) ?_))
      exact Prog.bind_to hnew (Prog.if_false_run hb0 (Prog.bind_to hadd rfl))

/-! ## `alloc_block` and `malloc` -/

/-- **`alloc_block` (`malloc.c:187-204`) is `AHeap.alloc`**, with any scan of the bitmap that finds
the first free slot, so for either file. -/
theorem allocBlock_writes [Platform] {find : Nat → C Int} (hP : ValidPage P) (hf : Finds P find)
    (hr : Rep P w A) (hok : A.Ok P)
    (hwrap : 48 + s < 2 ^ 64 ∨ w.os.reply (wrap (48 + s)) = none) :
    let r := A.alloc P w.os s
    Writes P w A (allocBlockWith find s) r.1 r.2 (A.allocMem P w.os s) := by
  have h8 : 256 ^ 8 = 2 ^ 64 := by decide
  unfold Writes AHeap.alloc AHeap.allocMem Cls.ofSize allocBlockWith
  simp only [tinyBlockSize, smallBlockSize]
  rw [Prog.get_bind]
  by_cases h64 : s ≤ 64
  · rw [Prog.ite_run, if_pos h64, if_pos h64]
    exact findFreeBlock_writes (c := .tiny) hP hf hr hok (by omega)
  · rw [Prog.ite_run, if_neg h64, if_neg h64, Prog.ite_run]
    by_cases h1024 : s ≤ 1024
    · rw [if_pos h1024, if_pos h1024]
      exact findFreeBlock_writes (c := .small) hP hf hr hok (by omega)
    · rw [if_neg h1024, if_neg h1024]
      exact findFreeLargeBlock_writes hP hr hwrap

theorem allocBlock_run [Platform] {find : Nat → C Int} (hP : ValidPage P) (hf : Finds P find)
    (hr : Rep P w A) (hok : A.Ok P)
    (hwrap : 48 + s < 2 ^ 64 ∨ w.os.reply (wrap (48 + s)) = none) :
    let r := A.alloc P w.os s
    Refines P w A (allocBlockWith find s) r.1 r.2 :=
  (allocBlock_writes hP hf hr hok hwrap).refines

/-- An initialised heap goes straight to `alloc_block`: the lazy setup is behind the test of
`initialized` (`malloc.c:213`). -/
theorem malloc_initialized [Platform]
    (h : ¬(s = 0 ∨ s > ptrdiffMax)) (hi : w.heap.initialized ≠ 0) :
    malloc s w = allocBlock s w := by
  have hready : ensureSetup w = some (0, w) := Prog.bind_to rfl (Prog.if_false_run hi rfl)
  exact Prog.if_false_run h (Prog.bind_to hready (Prog.if_false_run (by decide) rfl))

/-- **`malloc` (`malloc.c:206-224`) is `AHeap.malloc`**, for every size: the two tests refuse what
they refuse before the heap is set up. -/
theorem malloc_writes [Platform] (hP : ValidPage P) (hr : Rep P w A) (hok : A.Ok P) :
    let r := A.malloc P w.os s
    Writes P w A (malloc s) r.1 r.2 (A.mallocMem P w.os s) := by
  unfold AHeap.malloc AHeap.mallocMem malloc
  rw [Writes, Prog.ite_run]
  by_cases h : s = 0 ∨ ptrdiffMax < s
  · simp only [if_pos h]
    exact ⟨w, rfl, rfl, hr, Agrees.refl _ _, rfl⟩
  · simp only [if_neg h]
    obtain ⟨w₁, hrun₁, hos₁, hr₁, hag₁, hmem₁⟩ := ensureSetup_writes hP hr
    obtain ⟨hs₁, hg₁⟩ := AHeap.ready_sound hP ⟨hok, hr.backed⟩
    by_cases hready : (A.ready P w.os).1 = true
    · have hlt : 48 + s < 2 ^ 64 := length_lt_of_le_ptrdiffMax (by omega)
      obtain ⟨w₂, hrun₂, hos₂, hr₂, hag₂, hmem₂⟩ :=
        allocBlock_writes (s := s) hP (findSetBit_run hP) hr₁ hs₁.ok (Or.inl hlt)
      rw [hos₁] at hrun₂ hos₂ hr₂ hmem₂
      rw [hmem₁] at hmem₂
      rw [if_pos hready] at hrun₁
      simp only [hready, if_true]
      refine ⟨w₂, ?_, hos₂, hr₂, hag₁.trans (hag₂.mono fun a ha => hg₁.payload ha), hmem₂⟩
      exact Prog.bind_to hrun₁ (Prog.if_false_run (by decide) hrun₂)
    · rw [if_neg hready] at hrun₁
      simp only [if_neg hready]
      exact ⟨w₁, Prog.bind_to hrun₁ (Prog.if_true_run (by decide) rfl), hos₁, hr₁, hag₁, hmem₁⟩

theorem malloc_run [Platform] (hP : ValidPage P) (hr : Rep P w A) (hok : A.Ok P) :
    let r := A.malloc P w.os s
    Refines P w A (malloc s) r.1 r.2 :=
  (malloc_writes hP hr hok).refines

end FtMalloc
