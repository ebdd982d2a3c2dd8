import FtMalloc.Refine.Free

/-!
# Resizing (`malloc.c:276-311`)

* `ftMemcpy_run`: the copy loop is `copyUp`.
* `currentSize_run`: what `realloc` compares a request with is the room of the cell.
* `replace_run`: copying to a new cell and releasing the old one.
* `realloc_run`: `realloc` of a held cell's pointer is `AHeap.realloc`. Every held block keeps
  its bytes, and the block that is returned starts with those of the old one.

`replaceMem` and `reallocMem` are what it does to memory.
-/

namespace FtMalloc

open Lib

namespace AHeap

/-- What the end of `realloc` does to memory, after the allocation `r`: the bytes are copied and the
old cell is released, unless the allocation failed. -/
def replaceMem (P : Nat) (A : AHeap) (k : Cell) (r : Nat × AHeap × Os) (m : Mem) : Mem :=
  if r.1 = 0 then m else r.2.1.freeMem P k (copyUp m r.1 (k.addr P) (A.cap k))

/-- What `realloc` of a cell's pointer does to memory (`malloc.c:276-311`): nothing when the size
fits. -/
def reallocMem (P : Nat) (A : AHeap) (os : Os) (k : Cell) (s : Nat) (m : Mem) : Mem :=
  if s ≤ A.cap k then m
  else A.replaceMem P k (A.malloc P os s) (A.mallocMem P os s m)

end AHeap

variable {P : Nat} {w : World} {m m' : Mem} {A : AHeap} {d s a n : Nat} {k k' : Cell}

theorem copyUp_put (m : Mem) (d s i : Nat) :
    put (copyUp m d s i) (d + i) (copyUp m d s i (s + i)) = copyUp m d s (i + 1) := by
  funext x
  rw [copyUp_succ]
  rfl

theorem ftMemcpy_run (hd : d ≠ 0) (hsrc : ∀ i, i < n → w.os.Mapped (s + i) 1)
    (hdst : ∀ i, i < n → w.os.Mapped (d + i) 1) :
    ftMemcpy d s n w = some ((), w.setMem (copyUp w.mem d s n)) := by
  -- after `i` rounds the first `i` bytes are copied
  let I : Nat → World → Prop := fun i t => t = w.setMem (copyUp w.mem d s i)
  have hstart : I 0 w := rfl
  have hstep : ∀ i t, 0 ≤ i → i < 0 + n → I i t → ∃ t',
      (do let b ← loadByte (s + i); storeByte (d + i) b : C Unit) t = some ((), t') ∧
        I (i + 1) t' := by
    intro i t _ hi ht
    obtain rfl : t = w.setMem (copyUp w.mem d s i) := ht
    refine ⟨_, Prog.bind_to (loadByte_of (hsrc i (by omega)))
      (storeByte_of (hdst i (by omega))), ?_⟩
    exact congrArg w.setMem (copyUp_put w.mem d s i)
  obtain ⟨t, hrun, ht⟩ := Prog.forUp_run hstart hstep
  obtain rfl : t = w.setMem (copyUp w.mem d s (0 + n)) := ht
  rw [Nat.zero_add] at hrun
  exact Prog.if_false_run hd hrun

/-- **`realloc`'s current size** (`malloc.c:285-293`) is the room of the cell, not what was
requested. -/
theorem currentSize_run (hP : ValidPage P) (hr : Rep P w A) (hk : A.HasCell P k) :
    currentSize k.word w = some (A.cap k, w) := by
  cases k with
  | slot c z i =>
    obtain ⟨hflag, hzone, -⟩ := hr.slot_decodes hP hk
    have hsize : (if c.code = tinyBlock then tinyBlockSize else smallBlockSize) = c.size := by
      cases c <;> rfl
    refine Prog.if_true_run hflag ?_
    rw [hzone]
    refine Prog.bind_to (loadInt_to (zone_mapped hP hr hk.1 (by decide)) (hr.zone hk.1).1.type) ?_
    rw [hsize]
    rfl
  | block b =>
    have hflag : ¬metaIsZone (Cell.block b).word = true := by
      rw [hr.block_decodes hk]
      exact Bool.false_ne_true
    obtain ⟨h, hc, hb⟩ := hk
    obtain ⟨hbr, hat⟩ := hr.block hc hb
    have hm : w.os.Mapped (b + BlockT.size) 8 :=
      hat.mapped (by omega) (by simp only [BlockT.size]; omega)
    exact Prog.if_false_run hflag (load_to hm hbr.size)

/-- A byte of some held cell's payload, which a client may have written. -/
def AHeap.HeldByte (P : Nat) (A : AHeap) (a : Nat) : Prop :=
  ∃ k, A.Holds k ∧ k.addr P ≤ a ∧ a < k.addr P + A.cap k

theorem AHeap.HeldByte.payload (hw : A.Wf P) (ha : A.HeldByte P a) : A.Payload P a := by
  obtain ⟨k, hk, hb⟩ := ha
  exact ⟨k, hw.hasCell hk, hb⟩

/-- The payload of a cell is mapped, byte by byte. -/
theorem Rep.payload_mapped (hP : ValidPage P) (hr : Rep P w A) (hk : A.HasCell P k) {i : Nat}
    (hi : i < A.cap k) : w.os.Mapped (k.addr P + i) 1 := by
  obtain ⟨h, hm, h1, h2⟩ := hk.node hP
  exact (hr.nodeAt hm).mapped (by omega) (by omega)

/-- **Writing payload** leaves the heap as it is: what the allocator keeps for itself lies
elsewhere. -/
theorem Rep.write_payload (hP : ValidPage P) (hr : Rep P w A)
    (he : Agrees w.mem m' fun a => ¬A.Payload P a) : Rep P (w.setMem m') A :=
  hr.frame hP (he.mono fun _ hm hp => hr.payload_not_meta hP hp hm)

/-- Copying between the payload of two cells (`malloc.c:306`), which do not overlap. -/
theorem copy_run (hP : ValidPage P) (hr : Rep P w A) (hk : A.HasCell P k) (hk' : A.HasCell P k')
    (hne : k' ≠ k) (hn : n ≤ A.cap k) (hn' : n ≤ A.cap k') :
    let m' := copyUp w.mem (k'.addr P) (k.addr P) n
    ftMemcpy (k'.addr P) (k.addr P) n w = some ((), w.setMem m') ∧ Rep P (w.setMem m') A ∧
      (∀ j, j < n → m' (k'.addr P + j) = w.mem (k.addr P + j)) ∧
      Agrees w.mem m' fun a => a < k'.addr P ∨ k'.addr P + A.cap k' ≤ a := by
  have hap := hr.backed.cells_apart hP hr.wf hk' hk hne
  have hag : Agrees w.mem (copyUp w.mem (k'.addr P) (k.addr P) n)
      fun a => a < k'.addr P ∨ k'.addr P + A.cap k' ≤ a := fun a ha => copyUp_out (by omega)
  refine ⟨ftMemcpy_run (hr.addr_ne_zero hP hk')
    (fun i hi => hr.payload_mapped hP hk (by omega))
    (fun i hi => hr.payload_mapped hP hk' (by omega)), hr.write_payload hP (hag.mono ?_), ?_, hag⟩
  · intro a ha
    by_contra hin
    exact ha ⟨k', hk', by omega, by omega⟩
  · exact fun j hj => copyUp_in (by omega) hj

/-- **The end of `realloc`**: the bytes of the old cell are copied to the new one, and the old one
is released. -/
theorem replace_run [Platform]
    (hP : ValidPage P) (hr : Rep P w A) (hk : A.Holds k) {r : Nat × AHeap × Os}
    (hv : AHeap.Serves P A s r) (h0 : r.1 ≠ 0) (hfit : ¬s ≤ A.cap k) {w₁ : World}
    (hos₁ : w₁.os = r.2.2) (hr₁ : Rep P w₁ r.2.1) (hag₁ : Agrees w.mem w₁.mem (A.Payload P)) :
    ∃ w₂ w₃, ftMemcpy r.1 (k.addr P) (A.cap k) w₁ = some ((), w₂) ∧
      freePtr (k.addr P) w₂ = some ((), w₃) ∧ w₃.os = (AHeap.replace P k r).2.2 ∧
      Rep P w₃ (AHeap.replace P k r).2.1 ∧ Agrees w.mem w₃.mem (A.HeldByte P) ∧
      w₃.mem = A.replaceMem P k r w₁.mem ∧
      ∀ j, j < A.cap k → w₃.mem (r.1 + j) = w.mem (k.addr P + j) := by
  obtain ⟨hs₁, hg₁, hres⟩ := hv
  obtain ⟨k', haddr, hnew, hheld, hsize⟩ := hres.resolve_left h0
  have hcell := hr.wf.hasCell hk
  have hne : k' ≠ k := fun e => hnew (e ▸ hk)
  have hcell' := hr₁.wf.hasCell hheld
  have hcap := hg₁.cap hcell
  obtain ⟨hcopy, hr₂, hbytes, hag₂⟩ := copy_run (n := A.cap k) hP hr₁ (hg₁.cell hcell) hcell' hne
    (by omega) (by omega)
  obtain ⟨w₃, hrun₃, hos₃, hr₃, hag₃, hmem₃⟩ := freePtr_writes hP hr₂ hs₁.ok (hg₁.held hk)
  rw [haddr] at hcopy hbytes hag₂ hrun₃ hos₃ hr₃ hag₃ hmem₃
  rw [World.setMem_os, hos₁] at hos₃ hr₃
  unfold AHeap.replace AHeap.replaceMem
  simp only [if_neg h0]
  refine ⟨_, w₃, hcopy, hrun₃, hos₃, hr₃, ?_, hmem₃, fun j hj => ?_⟩
  · refine Agrees.trans (hag₁.mono fun a ha => ha.payload hr.wf) (Agrees.trans
      (hag₂.mono fun a ha => ?_) (hag₃.mono fun a ha => hg₁.payload (ha.payload hr.wf)))
    obtain ⟨j, hj, h1, h2⟩ := ha
    have hjne : j ≠ k' := fun e => hnew (e ▸ hj)
    have hap := hr₁.backed.cells_apart hP hr₁.wf (hg₁.cell (hr.wf.hasCell hj)) hcell' hjne
    rw [hg₁.cap (hr.wf.hasCell hj), haddr] at hap
    omega
  · have hpay : r.2.1.Payload P (r.1 + j) := ⟨k', hcell', by omega, by omega⟩
    rw [hag₃ _ hpay]
    exact (hbytes j hj).trans (hag₁ _ ⟨k, hcell, by omega, by omega⟩)

/-- The run of `realloc` up to the comparison of the sizes (`malloc.c:283-298`): in place, or on to
`malloc`. -/
theorem realloc_measured [Platform] (hP : ValidPage P) (hr : Rep P w A) (hk : A.HasCell P k)
    {o : Option (Nat × World)}
    (ho : (if s ≤ A.cap k then pure (k.addr P) else (do
        let new ← malloc s
        if new = null then pure null
        else
          ftMemcpy new (k.addr P) (if s < A.cap k then s else A.cap k)
          free (k.addr P)
          pure new : C Nat)) w = o) : realloc (k.addr P) s w = o := by
  obtain ⟨-, hm, hword⟩ := hr.header hP hk
  refine Prog.if_false_run (hr.addr_ne_zero hP hk) (Prog.bind_to (load_to hm hword) ?_)
  exact Prog.bind_to (currentSize_run hP hr hk) ho

/-- **`realloc` (`malloc.c:276-311`) is `AHeap.realloc`**, and it keeps the bytes: those of the
block itself, at its old or new place, and those of every other held block. -/
theorem realloc_writes [Platform]
    (hP : ValidPage P) (hr : Rep P w A) (hok : A.Ok P) (hk : A.Holds k) :
    let r := A.realloc P w.os k s
    ∃ w', realloc (k.addr P) s w = some (r.1, w') ∧ w'.os = r.2.2 ∧ Rep P w' r.2.1 ∧
      Agrees w.mem w'.mem (A.HeldByte P) ∧ w'.mem = A.reallocMem P w.os k s w.mem ∧
      (r.1 ≠ 0 → ∀ j, j < min (A.cap k) s → w'.mem (r.1 + j) = w.mem (k.addr P + j)) := by
  have hcell := hr.wf.hasCell hk
  have h0 := hr.addr_ne_zero hP hcell
  unfold AHeap.realloc AHeap.reallocMem
  by_cases hfit : s ≤ A.cap k
  · simp only [if_pos hfit]
    exact ⟨w, realloc_measured hP hr hcell (Prog.if_true_run hfit rfl), rfl, hr, Agrees.refl _ _,
      rfl, fun _ _ _ => rfl⟩
  · simp only [if_neg hfit]
    obtain ⟨w₁, hrun₁, hos₁, hr₁, hag₁, hmem₁⟩ := malloc_writes (s := s) hP hr hok
    have hv := AHeap.malloc_serves (s := s) hP ⟨hok, hr.backed⟩
    rw [← hmem₁]
    generalize A.malloc P w.os s = r at *
    by_cases hnull : r.1 = 0
    · simp only [AHeap.replace, AHeap.replaceMem, if_pos hnull]
      refine ⟨w₁, realloc_measured hP hr hcell (Prog.if_false_run hfit (Prog.bind_to hrun₁ ?_)),
        hos₁, hr₁, hag₁.mono fun a ha => ha.payload hr.wf, rfl, fun h => absurd hnull h⟩
      rw [hnull]
      exact Prog.if_true_run rfl rfl
    · obtain ⟨w₂, w₃, hcopy, hfree, hos₃, hr₃, hag₃, hmem₃, hbytes⟩ :=
        replace_run hP hr hk hv hnull hfit hos₁ hr₁ hag₁
      have hq : (AHeap.replace P k r).1 = r.1 := by rw [AHeap.replace, if_neg hnull]
      simp only [hq]
      refine ⟨w₃, realloc_measured hP hr hcell (Prog.if_false_run hfit (Prog.bind_to hrun₁
        (Prog.if_false_run hnull ?_))), hos₃, hr₃, hag₃, hmem₃,
        fun _ j hj => hbytes j (by omega)⟩
      rw [if_neg (by omega : ¬s < A.cap k)]
      exact Prog.bind_to hcopy (Prog.bind_to (Prog.if_false_run h0 hfree) rfl)

theorem realloc_run [Platform] (hP : ValidPage P) (hr : Rep P w A) (hok : A.Ok P) (hk : A.Holds k) :
    let r := A.realloc P w.os k s
    ∃ w', realloc (k.addr P) s w = some (r.1, w') ∧ w'.os = r.2.2 ∧ Rep P w' r.2.1 ∧
      Agrees w.mem w'.mem (A.HeldByte P) ∧
      (r.1 ≠ 0 → ∀ j, j < min (A.cap k) s → w'.mem (r.1 + j) = w.mem (k.addr P + j)) := by
  obtain ⟨w', hrun, hos, hr', hag, -, hbytes⟩ := realloc_writes (s := s) hP hr hok hk
  exact ⟨w', hrun, hos, hr', hag, hbytes⟩

end FtMalloc
