import FtMalloc.Refine.Bonus
import FtMalloc.Refine.Footprint

/-!
# Tasks of different classes in memory (`bonus/src/malloc_bonus.c:146-291`)

`AHeap.serveMem` is what a task does to memory.

* `serve_writes`: the code of a task is the abstract task, and changes memory by `serveMem`.
* `serveMem_same`: that change depends on the nodes of the task's class alone.
* `serveMem_comm`: **the changes of tasks of different classes commute**, when the regions they map
  are apart.
-/

namespace FtMalloc

open Lib

/-- What a task does to memory, as a function of memory alone. -/
def AHeap.serveMem (P : Nat) (A : AHeap) (os : Os) : Task → Mem → Mem
  | .alloc s => A.allocMem P os s
  | .free k => A.freeMem P k

/-- The function of the bonus allocator that a task runs between `lock_list` and `unlock_list`:
`alloc_block` (`malloc_bonus.c:202-219`) or `free_ptr` (`malloc_bonus.c:247-291`). -/
def Task.code [Platform] (P : Nat) : Task → C Nat
  | .alloc s => Bonus.allocBlock s
  | .free k => do
    freePtr (k.addr P)
    pure null

variable {P : Nat} {A A' : AHeap} {os os' os₁ os₂ : Os} {w : World} {m : Mem} {h h' : Head}
  {x z i s b a : Nat} {c : Cls} {t t₁ t₂ : Task}

/-! ## The code of a task -/

/-- **The code of a task is the abstract task**, and what it does to memory is `serveMem`. -/
theorem serve_writes [Platform]
    (hP : ValidPage P) (hr : Rep P w A) (hok : A.Ok P) (ht : A.Admits w.os t) :
    Writes P w A (t.code P) (A.serve P w.os t).1 (A.serve P w.os t).2
      (A.serveMem P w.os t) := by
  cases t with
  | alloc s => exact allocBlock_writes hP (Bonus.findSetBit_run hP) hr hok ht.2
  | free k =>
    obtain ⟨w', hrun, hrest⟩ := freePtr_writes hP hr hok ht
    exact ⟨w', Prog.bind_to hrun rfl, hrest⟩

theorem serve_sound (hP : ValidPage P) (hs : A.Sound P os) (ht : A.Admits os t) :
    (A.serve P os t).2.1.Sound P (A.serve P os t).2.2 := by
  cases t with
  | alloc s => exact (AHeap.alloc_serves hP hs ht.1 ht.2).sound
  | free k => exact (AHeap.free_releases hP hs ht).sound

theorem serve_initialized :
    (A.serve P os t).2.1.initialized = A.initialized := by
  cases t with
  | alloc s => exact AHeap.alloc_initialized
  | free k => exact AHeap.free_initialized

/-! ## Memory on heaps that are the same on a class -/

namespace AHeap

theorem SameOn.detachMem (hs : SameOn h.cls A A') : A'.detachMem x h = A.detachMem x h := by
  unfold AHeap.detachMem
  rw [hs.lists rfl]

theorem SameOn.appendMem (hs : SameOn h.cls A A') : A'.appendMem x h = A.appendMem x h := by
  unfold AHeap.appendMem
  rw [hs.lists rfl]

theorem SameOn.moveMem (hs : SameOn h.cls A A') (hc : h'.cls = h.cls) :
    A'.moveMem x h h' = A.moveMem x h h' := by
  have hdet : SameOn h'.cls (A.detach x h) (A'.detach x h) := by
    rw [hc]
    exact hs.detach
  funext m
  unfold AHeap.moveMem
  rw [hs.detachMem, hdet.appendMem]

theorem SameOn.createZoneMem (hs : SameOn (some c) A A')
    (hr : os'.reply (c.total P) = os.reply (c.total P)) :
    A'.createZoneMem P os' c = A.createZoneMem P os c := by
  have happ : ∀ {b}, A'.appendMem b c.freeHead = A.appendMem b c.freeHead := fun {b} =>
    SameOn.appendMem (by rwa [c.cls_freeHead])
  unfold AHeap.createZoneMem
  simp only [hr, happ]

theorem SameOn.takeSlotMem (hs : SameOn (some c) A A') (hz : z ∈ A.lists c.freeHead)
    (hr : os'.reply (c.total P) = os.reply (c.total P)) :
    A'.takeSlotMem P os' c z i s = A.takeSlotMem P os c z i s := by
  have hset : SameOn (some c) (A.setSlot z i (some s)) (A'.setSlot z i (some s)) :=
    hs.setSlot (hs.slots rfl (Or.inl hz))
  have hmove := hset.move hz c.cls_freeHead c.cls_full_free
  rw [← c.cls_freeHead] at hset
  funext m
  simp only [AHeap.takeSlotMem, hset.freeCount c.cls_freeHead (Or.inl hz),
    hset.moveMem c.cls_full_free, hmove.createZoneMem hr]

theorem SameOn.allocZoneMem (hs : SameOn (some c) A A')
    (hr : os'.reply (c.total P) = os.reply (c.total P)) :
    A'.allocZoneMem P os' c s = A.allocZoneMem P os c s := by
  funext m
  unfold AHeap.allocZoneMem
  rw [hs.lists c.cls_freeHead]
  cases hl : A.lists c.freeHead with
  | nil => rfl
  | cons z rest =>
    have hz : z ∈ A.lists c.freeHead := AHeap.first_mem hl
    simp only [hs.leastFree rfl (Or.inl hz), hs.takeSlotMem hz hr]

theorem SameOn.allocLargeMem (hs : SameOn none A A')
    (hr : os'.reply (wrap (48 + s)) = os.reply (wrap (48 + s))) :
    A'.allocLargeMem P os' s = A.allocLargeMem P os s := by
  have hmove : ∀ {b}, A'.moveMem b .freeLargeBlocks .fullLargeBlocks =
      A.moveMem b .freeLargeBlocks .fullLargeBlocks := SameOn.moveMem hs rfl
  have happ : ∀ {b}, A'.appendMem b .fullLargeBlocks = A.appendMem b .fullLargeBlocks :=
    SameOn.appendMem hs
  funext m
  simp only [AHeap.allocLargeMem, hs.fit, hr, hmove, happ]

theorem SameOn.freeSlotMem (hs : SameOn (some c) A A') (hz : A.HasZone c z) :
    A'.freeSlotMem P c z i = A.freeSlotMem P c z i := by
  have hset : SameOn (some c) (A.setSlot z i none) (A'.setSlot z i none) :=
    hs.setSlot (hs.slots rfl hz)
  have hdet : (A'.setSlot z i none).detachMem z c.freeHead =
      (A.setSlot z i none).detachMem z c.freeHead := SameOn.detachMem (by rwa [c.cls_freeHead])
  have hmove : (A'.setSlot z i none).moveMem z c.fullHead c.freeHead =
      (A.setSlot z i none).moveMem z c.fullHead c.freeHead :=
    SameOn.moveMem (by rwa [c.cls_fullHead]) c.cls_full_free.symm
  funext m
  simp only [AHeap.freeSlotMem, hset.freeCount rfl hz, hs.lists c.cls_freeHead, hdet, hmove]

theorem SameOn.freeLargeMem (hs : SameOn none A A') (hb : b ∈ A.lists .fullLargeBlocks) :
    A'.freeLargeMem b = A.freeLargeMem b := by
  have hdet : A'.detachMem b .fullLargeBlocks = A.detachMem b .fullLargeBlocks :=
    SameOn.detachMem hs
  have happ : (A'.detach b .fullLargeBlocks).appendMem b .freeLargeBlocks =
      (A.detach b .fullLargeBlocks).appendMem b .freeLargeBlocks := SameOn.appendMem hs.detach
  funext m
  simp only [AHeap.freeLargeMem, hdet, happ, hs.size (h := .fullLargeBlocks) rfl rfl hb]

/-- **What a task does to memory** depends on the nodes of its class and on the kernel's reply to
its own `mmap`, and on nothing else of the heap. -/
theorem serveMem_same (ht : A.Admits os t) (hs : SameOn t.cls A A')
    (hr : os'.reply (t.length P) = os.reply (t.length P)) :
    A'.serveMem P os' t = A.serveMem P os t := by
  cases t with
  | alloc s =>
    funext m
    simp only [serveMem, allocMem, Task.cls, Task.length] at *
    cases hc : Cls.ofSize s with
    | some c =>
      simp only [hc] at hs hr
      simp only [hs.allocZoneMem hr]
    | none =>
      simp only [hc] at hs hr
      simp only [hs.allocLargeMem hr]
  | free cell =>
    cases cell with
    | slot c z i => exact hs.freeSlotMem ht.1
    | block b => exact hs.freeLargeMem ht

end AHeap

/-! ## Memory under tasks of different classes -/

theorem serve_footprint (hP : ValidPage P) (hs : A.Sound P os) (ht : A.Admits os t) :
    Footprint P (· = t.cls) A (A.serve P os t).2.1 (os.FreshByte P (t.length P))
      (A.serveMem P os t) := by
  cases t with
  | alloc s => exact alloc_footprint hP rfl hs.ok.toWf ht.2
  | free k => exact free_footprint hP rfl hs.ok ht

/-- Bytes of different classes are different: a byte is one node's at most. -/
theorem ownOf_apart (hP : ValidPage P) (hs : A.Sound P os) (hne : t₁.cls ≠ t₂.cls)
    (h₁ : A.OwnOf P (· = t₁.cls) a) (h₂ : A.OwnOf P (· = t₂.cls) a) : False := by
  obtain ⟨g, x, hg, hx, ho⟩ := h₁
  obtain ⟨g', y, hg', hy, ho'⟩ := h₂
  obtain rfl := hs.backed.own_unique hP hx hy ho ho'
  obtain rfl := hs.ok.once hx hy
  exact hne (hg.symm.trans hg')

/-- A byte of a new region is nobody's, because the kernel grants fresh regions only. -/
theorem ownOf_not_fresh {n : Nat} {K : Option Cls → Prop} (hP : ValidPage P) (hb : A.Backed P os)
    (hp : os.pageSize = P) (ho : A.OwnOf P K a) : ¬os.FreshByte P n a := by
  rintro ⟨b, hr, h1, h2⟩
  obtain ⟨h, x, -, hx, ho⟩ := ho
  have hout := hb.outside hr (AHeap.Meta.inNode hP ⟨h, x, hx, ho⟩)
  simp only [Os.limit, hp] at hout
  omega

/-- **The changes of two tasks of different classes commute.** Either one reads and writes bytes of
its own class, or of the region it was granted, and the regions of the two are apart. -/
theorem serveMem_comm (hP : ValidPage P) (hs₁ : A.Sound P os₁) (hs₂ : A.Sound P os₂)
    (hp₁ : os₁.pageSize = P) (hp₂ : os₂.pageSize = P) (ht₁ : A.Admits os₁ t₁)
    (ht₂ : A.Admits os₂ t₂) (hne : t₁.cls ≠ t₂.cls)
    (hap : ∀ a, os₁.FreshByte P (t₁.length P) a → ¬os₂.FreshByte P (t₂.length P) a) (m : Mem) :
    A.serveMem P os₂ t₂ (A.serveMem P os₁ t₁ m) = A.serveMem P os₁ t₁ (A.serveMem P os₂ t₂ m) := by
  obtain ⟨G₁, hc₁, -, hG₁⟩ := serve_footprint hP hs₁ ht₁
  obtain ⟨G₂, hc₂, -, hG₂⟩ := serve_footprint hP hs₂ ht₂
  refine hc₁.comm hc₂ (fun a h₁ h₂ => ?_) m
  rcases h₁ with h₁ | h₁
  · rcases h₂ with h₂ | h₂
    · exact ownOf_apart hP hs₁ hne h₁ h₂
    · exact ownOf_not_fresh hP hs₂.backed hp₂ h₁ (hG₂ a h₂)
  · rcases h₂ with h₂ | h₂
    · exact ownOf_not_fresh hP hs₁.backed hp₁ h₂ (hG₁ a h₁)
    · exact hap a (hG₁ a h₁) (hG₂ a h₂)

end FtMalloc
