import FtMalloc.Abstract.Calls
import Mathlib.Data.List.Find

/-!
# Operations of different classes (`bonus/src/mutex_bonus.c`)

The zones of a class, and the large blocks, are in two lists of their own. What runs under the
mutex of a class is a `Task`: an allocation or a release. `SameOn k A A'` says that two heaps have
the same nodes of the class `k`, in the same state; `Os.Likewise` that two systems got the same
system call, or none.

* `serve_other`: a task leaves the nodes of the other classes alone.
* `serve_mirrors`: on heaps that are the same on its class a task returns the same, makes the same
  system call and leaves heaps that are the same on its class.
-/

namespace FtMalloc

/-- The class of a cell, `none` for a large block. -/
def Cell.cls : Cell → Option Cls
  | slot c _ _ => some c
  | block _ => none

/-- What runs under the mutex of a class: `alloc_block` for a size, or `free_ptr` of a cell. -/
inductive Task
  | alloc (s : Nat)
  | free (k : Cell)

/-- The class whose nodes a task works on, which is that of the mutex it runs under. -/
def Task.cls : Task → Option Cls
  | alloc s => Cls.ofSize s
  | free k => k.cls

/-- The length of the mapping a task asks for, if it does. -/
def Task.length (P : Nat) : Task → Nat
  | alloc s =>
    match Cls.ofSize s with
    | some c => c.total P
    | none => wrap (48 + s)
  | free _ => 0

/-- No system call, a mapping of `n` bytes with the same outcome in both states, or the same region
unmapped in both. -/
inductive Os.Likewise (n : Nat) (os os' : Os) : Os → Os → Prop
  | none : Likewise n os os' os os'
  | mmap : os'.reply n = os.reply n → Likewise n os os' (os.mmap n) (os'.mmap n)
  | munmap {r : Region} : r ∈ os.regions → Likewise n os os' (os.munmap r) (os'.munmap r)

namespace AHeap

/-- A task as an operation of the heap, with NULL for the result of a release. -/
def serve (P : Nat) (A : AHeap) (os : Os) : Task → Nat × AHeap × Os
  | .alloc s => A.alloc P os s
  | .free k => (0, A.free P os k)

/-- A task that may run: the heap is initialised and the length of the mapping does not wrap, or
the cell is held. -/
def Admits (A : AHeap) (os : Os) : Task → Prop
  | .alloc s => A.initialized = true ∧
      (48 + s < 2 ^ 64 ∨ os.reply (wrap (48 + s)) = none)
  | .free k => A.Holds k

/-- The same nodes of the class `k`, in the same state, whatever the other classes are like. -/
structure SameOn (k : Option Cls) (A A' : AHeap) : Prop where
  lists : ∀ {h : Head}, h.cls = k → A'.lists h = A.lists h
  slots : ∀ {c z}, k = some c → A.HasZone c z → A'.slots z = A.slots z
  size : ∀ {h : Head} {b}, k = none → h.cls = k → b ∈ A.lists h → A'.size b = A.size b

/-- An operation did the same on two heaps: its result, what it left of the class `k`, and its
system call, of length `n` if it was `mmap`. -/
structure Mirrors {α : Type} (k : Option Cls) (n : Nat) (os os' : Os)
    (r r' : α × AHeap × Os) : Prop where
  result : r'.1 = r.1
  heap : SameOn k r.2.1 r'.2.1
  system : Os.Likewise n os os' r.2.2 r'.2.2

variable {P : Nat} {A A' A'' : AHeap} {os os' : Os} {h h' : Head} {x z i s b n : Nat} {c : Cls}
  {k : Option Cls} {o : Option Nat} {cell : Cell} {t : Task}

theorem SameOn.refl (k : Option Cls) (A : AHeap) : SameOn k A A :=
  ⟨fun _ => rfl, fun _ _ => rfl, fun _ _ _ => rfl⟩

theorem SameOn.hasZone (hs : SameOn k A A') (hk : k = some c) :
    A'.HasZone c z ↔ A.HasZone c z := by
  unfold HasZone
  rw [hs.lists (by rw [hk, c.cls_freeHead]), hs.lists (by rw [hk, c.cls_fullHead])]

theorem SameOn.trans (hs : SameOn k A A') (hs' : SameOn k A' A'') : SameOn k A A'' where
  lists := fun hk => (hs'.lists hk).trans (hs.lists hk)
  slots := fun hk hz => (hs'.slots hk ((hs.hasZone hk).mpr hz)).trans (hs.slots hk hz)
  size := fun hk hc hb => (hs'.size hk hc (hs.lists hc ▸ hb)).trans (hs.size hk hc hb)

theorem SameOn.freeCount (hs : SameOn k A A') (hk : k = some c) (hz : A.HasZone c z) :
    A'.freeCount z = A.freeCount z := by
  unfold AHeap.freeCount
  rw [hs.slots hk hz]

theorem SameOn.leastFree (hs : SameOn k A A') (hk : k = some c) (hz : A.HasZone c z) :
    A'.leastFree z = A.leastFree z := by
  unfold AHeap.leastFree
  rw [hs.slots hk hz]

/-- The cells of the class that are held are the same in both heaps. -/
theorem SameOn.holds (hs : SameOn k A A') (hk : cell.cls = k) (hc : A.Holds cell) :
    A'.Holds cell := by
  cases cell with
  | slot c z i =>
    obtain ⟨hz, r, hr⟩ := hc
    refine ⟨(hs.hasZone hk.symm).mpr hz, r, ?_⟩
    rw [hs.slots hk.symm hz]
    exact hr
  | block b =>
    rw [Holds, hs.lists (h := .fullLargeBlocks) hk]
    exact hc

/-! ## Updates of another class -/

theorem Wf.setSlot_other (hw : A.Wf P) (hz : A.HasZone c z) (hk : k ≠ some c) :
    SameOn k A (A.setSlot z i o) where
  lists := fun _ => rfl
  slots := by
    intro c' z' hc' hz'
    rw [slots_setSlot, if_neg]
    rintro rfl
    exact hk (hw.cls_unique hz hz' ▸ hc')
  size := fun _ _ _ => rfl

theorem detach_other (hk : k ≠ h.cls) : SameOn k A (A.detach x h) where
  lists := by
    intro g hg
    rw [lists_detach, if_neg]
    rintro rfl
    exact hk hg.symm
  slots := fun _ _ => rfl
  size := fun _ _ _ => rfl

theorem append_other (hk : k ≠ h.cls) : SameOn k A (A.append x h) where
  lists := by
    intro g hg
    rw [lists_append, if_neg]
    rintro rfl
    exact hk hg.symm
  slots := fun _ _ => rfl
  size := fun _ _ _ => rfl

theorem move_other (hk : k ≠ h.cls) (hc : h'.cls = h.cls) : SameOn k A (A.move x h h') :=
  (detach_other hk).trans (append_other (hc ▸ hk))

theorem addZone_other (hf : A.Fresh b) (hk : k ≠ some c) : SameOn k A (A.addZone P c b) := by
  have hslots : SameOn k A { A with
      slots := Function.update A.slots b (List.replicate (c.cells P) none) } := by
    refine ⟨fun _ => rfl, fun _ hz => ?_, fun _ _ _ => rfl⟩
    obtain ⟨g, -, hm⟩ := hz.mem
    exact Function.update_of_ne (hf.ne_of_mem hm) _ _
  exact hslots.trans (append_other (by rwa [c.cls_freeHead]))

theorem addBlock_other (hf : A.Fresh b) (hk : k ≠ none) : SameOn k A (A.addBlock b s) := by
  have hsize : SameOn k A { A with size := Function.update A.size b s } :=
    ⟨fun _ => rfl, fun _ _ => rfl, fun _ _ hm => Function.update_of_ne (hf.ne_of_mem hm) _ _⟩
  exact hsize.trans (append_other hk)

/-! ## The same update on both heaps -/

theorem SameOn.setSlot (hs : SameOn k A A') (hz : A'.slots z = A.slots z) :
    SameOn k (A.setSlot z i o) (A'.setSlot z i o) where
  lists := hs.lists
  slots := by
    intro c y hc hy
    rw [slots_setSlot, slots_setSlot, hz]
    split
    · rfl
    · exact hs.slots hc hy
  size := hs.size

theorem SameOn.detach (hs : SameOn k A A') : SameOn k (A.detach x h) (A'.detach x h) := by
  have hsub : ∀ {g y}, y ∈ (A.detach x h).lists g → y ∈ A.lists g := by
    intro g y hy
    rw [lists_detach] at hy
    split at hy
    · rename_i he
      exact he ▸ List.mem_of_mem_erase hy
    · exact hy
  refine ⟨fun hg => ?_, fun hc hz => hs.slots hc (hz.imp hsub hsub),
    fun hk hg hb => hs.size hk hg (hsub hb)⟩
  rw [lists_detach, lists_detach]
  split
  · rename_i he
    rw [hs.lists (he ▸ hg)]
  · exact hs.lists hg

theorem SameOn.append (hs : SameOn k A A') (hslots : ∀ c, h.cls = some c → A'.slots x = A.slots x)
    (hsize : h.cls = none → A'.size x = A.size x) :
    SameOn k (A.append x h) (A'.append x h) where
  lists := by
    intro g hg
    rw [lists_append, lists_append]
    split
    · rename_i he
      rw [hs.lists (he ▸ hg)]
    · exact hs.lists hg
  slots := by
    intro c y hc hy
    obtain ⟨g, hg, hm⟩ := hy.mem
    rcases mem_append.mp hm with hm | ⟨rfl, rfl⟩
    · exact hs.slots hc (hasZone_of_mem hg hm)
    · exact hslots c hg
  size := by
    intro g y hk hg hy
    rcases mem_append.mp hy with hy | ⟨rfl, rfl⟩
    · exact hs.size hk hg hy
    · exact hsize (hg.trans hk)

/-- A node of the class is moved in both heaps, which still agree on the class. -/
theorem SameOn.move (hs : SameOn k A A') (hx : x ∈ A.lists h) (hk : h.cls = k)
    (hc : h'.cls = h.cls) : SameOn k (A.move x h h') (A'.move x h h') := by
  refine hs.detach.append (fun c hc' => ?_) fun hn => ?_
  · rw [hc] at hc'
    exact hs.slots (hk ▸ hc') (hasZone_of_mem hc' hx)
  · rw [hc] at hn
    exact hs.size (hk ▸ hn) hk hx

theorem SameOn.addZone (hs : SameOn k A A') : SameOn k (A.addZone P c b) (A'.addZone P c b) := by
  have hslots : SameOn k
      { A with slots := Function.update A.slots b (List.replicate (c.cells P) none) }
      { A' with slots := Function.update A'.slots b (List.replicate (c.cells P) none) } := by
    refine ⟨hs.lists, fun {c' z} hc hz => ?_, hs.size⟩
    simp only [Function.update_apply]
    split
    · rfl
    · exact hs.slots hc hz
  refine hslots.append (fun _ _ => ?_) fun hn => ?_
  · simp only [Function.update_self]
  · rw [c.cls_freeHead] at hn
    cases hn

theorem SameOn.addBlock (hs : SameOn k A A') : SameOn k (A.addBlock b s) (A'.addBlock b s) := by
  have hsize : SameOn k { A with size := Function.update A.size b s }
      { A' with size := Function.update A'.size b s } := by
    refine ⟨hs.lists, hs.slots, fun {h y} hk hc hy => ?_⟩
    simp only [Function.update_apply]
    split
    · rfl
    · exact hs.size hk hc hy
  refine hsize.append (fun _ hc => ?_) fun _ => ?_
  · cases hc
  · simp only [Function.update_self]

/-! ## A task leaves the other classes alone -/

theorem createZone_other (hb : A.Backed P os) (hk : k ≠ some c) :
    SameOn k A (A.createZone P os c).2.1 := by
  unfold createZone
  cases hr : os.reply (c.total P) with
  | none => exact SameOn.refl k A
  | some b => exact addZone_other (hb.fresh hr) hk

theorem takeSlot_other (hw : A.Wf P) (hb : A.Backed P os) (hz : z ∈ A.lists c.freeHead)
    (hk : k ≠ some c) : SameOn k A (A.takeSlot P os c z i s).2.1 := by
  have hset : SameOn k A (A.setSlot z i (some s)) := hw.setSlot_other (Or.inl hz) hk
  unfold takeSlot
  by_cases h0 : (A.setSlot z i (some s)).freeCount z = 0
  · simp only [h0, if_true]
    have hw₁ : (A.setSlot z i (some s)).Wf P := hw.setSlot
    have hmove : SameOn k (A.setSlot z i (some s))
        ((A.setSlot z i (some s)).move z c.freeHead c.fullHead) :=
      move_other (by rwa [c.cls_freeHead]) c.cls_full_free
    exact (hset.trans hmove).trans
      (createZone_other (hb.setSlot.move hw₁ hz c.cls_full_free) hk)
  · simp only [h0, if_false]
    exact hset

theorem allocZone_other (hw : A.Wf P) (hb : A.Backed P os) (hk : k ≠ some c) :
    SameOn k A (A.allocZone P os c s).2.1 := by
  unfold allocZone
  cases hl : A.lists c.freeHead with
  | nil => exact SameOn.refl k A
  | cons z rest =>
    have hz : z ∈ A.lists c.freeHead := first_mem hl
    cases hi : A.leastFree z with
    | none =>
      simp only [hi]
      exact SameOn.refl k A
    | some i =>
      simp only [hi]
      exact takeSlot_other hw hb hz hk

theorem allocLarge_other (hb : A.Backed P os) (hk : k ≠ none) :
    SameOn k A (A.allocLarge os s).2.1 := by
  unfold allocLarge
  cases hf : A.fit s with
  | some b => exact move_other hk Head.cls_large
  | none =>
    cases hr : os.reply (wrap (48 + s)) with
    | none => exact SameOn.refl k A
    | some b => exact addBlock_other (hb.fresh hr) hk

theorem freeSlot_other (hw : A.Wf P) (hz : A.HasZone c z) (hk : k ≠ some c) :
    SameOn k A (A.freeSlot P os c z i).1 := by
  have hset : SameOn k A (A.setSlot z i none) := hw.setSlot_other hz hk
  have hfree : k ≠ c.freeHead.cls := by rwa [c.cls_freeHead]
  have hfull : k ≠ c.fullHead.cls := by rwa [c.cls_fullHead]
  simp only [freeSlot]
  split
  · split
    · exact hset
    · exact hset.trans (detach_other hfree)
  · split
    · exact hset.trans (move_other hfull c.cls_full_free.symm)
    · exact hset

theorem freeLarge_other (hk : k ≠ none) : SameOn k A (A.freeLarge os b).1 := by
  unfold freeLarge
  split
  · exact detach_other hk
  · exact move_other hk Head.cls_large.symm

/-- **A task leaves the other classes alone**: their lists, their slots and their sizes. -/
theorem serve_other (hs : A.Sound P os) (ht : A.Admits os t) (hk : k ≠ t.cls) :
    SameOn k A (A.serve P os t).2.1 := by
  cases t with
  | alloc s =>
    simp only [serve, alloc]
    cases hc : Cls.ofSize s with
    | some c => exact allocZone_other hs.ok.toWf hs.backed (hc ▸ hk)
    | none => exact allocLarge_other hs.backed (hc ▸ hk)
  | free cell =>
    cases cell with
    | slot c z i => exact freeSlot_other hs.ok.toWf ht.1 hk
    | block b => exact freeLarge_other hk

/-! ## A task depends on its class -/

theorem SameOn.createZone (hs : SameOn (some c) A A')
    (hr : os'.reply (c.total P) = os.reply (c.total P)) :
    Mirrors (some c) (c.total P) os os' (A.createZone P os c) (A'.createZone P os' c) := by
  unfold AHeap.createZone
  rw [hr]
  cases os.reply (c.total P) with
  | none => exact ⟨rfl, hs, .mmap hr⟩
  | some b => exact ⟨rfl, hs.addZone, .mmap hr⟩

theorem SameOn.takeSlot (hs : SameOn (some c) A A') (hz : z ∈ A.lists c.freeHead)
    (hr : os'.reply (c.total P) = os.reply (c.total P)) :
    Mirrors (some c) (c.total P) os os' (A.takeSlot P os c z i s) (A'.takeSlot P os' c z i s) := by
  have hset : SameOn (some c) (A.setSlot z i (some s)) (A'.setSlot z i (some s)) :=
    hs.setSlot (hs.slots rfl (Or.inl hz))
  have hcount := hset.freeCount (z := z) rfl (Or.inl hz)
  simp only [AHeap.takeSlot, hcount]
  by_cases h0 : (A.setSlot z i (some s)).freeCount z = 0
  · simp only [h0, if_true]
    have hzone := (hset.move hz c.cls_freeHead c.cls_full_free).createZone hr
    exact ⟨by rw [hzone.result], hzone.heap, hzone.system⟩
  · simp only [h0, if_false]
    exact ⟨rfl, hset, .none⟩

theorem SameOn.allocZone (hs : SameOn (some c) A A')
    (hr : os'.reply (c.total P) = os.reply (c.total P)) :
    Mirrors (some c) (c.total P) os os' (A.allocZone P os c s) (A'.allocZone P os' c s) := by
  unfold AHeap.allocZone
  rw [hs.lists c.cls_freeHead]
  cases hl : A.lists c.freeHead with
  | nil => exact ⟨rfl, hs, .none⟩
  | cons z rest =>
    have hz : z ∈ A.lists c.freeHead := first_mem hl
    have hleast := hs.leastFree rfl (Or.inl hz)
    simp only [hleast]
    cases hi : A.leastFree z with
    | none => exact ⟨rfl, hs, .none⟩
    | some i => exact hs.takeSlot hz hr

theorem SameOn.fit (hs : SameOn none A A') : A'.fit s = A.fit s := by
  unfold AHeap.fit
  rw [hs.lists (h := .freeLargeBlocks) rfl]
  refine List.find?_congr fun b hb => ?_
  rw [hs.size (h := .freeLargeBlocks) rfl rfl hb]

theorem SameOn.allocLarge (hs : SameOn none A A')
    (hr : os'.reply (wrap (48 + s)) = os.reply (wrap (48 + s))) :
    Mirrors none (wrap (48 + s)) os os' (A.allocLarge os s) (A'.allocLarge os' s) := by
  unfold AHeap.allocLarge
  rw [hs.fit, hr]
  cases hf : A.fit s with
  | some b => exact ⟨rfl, hs.move (fit_some hf).1 rfl rfl, .none⟩
  | none =>
    cases os.reply (wrap (48 + s)) with
    | none => exact ⟨rfl, hs, .mmap hr⟩
    | some b => exact ⟨rfl, hs.addBlock, .mmap hr⟩

theorem SameOn.freeSlot (hs : SameOn (some c) A A') (hok : A.Ok P) (hb : A.Backed P os)
    (hk : A.Holds (.slot c z i)) :
    Mirrors (some c) n os os' (0, A.freeSlot P os c z i) (0, A'.freeSlot P os' c z i) := by
  obtain ⟨hz, r, hslot⟩ := hk
  have hset : SameOn (some c) (A.setSlot z i none) (A'.setSlot z i none) :=
    hs.setSlot (hs.slots rfl hz)
  have hcount := hset.freeCount (z := z) rfl hz
  simp only [AHeap.freeSlot, hcount, hs.lists c.cls_freeHead]
  split
  · split
    · exact ⟨rfl, hset, .none⟩
    · refine ⟨rfl, hset.detach, .munmap ?_⟩
      obtain ⟨g, hg, hm⟩ := hz.mem
      have hreg := hb.region hm
      rwa [len_of_cls hg] at hreg
  · split
    · rename_i hone
      have hzf : z ∈ A.lists c.fullHead := hok.on_full hz hslot hone
      exact ⟨rfl, hset.move hzf c.cls_fullHead c.cls_full_free.symm, .none⟩
    · exact ⟨rfl, hset, .none⟩

theorem SameOn.freeLarge (hs : SameOn none A A') (hb : A.Backed P os)
    (hk : b ∈ A.lists .fullLargeBlocks) :
    Mirrors none n os os' (0, A.freeLarge os b) (0, A'.freeLarge os' b) := by
  unfold AHeap.freeLarge
  rw [hs.size (h := .fullLargeBlocks) rfl rfl hk]
  split
  · exact ⟨rfl, hs.detach, .munmap (hb.region (h := .fullLargeBlocks) hk)⟩
  · exact ⟨rfl, hs.move (h := .fullLargeBlocks) hk rfl rfl, .none⟩

/-- **A task does the same** on heaps that are the same on its class. -/
theorem serve_mirrors (hs : A.Sound P os) (ht : A.Admits os t) (hsame : SameOn t.cls A A')
    (hr : os'.reply (t.length P) = os.reply (t.length P)) :
    Mirrors t.cls (t.length P) os os' (A.serve P os t) (A'.serve P os' t) := by
  cases t with
  | alloc s =>
    simp only [serve, alloc, Task.cls, Task.length] at *
    cases hc : Cls.ofSize s with
    | some c =>
      simp only [hc] at hsame hr
      exact hsame.allocZone hr
    | none =>
      simp only [hc] at hsame hr
      exact hsame.allocLarge hr
  | free cell =>
    cases cell with
    | slot c z i => exact hsame.freeSlot hs.ok hs.backed ht
    | block b => exact hsame.freeLarge hs.backed ht

end AHeap

end FtMalloc
