import FtMalloc.Abstract.Apart
import FtMalloc.Refine.Realloc

/-!
# Which bytes an operation depends on

Each operation is a change of memory (`AHeap.allocMem`, `AHeap.freeMem`, …). `Footprint` says that
the change is `Confined` to what the allocator keeps for itself in the nodes of some classes, but
for the regions it maps, which it overwrites, and that what the allocator keeps afterwards is among
these bytes.

* `Footprint.comp`: operations one after the other.
* `alloc_footprint`, `free_footprint`: a section of `alloc_block` or `free_ptr` depends on the bytes
  of its class alone.
* `malloc_footprint`: so does `malloc`, of all classes.
* `Footprint.agrees`: memories in which the allocator keeps the same stay so.
-/

namespace FtMalloc

open Lib

/-- A byte the allocator keeps for itself in a node of the classes of `K`; `none` is the class of
the large blocks. -/
def AHeap.OwnOf (P : Nat) (A : AHeap) (K : Option Cls → Prop) (a : Nat) : Prop :=
  ∃ h x, K h.cls ∧ x ∈ A.lists h ∧ OwnByte P h x a

/-- A byte of the region an `mmap` call of `n` bytes gets, up to the end of its last page. -/
def Os.FreshByte (P : Nat) (os : Os) (n a : Nat) : Prop :=
  ∃ b, os.reply n = some b ∧ Within b (roundUp P n) a

/-- From `A` to `A'`, memory is changed by `f`, which depends on the own bytes of the classes `K`
and overwrites some bytes of `B`. -/
def Footprint (P : Nat) (K : Option Cls → Prop) (A A' : AHeap) (B : Nat → Prop)
    (f : Mem → Mem) : Prop :=
  ∃ G, Confined (A.OwnOf P K) G f ∧ (∀ a, A'.OwnOf P K a → A.OwnOf P K a ∨ G a) ∧
    ∀ a, G a → B a

variable {P : Nat} {K : Option Cls → Prop} {A A₁ A₂ : AHeap} {B B' : Nat → Prop}
  {f g : Mem → Mem} {m m' : Mem} {os : Os} {h h' : Head} {x z i s b a n : Nat} {c : Cls} {k : Cell}
  {o : Option Nat}

/-! ## Rules -/

/-- A change of own bytes that adds none, such as a change of links. -/
theorem Footprint.within (hf : Confined (A.OwnOf P K) Nowhere f)
    (h : ∀ a, A₁.OwnOf P K a → A.OwnOf P K a) : Footprint P K A A₁ B f :=
  ⟨Nowhere, hf, fun a ha => Or.inl (h a ha), fun _ hn => hn.elim⟩

theorem Footprint.id : Footprint P K A A B fun m => m :=
  Footprint.within Confined.id fun _ ha => ha

theorem Footprint.mono (hf : Footprint P K A A₁ B f) (hB : ∀ a, B a → B' a) :
    Footprint P K A A₁ B' f := by
  obtain ⟨G, hc, hown, hG⟩ := hf
  exact ⟨G, hc, hown, fun a ha => hB a (hG a ha)⟩

/-- **One operation after the other**: the second depends on the own bytes of the heap the first
leaves. -/
theorem Footprint.comp (hf : Footprint P K A A₁ B f) (hg : Footprint P K A₁ A₂ B g) :
    Footprint P K A A₂ B fun m => g (f m) := by
  obtain ⟨G, hc, hown, hG⟩ := hf
  obtain ⟨G', hc', hown', hG'⟩ := hg
  refine ⟨_, hc.comp hc' hown, fun a ha => ?_, fun a ha => ha.elim (hG a) (hG' a)⟩
  rcases hown' a ha with ha | ha
  · exact (hown a ha).imp_right Or.inl
  · exact Or.inr (Or.inr ha)

/-- **What the allocator keeps stays the same** in two memories in which it was. -/
theorem Footprint.agrees (hf : Footprint P K A A₁ B f) (he : Agrees m m' (A.OwnOf P K)) :
    Agrees (f m) (f m') (A₁.OwnOf P K) := by
  obtain ⟨G, hc, hown, -⟩ := hf
  exact (hc.agrees (fun _ ha => ha) he).mono hown

/-! ## Links -/

/-- The links of the lists are own bytes of the nodes they are in. -/
theorem linkBytes_ownOf (hP : ValidPage P) (hK : K h.cls)
    (ha : h.node.LinkBytes (A.lists h) a) : A.OwnOf P K a := by
  obtain ⟨x, hx, hl⟩ := ha
  exact ⟨h, x, hK, hx, own_of_link hP hl⟩

theorem detachMem_confined (hP : ValidPage P) (hK : K h.cls) (hx : x ∈ A.lists h) :
    Confined (A.OwnOf P K) Nowhere (A.detachMem x h) :=
  (NodeLayout.cut_confined hx).mono fun _ ha => linkBytes_ownOf hP hK ha

theorem appendMem_confined (hP : ValidPage P) (hK : K h.cls) :
    Confined ((A.append x h).OwnOf P K) Nowhere (A.appendMem x h) :=
  NodeLayout.join_confined.mono fun _ ha => linkBytes_ownOf (A := A.append x h) (h := h) hP hK
    (by rwa [AHeap.lists_append, if_pos rfl])

theorem ownOf_detach (hw : A.Wf P) : ∀ a, (A.detach x h).OwnOf P K a → A.OwnOf P K a := by
  rintro a ⟨g, y, hg, hy, ho⟩
  exact ⟨g, y, hg, (hw.mem_detach.mp hy).1, ho⟩

theorem ownOf_move (hw : A.Wf P) (hx : x ∈ A.lists h) (hc : h'.cls = h.cls) :
    ∀ a, (A.move x h h').OwnOf P K a → A.OwnOf P K a := by
  rintro a ⟨g, y, hg, hy, ho⟩
  rcases (hw.mem_move hx).mp hy with ⟨-, hy⟩ | ⟨rfl, rfl⟩
  · exact ⟨g, y, hg, hy, ho⟩
  · exact ⟨h, y, hc ▸ hg, hx, (ownByte_of_cls hc).mp ho⟩

theorem detach_footprint (hP : ValidPage P) (hw : A.Wf P) (hK : K h.cls) (hx : x ∈ A.lists h) :
    Footprint P K A (A.detach x h) B (A.detachMem x h) :=
  Footprint.within (detachMem_confined hP hK hx) (ownOf_detach hw)

theorem move_footprint (hP : ValidPage P) (hw : A.Wf P) (hK : K h.cls) (hx : x ∈ A.lists h)
    (hc : h'.cls = h.cls) : Footprint P K A (A.move x h h') B (A.moveMem x h h') := by
  have hmove := ownOf_move (K := K) hw hx hc
  exact Footprint.within ((detachMem_confined hP hK hx).then (appendMem_confined hP (hc ▸ hK))
    fun a ha => Or.inl (hmove a ha)) hmove

/-! ## Slots -/

theorem slotByte_ownOf (hP : ValidPage P) (hK : K (some c)) (hz : A.HasZone c z)
    (ha : SlotByte P c z a) : A.OwnOf P K a := by
  obtain ⟨h, hc, hm⟩ := hz.mem
  exact ⟨h, z, hc ▸ hK, hm, (ha.own hP hc).1⟩

theorem take_footprint (hP : ValidPage P) (hK : K (some c)) (hz : A.HasZone c z)
    (hi : i < c.cells P) : Footprint P K A (A.setSlot z i o) B fun m =>
      takenMem m z i s (c.bitmapLen P) :=
  Footprint.within ((takenMem_confined (hP.layout c) hi).mono fun _ ha =>
    slotByte_ownOf hP hK hz ha) fun _ ha => ha

theorem release_footprint (hP : ValidPage P) (hK : K (some c)) (hz : A.HasZone c z)
    (hi : i < c.cells P) : Footprint P K A (A.setSlot z i o) B fun m => releasedMem m z i :=
  Footprint.within ((releasedMem_confined (hP.layout c) hi).mono fun _ ha =>
    slotByte_ownOf hP hK hz ha) fun _ ha => ha

/-! ## New nodes -/

/-- A new node in a region that was granted: it is set up in the region and linked. -/
theorem grant_footprint (hP : ValidPage P) (hK : K h.cls) (hr : os.reply n = some b)
    (hl : A.len P h b ≤ n) {g : Mem → Mem} (hg : Confined (Within b (A.len P h b)) Nowhere g) :
    Footprint P K A (A.append b h) (os.FreshByte P n) fun m =>
      A.appendMem b h (g (grantMem P b n m)) := by
  have hround : n ≤ roundUp P n := Os.le_roundUp hP.pos
  have hin : ∀ a, Within b (A.len P h b) a → Within b (roundUp P n) a := fun a ha => by
    unfold Within at *
    omega
  have hown : ∀ a, (A.append b h).OwnOf P K a → A.OwnOf P K a ∨ Within b (roundUp P n) a := by
    rintro a ⟨g, y, hg, hy, ho⟩
    rcases AHeap.mem_append.mp hy with hy | ⟨rfl, rfl⟩
    · exact Or.inl ⟨g, y, hg, hy, ho⟩
    · exact Or.inr (hin a (own_lt (A := A) hP ho))
  have hfill : Confined (A.OwnOf P K) (Within b (roundUp P n)) (grantMem P b n) :=
    Confined.fill.mono fun _ hn => hn.elim
  refine ⟨Within b (roundUp P n), (hfill.then hg fun a ha => Or.inr (hin a ha)).then
    (appendMem_confined hP hK) hown, hown, fun a ha => ⟨b, hr, ha⟩⟩

theorem createZone_footprint (hP : ValidPage P) (hK : K (some c)) :
    Footprint P K A (A.createZone P os c).2.1 (os.FreshByte P (c.total P))
      (A.createZoneMem P os c) := by
  unfold AHeap.createZone AHeap.createZoneMem
  cases hr : os.reply (c.total P) with
  | none => exact Footprint.id
  | some b =>
    have hlen : A.len P c.freeHead b = c.total P := AHeap.len_of_cls c.cls_freeHead
    exact grant_footprint (h := c.freeHead) hP (by rwa [c.cls_freeHead]) hr (by omega)
      (hlen.symm ▸ zoneMem_confined hP)

theorem addBlock_footprint (hP : ValidPage P) (hK : K none) (hr : os.reply (48 + s) = some b) :
    Footprint P K A (A.addBlock b s) (os.FreshByte P (48 + s)) fun m =>
      A.appendMem b .fullLargeBlocks (blockMem b s (grantMem P b (48 + s) m)) := by
  let A₁ : AHeap := { A with size := Function.update A.size b s }
  have hlen : A₁.len P .fullLargeBlocks b = 48 + s := by
    rw [AHeap.len_of_large rfl]
    exact congrArg (48 + ·) (Function.update_self _ _ _)
  have hin : ∀ a, Within b 48 a → Within b (A₁.len P .fullLargeBlocks b) a := fun a ha => by
    unfold Within at *
    omega
  exact grant_footprint (A := A₁) (h := .fullLargeBlocks) hP hK hr (by omega)
    (blockMem_confined.mono hin)

/-! ## Sections -/

theorem takeSlot_footprint (hP : ValidPage P) (hK : K (some c)) (hw : A.Wf P)
    (hz : z ∈ A.lists c.freeHead) (hi : i < c.cells P) :
    Footprint P K A (A.takeSlot P os c z i s).2.1 (os.FreshByte P (c.total P))
      (A.takeSlotMem P os c z i s) := by
  have htake : Footprint P K A (A.setSlot z i (some s)) (os.FreshByte P (c.total P)) fun m =>
      takenMem m z i s (c.bitmapLen P) := take_footprint hP hK (Or.inl hz) hi
  unfold AHeap.takeSlot AHeap.takeSlotMem
  by_cases h0 : (A.setSlot z i (some s)).freeCount z = 0
  · simp only [h0, if_true]
    have hmove : Footprint P K (A.setSlot z i (some s))
        ((A.setSlot z i (some s)).move z c.freeHead c.fullHead) (os.FreshByte P (c.total P))
        ((A.setSlot z i (some s)).moveMem z c.freeHead c.fullHead) :=
      move_footprint hP hw.setSlot (by rwa [c.cls_freeHead]) hz c.cls_full_free
    exact (htake.comp hmove).comp (createZone_footprint hP hK)
  · simp only [h0, if_false]
    exact htake

theorem allocZone_footprint (hP : ValidPage P) (hK : K (some c)) (hw : A.Wf P) :
    Footprint P K A (A.allocZone P os c s).2.1 (os.FreshByte P (c.total P))
      (A.allocZoneMem P os c s) := by
  unfold AHeap.allocZone AHeap.allocZoneMem
  cases hlist : A.lists c.freeHead with
  | nil => exact Footprint.id
  | cons z rest =>
    have hz : z ∈ A.lists c.freeHead := AHeap.first_mem hlist
    cases hi : A.leastFree z with
    | none =>
      simp only [hi]
      exact Footprint.id
    | some i =>
      simp only [hi]
      refine takeSlot_footprint hP hK hw hz ?_
      rw [← hw.cells (Or.inl hz)]
      exact (AHeap.leastFree_slot hi).1

theorem allocLarge_footprint (hP : ValidPage P) (hK : K none) (hw : A.Wf P)
    (hwrap : 48 + s < 2 ^ 64 ∨ os.reply (wrap (48 + s)) = none) :
    Footprint P K A (A.allocLarge os s).2.1 (os.FreshByte P (wrap (48 + s)))
      (A.allocLargeMem P os s) := by
  unfold AHeap.allocLarge AHeap.allocLargeMem
  cases hfit : A.fit s with
  | some b => exact move_footprint hP hw hK (AHeap.fit_some hfit).1 Head.cls_large
  | none =>
    cases hr : os.reply (wrap (48 + s)) with
    | none => exact Footprint.id
    | some b =>
      have hlt : 48 + s < 2 ^ 64 := hwrap.resolve_right (by rw [hr]; exact Option.some_ne_none b)
      rw [wrap_of_lt hlt] at hr ⊢
      exact addBlock_footprint hP hK hr

/-- **An allocation depends on the own bytes of the class of the size**, and overwrites the region
it is granted, if it asks for one. -/
theorem alloc_footprint (hP : ValidPage P) (hK : K (Cls.ofSize s)) (hw : A.Wf P)
    (hwrap : 48 + s < 2 ^ 64 ∨ os.reply (wrap (48 + s)) = none) :
    Footprint P K A (A.alloc P os s).2.1 (os.FreshByte P ((Task.alloc s).length P))
      (A.allocMem P os s) := by
  unfold AHeap.alloc AHeap.allocMem
  simp only [Task.length]
  cases hc : Cls.ofSize s with
  | some c => exact allocZone_footprint hP (hc ▸ hK) hw
  | none => exact allocLarge_footprint hP (hc ▸ hK) hw hwrap

theorem freeSlot_footprint (hP : ValidPage P) (hK : K (some c)) (hok : A.Ok P)
    (hk : A.Holds (.slot c z i)) :
    Footprint P K A (A.freeSlot P os c z i).1 B (A.freeSlotMem P c z i) := by
  have hw := hok.toWf
  obtain ⟨hz, r, hslot⟩ := hk
  have hi : i < c.cells P := by
    rw [← hw.cells hz]
    exact (List.getElem?_eq_some_iff.mp hslot).1
  have hmany := (hP.layout c).enough
  have hrel : Footprint P K A (A.setSlot z i none) B fun m => releasedMem m z i :=
    release_footprint hP hK hz hi
  unfold AHeap.freeSlot AHeap.freeSlotMem
  by_cases hall : (A.setSlot z i none).freeCount z = c.cells P
  · simp only [if_pos hall]
    have hzf : z ∈ A.lists c.freeHead := hok.on_free hz hslot (by omega)
    by_cases hone : A.lists c.freeHead = [z]
    · simp only [if_pos hone]
      exact hrel
    · simp only [if_neg hone]
      exact hrel.comp (detach_footprint hP hw.setSlot (by rwa [c.cls_freeHead]) hzf)
  · simp only [if_neg hall]
    by_cases hone : (A.setSlot z i none).freeCount z = 1
    · simp only [if_pos hone]
      have hzf : z ∈ A.lists c.fullHead := hok.on_full hz hslot hone
      exact hrel.comp (move_footprint hP hw.setSlot (by rwa [c.cls_fullHead]) hzf
        c.cls_full_free.symm)
    · simp only [if_neg hone]
      exact hrel

theorem freeLarge_footprint (hP : ValidPage P) (hK : K none) (hw : A.Wf P)
    (hb : b ∈ A.lists .fullLargeBlocks) :
    Footprint P K A (A.freeLarge os b).1 B (A.freeLargeMem b) := by
  have hdet : Confined (A.OwnOf P K) Nowhere (A.detachMem b .fullLargeBlocks) :=
    detachMem_confined (h := .fullLargeBlocks) hP hK hb
  unfold AHeap.freeLarge AHeap.freeLargeMem
  by_cases hbig : 102400 < A.size b
  · simp only [if_pos hbig]
    exact Footprint.within hdet (ownOf_detach hw)
  · simp only [if_neg hbig]
    have hmove : ∀ a, (A.move b .fullLargeBlocks .freeLargeBlocks).OwnOf P K a → A.OwnOf P K a :=
      ownOf_move hw hb rfl
    have hmark : Confined (Within (b + BlockT.free) 4) Nowhere fun m =>
        stInt m (b + BlockT.free) 1 := Confined.st
    refine Footprint.within ((hdet.then hmark fun a ha => Or.inl ?_).then
      (appendMem_confined (h := .freeLargeBlocks) hP hK) fun a ha => Or.inl (hmove a ha)) hmove
    refine ⟨.fullLargeBlocks, b, hK, hb, (ownByte_block rfl).mpr ?_⟩
    unfold Within BlockT.free at ha
    omega

/-- **A release depends on the own bytes of the cell's class**, and overwrites nothing else. -/
theorem free_footprint (hP : ValidPage P) (hK : K k.cls) (hok : A.Ok P) (hk : A.Holds k) :
    Footprint P K A (A.free P os k).1 B (A.freeMem P k) := by
  cases k with
  | slot c z i => exact freeSlot_footprint hP hK hok hk
  | block b => exact freeLarge_footprint hP hK hok.toWf hk

/-! ## `malloc` -/

theorem setup_footprint (hP : ValidPage P) (hK : ∀ c, K (some c)) :
    Footprint P K A (A.setup P os).2.1 (fun _ => True) (A.setupMem P os) := by
  have h1 : Footprint P K A (A.createZone P os .tiny).2.1 (fun _ => True)
      (A.createZoneMem P os .tiny) :=
    (createZone_footprint hP (hK .tiny)).mono fun _ _ => trivial
  unfold AHeap.setup AHeap.setupMem
  generalize A.createZone P os .tiny = r at *
  by_cases hr : r.1 = true
  · simp only [if_pos hr]
    have h2 : Footprint P K r.2.1 (r.2.1.createZone P r.2.2 .small).2.1 (fun _ => True)
        (r.2.1.createZoneMem P r.2.2 .small) :=
      (createZone_footprint hP (hK .small)).mono fun _ _ => trivial
    have h := h1.comp h2
    generalize r.2.1.createZone P r.2.2 .small = r' at *
    split
    · exact h
    · exact h
  · simp only [if_neg hr]
    exact h1

theorem ready_footprint (hP : ValidPage P) (hK : ∀ c, K (some c)) :
    Footprint P K A (A.ready P os).2.1 (fun _ => True) (A.readyMem P os) := by
  unfold AHeap.ready AHeap.readyMem
  by_cases hi : A.initialized = true
  · simp only [if_pos hi]
    exact Footprint.id
  · simp only [if_neg hi]
    exact setup_footprint hP hK

/-- **`malloc` depends on the allocator's own bytes**, of all classes since the first call sets up
both. -/
theorem malloc_footprint (hP : ValidPage P) (hK : ∀ k, K k) (hs : A.Sound P os) :
    Footprint P K A (A.malloc P os s).2.1 (fun _ => True) (A.mallocMem P os s) := by
  have hready : Footprint P K A (A.ready P os).2.1 (fun _ => True) (A.readyMem P os) :=
    ready_footprint hP fun c => hK _
  have hs₁ := (AHeap.ready_sound hP hs).1
  unfold AHeap.malloc AHeap.mallocMem
  by_cases h : s = 0 ∨ ptrdiffMax < s
  · simp only [if_pos h]
    exact Footprint.id
  · simp only [if_neg h]
    have hlt : 48 + s < 2 ^ 64 := length_lt_of_le_ptrdiffMax (by omega)
    generalize A.ready P os = r at *
    by_cases hr : r.1 = true
    · simp only [if_pos hr]
      exact hready.comp ((alloc_footprint hP (hK _) hs₁.ok.toWf (Or.inl hlt)).mono
        fun _ _ => trivial)
    · simp only [if_neg hr]
      exact hready

end FtMalloc
