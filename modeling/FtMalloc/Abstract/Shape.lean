import FtMalloc.Abstract.Heap

/-!
# The updates of the abstract heap

What each update does to the lists (`mem_detach`, `mem_move`, `mem_addZone`, `mem_addBlock`), to
the slots and free counts (`freeCount_take`, `freeCount_release`) and to the zones of a class, and
that it keeps the shape `Wf`.

* `exists_leastFree`: a zone with a free slot has a first one.
* `Wf.cls_unique`: a zone has one class.
* `Backed.fresh`: a region the system grants is nobody's node.
-/

namespace FtMalloc

namespace AHeap

variable {P : Nat} {A : AHeap} {h h' : Head} {x y z i s b : Nat} {c c' : Cls} {o : Option Nat}

/-! ## Lists after an update -/

theorem lists_detach (h' : Head) :
    (A.detach x h).lists h' = if h' = h then (A.lists h).erase x else A.lists h' :=
  Function.update_apply _ _ _ _

theorem lists_append (h' : Head) :
    (A.append x h).lists h' = if h' = h then A.lists h ++ [x] else A.lists h' :=
  Function.update_apply _ _ _ _

/-- The first node of a list is on it: the one `find_free_block` takes from. -/
theorem first_mem {rest : List Nat} (hl : A.lists h = x :: rest) : x ∈ A.lists h := by
  rw [hl]
  exact List.mem_cons_self

theorem mem_append : y ∈ (A.append x h).lists h' ↔ y ∈ A.lists h' ∨ h' = h ∧ y = x := by
  rw [lists_append]
  by_cases hh : h' = h
  · subst hh
    simp
  · simp [hh]

theorem Wf.mem_detach (hw : A.Wf P) :
    y ∈ (A.detach x h).lists h' ↔ y ∈ A.lists h' ∧ ¬(h' = h ∧ y = x) := by
  rw [lists_detach]
  by_cases hh : h' = h
  · subst hh
    rw [if_pos rfl, (hw.nodup h').mem_erase_iff]
    tauto
  · simp [hh]

theorem Wf.mem_move (hw : A.Wf P) (hx : x ∈ A.lists h) {g : Head} :
    y ∈ (A.move x h h').lists g ↔ y ≠ x ∧ y ∈ A.lists g ∨ y = x ∧ g = h' := by
  unfold move
  rw [mem_append, hw.mem_detach]
  constructor
  · rintro (⟨hy, hne⟩ | ⟨rfl, rfl⟩)
    · refine Or.inl ⟨fun e => hne ⟨?_, e⟩, hy⟩
      rw [e] at hy
      exact hw.once hy hx
    · exact Or.inr ⟨rfl, rfl⟩
  · rintro (⟨hne, hy⟩ | ⟨rfl, rfl⟩)
    · exact Or.inl ⟨hy, fun e => hne e.2⟩
    · exact Or.inr ⟨rfl, rfl⟩

theorem Wf.fresh_detach (hw : A.Wf P) (hx : x ∈ A.lists h) : (A.detach x h).Fresh x := by
  intro h' hm
  obtain ⟨h1, h2⟩ := hw.mem_detach.mp hm
  exact h2 ⟨hw.once h1 hx, rfl⟩

theorem HasZone.mem (hz : A.HasZone c z) : ∃ h, h.cls = some c ∧ z ∈ A.lists h := by
  rcases hz with hz | hz
  · exact ⟨_, c.cls_freeHead, hz⟩
  · exact ⟨_, c.cls_fullHead, hz⟩

theorem hasZone_of_mem (hc : h.cls = some c) (hz : z ∈ A.lists h) : A.HasZone c z := by
  rcases Head.eq_of_cls hc with rfl | rfl
  · exact Or.inl hz
  · exact Or.inr hz

theorem hasZone_iff : A.HasZone c z ↔ ∃ h, h.cls = some c ∧ z ∈ A.lists h :=
  ⟨HasZone.mem, fun ⟨_, hc, hz⟩ => hasZone_of_mem hc hz⟩

/-- A zone has one class, as no node is on two lists. -/
theorem Wf.cls_unique (hw : A.Wf P) (hz : A.HasZone c z) (hz' : A.HasZone c' z) : c = c' := by
  obtain ⟨h, hc, hm⟩ := hz.mem
  obtain ⟨h', hc', hm'⟩ := hz'.mem
  rw [hw.once hm hm', hc'] at hc
  exact (Option.some.inj hc).symm

@[simp] theorem lists_setSlot : (A.setSlot z i o).lists = A.lists := rfl

@[simp] theorem hasZone_setSlot {w : Nat} : (A.setSlot z i o).HasZone c w ↔ A.HasZone c w :=
  Iff.rfl

/-- A move between lists of one class keeps the nodes of every class. -/
theorem Wf.mem_cls_move (hw : A.Wf P) (hx : x ∈ A.lists h) (hc : h'.cls = h.cls)
    {k : Option Cls} : (∃ g : Head, g.cls = k ∧ y ∈ (A.move x h h').lists g) ↔
      ∃ g : Head, g.cls = k ∧ y ∈ A.lists g := by
  simp only [hw.mem_move hx]
  constructor
  · rintro ⟨g, hg, ⟨-, hy⟩ | ⟨rfl, rfl⟩⟩
    · exact ⟨g, hg, hy⟩
    · exact ⟨h, hc.symm.trans hg, hx⟩
  · rintro ⟨g, hg, hy⟩
    by_cases hyx : y = x
    · subst hyx
      obtain rfl := hw.once hy hx
      exact ⟨h', hc.trans hg, Or.inr ⟨rfl, rfl⟩⟩
    · exact ⟨g, hg, Or.inl ⟨hyx, hy⟩⟩

theorem Wf.hasZone_move (hw : A.Wf P) (hx : x ∈ A.lists h) (hc : h'.cls = h.cls) :
    (A.move x h h').HasZone c z ↔ A.HasZone c z := by
  rw [hasZone_iff, hasZone_iff, hw.mem_cls_move hx hc]

/-! ## Slots after an update -/

theorem slots_setSlot (y : Nat) :
    (A.setSlot z i o).slots y = if y = z then (A.slots z).set i o else A.slots y :=
  Function.update_apply _ _ _ _

theorem slots_setSlot_self : (A.setSlot z i o).slots z = (A.slots z).set i o := by
  rw [slots_setSlot, if_pos rfl]

theorem freeCount_setSlot_ne (hy : y ≠ z) : (A.setSlot z i o).freeCount y = A.freeCount y := by
  unfold freeCount
  rw [slots_setSlot, if_neg hy]

theorem freeCount_take (hi : (A.slots z)[i]? = some none) :
    (A.setSlot z i (some s)).freeCount z + 1 = A.freeCount z := by
  obtain ⟨hlt, he⟩ := List.getElem?_eq_some_iff.mp hi
  have hpos : 0 < (A.slots z).countP (·.isNone) :=
    List.countP_pos_iff.mpr ⟨_, List.getElem_mem hlt, by rw [he]; rfl⟩
  unfold freeCount
  rw [slots_setSlot_self, List.countP_set hlt, he]
  simp
  omega

theorem freeCount_release {r : Nat} (hi : (A.slots z)[i]? = some (some r)) :
    (A.setSlot z i none).freeCount z = A.freeCount z + 1 := by
  obtain ⟨hlt, he⟩ := List.getElem?_eq_some_iff.mp hi
  unfold freeCount
  rw [slots_setSlot_self, List.countP_set hlt, he]
  simp

theorem freeCount_le : A.freeCount z ≤ (A.slots z).length := List.countP_le_length

/-- The first free slot is a free slot of the zone, which an allocation may take. -/
theorem leastFree_slot (hi : A.leastFree z = some i) :
    i < (A.slots z).length ∧ (A.slots z)[i]? = some none := by
  obtain ⟨hlt, he, -⟩ := List.findIdx?_eq_some_iff_getElem.mp hi
  refine ⟨hlt, ?_⟩
  rw [List.getElem?_eq_getElem hlt, Option.isNone_iff_eq_none.mp he]

/-- A zone with a free slot has a first one, so its scan succeeds. -/
theorem exists_leastFree (hpos : 0 < A.freeCount z) :
    ∃ i, A.leastFree z = some i ∧ (A.slots z)[i]? = some none ∧
      ∀ j, j < i → (A.slots z)[j]? ≠ some none := by
  obtain ⟨a, ha, hn⟩ := List.countP_pos_iff.mp hpos
  cases hf : A.leastFree z with
  | none =>
    have hfalse := List.findIdx?_eq_none_iff.mp hf a ha
    rw [hn] at hfalse
    exact absurd hfalse (by decide)
  | some i =>
    obtain ⟨_, _, hmin⟩ := List.findIdx?_eq_some_iff_getElem.mp hf
    refine ⟨i, rfl, (leastFree_slot hf).2, fun j hj he => ?_⟩
    obtain ⟨hjl, hje⟩ := List.getElem?_eq_some_iff.mp he
    exact hmin j hj (by rw [hje]; rfl)

/-- A zone all of whose slots are free holds nothing, and can be unmapped. -/
theorem free_of_freeCount_eq_length (hf : A.freeCount z = (A.slots z).length) {r : Nat} :
    (A.slots z)[i]? ≠ some (some r) := by
  intro he
  have h1 := freeCount_release (A := A) he
  have h2 : (A.setSlot z i none).freeCount z ≤ ((A.setSlot z i none).slots z).length :=
    freeCount_le
  rw [slots_setSlot_self, List.length_set] at h2
  omega

/-! ## Shape -/

theorem Wf.setSlot (hw : A.Wf P) : (A.setSlot z i o).Wf P where
  nodup := hw.nodup
  once := hw.once
  cells := by
    intro c y hy
    rw [slots_setSlot]
    split
    · rename_i e
      rw [List.length_set, ← e]
      exact hw.cells hy
    · exact hw.cells hy

theorem Wf.detach (hw : A.Wf P) : (A.detach x h).Wf P where
  nodup := by
    intro h'
    rw [lists_detach]
    split
    · exact (hw.nodup h).erase x
    · exact hw.nodup h'
  once := fun h1 h2 => hw.once (hw.mem_detach.mp h1).1 (hw.mem_detach.mp h2).1
  cells := by
    intro c y hy
    obtain ⟨g, hc, hm⟩ := hy.mem
    exact hw.cells (hasZone_of_mem hc (hw.mem_detach.mp hm).1)

theorem Wf.append (hw : A.Wf P) (hf : A.Fresh x)
    (hx : ∀ c, h.cls = some c → (A.slots x).length = c.cells P) : (A.append x h).Wf P where
  nodup := by
    intro h'
    rw [lists_append]
    split
    · exact List.Nodup.append (hw.nodup h) (List.nodup_singleton x) (by simpa using hf h)
    · exact hw.nodup h'
  once := by
    intro g g' y h1 h2
    rcases mem_append.mp h1 with m1 | ⟨e1, rfl⟩ <;> rcases mem_append.mp h2 with m2 | ⟨e2, e⟩
    · exact hw.once m1 m2
    · rw [e] at m1
      exact absurd m1 (hf g)
    · exact absurd m2 (hf g')
    · rw [e1, e2]
  cells := by
    intro c y hy
    obtain ⟨g, hc, hm⟩ := hy.mem
    rcases mem_append.mp hm with hm | ⟨rfl, rfl⟩
    · exact hw.cells (hasZone_of_mem hc hm)
    · exact hx c hc

theorem Wf.move (hw : A.Wf P) (hx : x ∈ A.lists h) (hc : h'.cls = h.cls) :
    (A.move x h h').Wf P :=
  hw.detach.append (hw.fresh_detach hx) fun _ hc' =>
    hw.cells (hasZone_of_mem (hc ▸ hc') hx)

/-! ## New nodes -/

theorem mem_addZone : y ∈ (A.addZone P c b).lists h ↔ y ∈ A.lists h ∨ h = c.freeHead ∧ y = b :=
  mem_append

theorem slots_addZone (y : Nat) : (A.addZone P c b).slots y =
    if y = b then List.replicate (c.cells P) none else A.slots y :=
  Function.update_apply _ _ _ _

theorem freeCount_addZone_self : (A.addZone P c b).freeCount b = c.cells P := by
  unfold freeCount
  rw [slots_addZone, if_pos rfl, List.countP_replicate]
  rfl

theorem freeCount_addZone_ne (hy : y ≠ b) : (A.addZone P c b).freeCount y = A.freeCount y := by
  unfold freeCount
  rw [slots_addZone, if_neg hy]

theorem hasZone_addZone :
    (A.addZone P c b).HasZone c' z ↔ A.HasZone c' z ∨ c' = c ∧ z = b := by
  simp only [hasZone_iff, mem_addZone]
  constructor
  · rintro ⟨g, hg, hz | ⟨rfl, rfl⟩⟩
    · exact Or.inl ⟨g, hg, hz⟩
    · rw [c.cls_freeHead] at hg
      exact Or.inr ⟨(Option.some.inj hg).symm, rfl⟩
  · rintro (⟨g, hg, hz⟩ | ⟨rfl, rfl⟩)
    · exact ⟨g, hg, Or.inl hz⟩
    · exact ⟨_, c'.cls_freeHead, Or.inr ⟨rfl, rfl⟩⟩

theorem Fresh.ne_of_mem (hf : A.Fresh b) (hy : y ∈ A.lists h) : y ≠ b := fun e => hf h (e ▸ hy)

theorem Wf.addZone (hw : A.Wf P) (hf : A.Fresh b) : (A.addZone P c b).Wf P := by
  refine Wf.append ⟨hw.nodup, hw.once, ?_⟩ hf ?_
  · intro c' z hz
    obtain ⟨g, -, hm⟩ := HasZone.mem hz
    have hzb : z ≠ b := hf.ne_of_mem hm
    change (Function.update A.slots b _ z).length = _
    rw [Function.update_of_ne hzb]
    exact hw.cells hz
  · intro c' hc
    rw [c.cls_freeHead] at hc
    obtain rfl := Option.some.inj hc
    change (Function.update A.slots b _ b).length = _
    rw [Function.update_self, List.length_replicate]

theorem mem_addBlock : y ∈ (A.addBlock b s).lists h ↔
    y ∈ A.lists h ∨ h = .fullLargeBlocks ∧ y = b := mem_append

theorem size_addBlock (y : Nat) : (A.addBlock b s).size y = if y = b then s else A.size y :=
  Function.update_apply _ _ _ _

theorem hasZone_addBlock : (A.addBlock b s).HasZone c z ↔ A.HasZone c z := by
  simp only [hasZone_iff, mem_addBlock]
  constructor
  · rintro ⟨g, hg, hz | ⟨rfl, rfl⟩⟩
    · exact ⟨g, hg, hz⟩
    · cases hg
  · rintro ⟨g, hg, hz⟩
    exact ⟨g, hg, Or.inl hz⟩

theorem Wf.addBlock (hw : A.Wf P) (hf : A.Fresh b) : (A.addBlock b s).Wf P :=
  Wf.append ⟨hw.nodup, hw.once, hw.cells⟩ hf fun c hc => by cases hc

/-! ## Mappings -/

theorem len_of_cls (hc : h.cls = some c) : A.len P h x = c.total P := by
  unfold len
  rw [hc]

theorem len_of_large (hc : h.cls = none) : A.len P h x = 48 + A.size x := by
  unfold len
  rw [hc]

section Mappings

variable {os : Os} {n : Nat}

/-- **A granted region is nobody's node**: the nodes' mappings are in place, and the kernel grants
none twice. -/
theorem Backed.fresh (hb : A.Backed P os) (hr : os.reply n = some b) : A.Fresh b :=
  fun _ hm => hb.system.not_mem hr _ (hb.region hm) rfl

theorem Backed.mmap (hb : A.Backed P os) : A.Backed P (os.mmap n) :=
  ⟨hb.system.mmap, fun hx => Os.mem_mmap (hb.region hx)⟩

theorem Backed.setSlot (hb : A.Backed P os) : (A.setSlot z i o).Backed P os :=
  ⟨hb.system, hb.region⟩

theorem Backed.init (hb : A.Backed P os) : A.init.Backed P os := ⟨hb.system, hb.region⟩

theorem Backed.detach (hb : A.Backed P os) (hw : A.Wf P) : (A.detach x h).Backed P os :=
  ⟨hb.system, fun hy => hb.region (hw.mem_detach.mp hy).1⟩

theorem Backed.append (hb : A.Backed P os) (hx : ⟨x, A.len P h x⟩ ∈ os.regions) :
    (A.append x h).Backed P os := by
  refine ⟨hb.system, fun hy => ?_⟩
  rcases mem_append.mp hy with hy | ⟨rfl, rfl⟩
  · exact hb.region hy
  · exact hx

theorem len_eq_of_cls (hc : h'.cls = h.cls) : A.len P h' x = A.len P h x := by
  unfold len
  rw [hc]

theorem Backed.move (hb : A.Backed P os) (hw : A.Wf P) (hx : x ∈ A.lists h)
    (hc : h'.cls = h.cls) : (A.move x h h').Backed P os := by
  refine (hb.detach hw).append ?_
  have hr := hb.region hx
  rw [← len_eq_of_cls hc] at hr
  exact hr

theorem Backed.addZone (hb : A.Backed P os) (hr : os.reply (c.total P) = some b) :
    (A.addZone P c b).Backed P (os.mmap (c.total P)) := by
  refine Backed.append ⟨hb.system.mmap, fun hy => Os.mem_mmap (hb.region hy)⟩ ?_
  rw [Os.mmap_granted hr, len_of_cls c.cls_freeHead]
  exact List.mem_cons_self

theorem Backed.addBlock (hb : A.Backed P os) (hr : os.reply (48 + s) = some b) :
    (A.addBlock b s).Backed P (os.mmap (48 + s)) := by
  refine Backed.append ⟨hb.system.mmap, fun {h y} hy => ?_⟩ ?_
  · have hne : y ≠ b := (hb.fresh hr).ne_of_mem hy
    have hreg := Os.mem_mmap (n := 48 + s) (hb.region hy)
    cases hc : h.cls with
    | some c => rwa [len_of_cls hc] at hreg ⊢
    | none =>
      rw [len_of_large hc] at hreg ⊢
      change (⟨y, 48 + Function.update A.size b s y⟩ : Region) ∈ _
      rwa [Function.update_of_ne hne]
  · rw [Os.mmap_granted hr, len_of_large rfl]
    change (⟨b, 48 + Function.update A.size b s b⟩ : Region) ∈ _
    rw [Function.update_self]
    exact List.mem_cons_self

/-- The region of a node that is in no list may go. -/
theorem Backed.munmap (hb : A.Backed P os) (hf : A.Fresh x) : A.Backed P (os.munmap ⟨x, n⟩) := by
  refine ⟨hb.system.munmap, fun hy => hb.system.mem_munmap.mpr ⟨fun e => ?_, hb.region hy⟩⟩
  exact hf.ne_of_mem hy (congrArg Region.base e)

end Mappings

end AHeap

end FtMalloc
