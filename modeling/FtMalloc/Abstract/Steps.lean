import FtMalloc.Abstract.Shape

/-!
# What the abstract operations keep

* `Sound` is the invariant of a heap and the system under it: `Ok` and `Backed`.
* `Grows A A'`: an allocation keeps every cell, held or not, with its room. `Serves` adds that
  the pointer it returns is NULL or that of a cell which was not held and now is.
* `KeepsBut k A A'`: releasing `k` keeps every other held cell.

Results: `malloc_serves`, `alloc_serves`, `free_releases` and `realloc_resizes` say this of each
operation, at every outcome of its `mmap` calls.
-/

namespace FtMalloc

namespace AHeap

variable {P : Nat} {A : AHeap} {h h' : Head} {x y z i s b : Nat} {c c' : Cls} {o : Option Nat}

/-! ## The invariant -/

theorem Ok.addZone (hok : A.Ok P) (hf : A.Fresh b) (hpos : 0 < c.cells P)
    (hun : A.initialized = false → c = .tiny) : (A.addZone P c b).Ok P where
  toWf := hok.toWf.addZone hf
  hasFree := by
    intro c' z hz
    rcases mem_addZone.mp hz with hz | ⟨-, rfl⟩
    · rw [freeCount_addZone_ne (hf.ne_of_mem hz)]
      exact hok.hasFree hz
    · rw [freeCount_addZone_self]
      exact hpos
  noFree := by
    intro c' z hz
    rcases mem_addZone.mp hz with hz | ⟨e, -⟩
    · rw [freeCount_addZone_ne (hf.ne_of_mem hz)]
      exact hok.noFree hz
    · cases c <;> cases c' <;> cases e
  large := by
    intro h x hh hx
    rcases mem_addZone.mp hx with hx | ⟨rfl, -⟩
    · exact hok.large hh hx
    · rw [c.cls_freeHead] at hh
      cases hh
  cached := by
    intro x hx
    rcases mem_addZone.mp hx with hx | ⟨e, -⟩
    · exact hok.cached hx
    · cases c <;> cases e
  unused := by
    intro hi
    obtain ⟨h1, h2, h3, h4⟩ := hok.unused hi
    obtain rfl := hun hi
    refine ⟨fun {c' z} hz => ?_, ?_, ?_, ?_⟩
    · rcases hasZone_addZone.mp hz with hz | ⟨rfl, rfl⟩
      · obtain ⟨g, -, hm⟩ := hz.mem
        rw [freeCount_addZone_ne (hf.ne_of_mem hm)]
        exact h1 hz
      · exact freeCount_addZone_self
    · exact (lists_append _).trans h2
    · exact (lists_append _).trans h3
    · exact (lists_append _).trans h4

theorem Ok.init (hok : A.Ok P) : A.init.Ok P where
  nodup := hok.nodup
  once := hok.once
  cells := hok.cells
  hasFree := hok.hasFree
  noFree := hok.noFree
  large := hok.large
  cached := hok.cached
  unused := fun h => by cases h

/-- A zone of an initialised heap changes one slot and stays where it is. -/
theorem Ok.setSlot (hok : A.Ok P) (hi : A.initialized = true)
    (hfree : ∀ {c : Cls}, z ∈ A.lists c.freeHead → 0 < (A.setSlot z i o).freeCount z)
    (hfull : ∀ {c : Cls}, z ∈ A.lists c.fullHead → (A.setSlot z i o).freeCount z = 0) :
    (A.setSlot z i o).Ok P where
  toWf := hok.toWf.setSlot
  hasFree := by
    intro c y hy
    by_cases e : y = z
    · subst e
      exact hfree hy
    · rw [freeCount_setSlot_ne e]
      exact hok.hasFree hy
  noFree := by
    intro c y hy
    by_cases e : y = z
    · subst e
      exact hfull hy
    · rw [freeCount_setSlot_ne e]
      exact hok.noFree hy
  large := hok.large
  cached := hok.cached
  unused := fun h => by
    rw [show A.initialized = false from h] at hi
    cases hi

/-- A zone of an initialised heap changes one slot and moves to the other list of its class. -/
theorem Ok.setSlot_move (hok : A.Ok P) (hi : A.initialized = true) (hz : z ∈ A.lists h)
    (hc : h.cls = some c) (hc' : h'.cls = some c)
    (hfree : ∀ {c : Cls}, h' = c.freeHead → 0 < (A.setSlot z i o).freeCount z)
    (hfull : ∀ {c : Cls}, h' = c.fullHead → (A.setSlot z i o).freeCount z = 0) :
    ((A.setSlot z i o).move z h h').Ok P := by
  have hw : (A.setSlot z i o).Wf P := hok.toWf.setSlot
  have hmem : ∀ {g y}, y ∈ ((A.setSlot z i o).move z h h').lists g ↔
      y ≠ z ∧ y ∈ A.lists g ∨ y = z ∧ g = h' := hw.mem_move hz
  refine ⟨hw.move hz (hc'.trans hc.symm), ?_, ?_, ?_, ?_, fun h => ?_⟩
  · intro c y hy
    rcases hmem.mp hy with ⟨hne, hy⟩ | ⟨rfl, e⟩
    · exact (freeCount_setSlot_ne hne).symm ▸ hok.hasFree hy
    · exact hfree e.symm
  · intro c y hy
    rcases hmem.mp hy with ⟨hne, hy⟩ | ⟨rfl, e⟩
    · exact (freeCount_setSlot_ne hne).trans (hok.noFree hy)
    · exact hfull e.symm
  · intro g x hg hx
    rcases hmem.mp hx with ⟨-, hx⟩ | ⟨-, rfl⟩
    · exact hok.large hg hx
    · rw [hc'] at hg
      cases hg
  · intro x hx
    rcases hmem.mp hx with ⟨-, hx⟩ | ⟨-, rfl⟩
    · exact hok.cached hx
    · cases hc'
  · rw [show A.initialized = false from h] at hi
    cases hi

/-- A node is taken out of an initialised heap, which stays consistent: every condition is about the
nodes that are left. -/
theorem Ok.detach (hok : A.Ok P) (hi : A.initialized = true) : (A.detach x h).Ok P where
  toWf := hok.toWf.detach
  hasFree := fun hy => hok.hasFree (hok.toWf.mem_detach.mp hy).1
  noFree := fun hy => hok.noFree (hok.toWf.mem_detach.mp hy).1
  large := fun hg hy => hok.large hg (hok.toWf.mem_detach.mp hy).1
  cached := fun hy => hok.cached (hok.toWf.mem_detach.mp hy).1
  unused := fun h => by
    rw [show A.initialized = false from h] at hi
    cases hi

/-- A large block of an initialised heap moves to the other list. -/
theorem Ok.move_large (hok : A.Ok P) (hi : A.initialized = true) (hx : x ∈ A.lists h)
    (hc : h.cls = none) (hc' : h'.cls = none)
    (hcached : h' = .freeLargeBlocks → A.size x ≤ 102400) : (A.move x h h').Ok P := by
  have hmem : ∀ {g y}, y ∈ (A.move x h h').lists g ↔ y ≠ x ∧ y ∈ A.lists g ∨ y = x ∧ g = h' :=
    hok.toWf.mem_move hx
  refine ⟨hok.toWf.move hx (hc'.trans hc.symm), ?_, ?_, ?_, ?_, fun h => ?_⟩
  · intro c y hy
    rcases hmem.mp hy with ⟨-, hy⟩ | ⟨-, e⟩
    · exact hok.hasFree hy
    · rw [← e, c.cls_freeHead] at hc'
      cases hc'
  · intro c y hy
    rcases hmem.mp hy with ⟨-, hy⟩ | ⟨-, e⟩
    · exact hok.noFree hy
    · rw [← e, c.cls_fullHead] at hc'
      cases hc'
  · intro g y hg hy
    rcases hmem.mp hy with ⟨-, hy⟩ | ⟨rfl, -⟩
    · exact hok.large hg hy
    · exact hok.large hc hx
  · intro y hy
    rcases hmem.mp hy with ⟨-, hy⟩ | ⟨rfl, e⟩
    · exact hok.cached hy
    · exact hcached e.symm
  · rw [show A.initialized = false from h] at hi
    cases hi

theorem Ok.addBlock (hok : A.Ok P) (hi : A.initialized = true) (hf : A.Fresh b) (hs : 1024 < s) :
    (A.addBlock b s).Ok P where
  toWf := hok.toWf.addBlock hf
  hasFree := by
    intro c y hy
    rcases mem_addBlock.mp hy with hy | ⟨e, -⟩
    · exact hok.hasFree hy
    · cases c <;> cases e
  noFree := by
    intro c y hy
    rcases mem_addBlock.mp hy with hy | ⟨e, -⟩
    · exact hok.noFree hy
    · cases c <;> cases e
  large := by
    intro g y hg hy
    rw [size_addBlock]
    rcases mem_addBlock.mp hy with hy | ⟨-, rfl⟩
    · rw [if_neg (hf.ne_of_mem hy)]
      exact hok.large hg hy
    · rw [if_pos rfl]
      exact hs
  cached := by
    intro y hy
    rcases mem_addBlock.mp hy with hy | ⟨e, -⟩
    · rw [size_addBlock, if_neg (hf.ne_of_mem hy)]
      exact hok.cached hy
    · cases e
  unused := fun h => by
    rw [show A.initialized = false from h] at hi
    cases hi

/-- A heap that holds something is initialised: the lists were empty before the setup. -/
theorem Ok.initialized_of_holds (hok : A.Ok P) {k : Cell} (hk : A.Holds k) :
    A.initialized = true := by
  cases hi : A.initialized with
  | true => rfl
  | false =>
    obtain ⟨h1, -, -, h4⟩ := hok.unused hi
    cases k with
    | slot c z i =>
      obtain ⟨hz, r, hr⟩ := hk
      exact absurd hr (free_of_freeCount_eq_length ((h1 hz).trans (hok.cells hz).symm))
    | block b =>
      rw [Holds, h4] at hk
      cases hk

/-- **Where the zone of a held slot is**, told by its count after the release: on the full list when
the slot is its only free one. -/
theorem Ok.on_full (hok : A.Ok P) (hz : A.HasZone c z) {r : Nat}
    (hslot : (A.slots z)[i]? = some (some r)) (hone : (A.setSlot z i none).freeCount z = 1) :
    z ∈ A.lists c.fullHead := by
  have hcount := freeCount_release hslot
  rcases hz with hz | hz
  · have := hok.hasFree hz
    omega
  · exact hz

/-- On the free list otherwise: a zone that had a free slot before the release. -/
theorem Ok.on_free (hok : A.Ok P) (hz : A.HasZone c z) {r : Nat}
    (hslot : (A.slots z)[i]? = some (some r)) (hne : (A.setSlot z i none).freeCount z ≠ 1) :
    z ∈ A.lists c.freeHead := by
  have hcount := freeCount_release hslot
  rcases hz with hz | hz
  · exact hz
  · have := hok.noFree hz
    omega

/-! ## Cells under the updates -/

/-- Every cell stays, with its room, and what is held stays held: what an allocation leaves of a
heap. -/
structure Grows (P : Nat) (A A' : AHeap) : Prop where
  held : ∀ {k}, A.Holds k → A'.Holds k
  cell : ∀ {k}, A.HasCell P k → A'.HasCell P k
  cap : ∀ {k}, A.HasCell P k → A'.cap k = A.cap k

/-- Every held cell but `k` stays held, with its room: what a release of `k` keeps. -/
def KeepsBut (k : Cell) (A A' : AHeap) : Prop :=
  ∀ {k'}, k' ≠ k → A.Holds k' → A'.Holds k' ∧ A'.cap k' = A.cap k'

theorem Grows.refl (P : Nat) (A : AHeap) : Grows P A A := ⟨id, id, fun _ => rfl⟩

theorem Grows.trans {A' A'' : AHeap} (h : Grows P A A') (h' : Grows P A' A'') : Grows P A A'' :=
  ⟨fun hk => h'.held (h.held hk), fun hk => h'.cell (h.cell hk),
    fun hk => (h'.cap (h.cell hk)).trans (h.cap hk)⟩

theorem Wf.hasCell (hw : A.Wf P) {k : Cell} (hk : A.Holds k) : A.HasCell P k := by
  cases k with
  | slot c z i =>
    obtain ⟨hz, r, hr⟩ := hk
    refine ⟨hz, ?_⟩
    rw [← hw.cells hz]
    exact (List.getElem?_eq_some_iff.mp hr).1
  | block b => exact ⟨_, rfl, hk⟩

/-- Growing, then releasing a cell, as a `realloc` that moves. -/
theorem Grows.trans_keepsBut {A' A'' : AHeap} {k : Cell} (h : Grows P A A') (hw : A.Wf P)
    (h' : KeepsBut k A' A'') : KeepsBut k A A'' := by
  intro k' hne hk
  obtain ⟨h1, h2⟩ := h' hne (h.held hk)
  exact ⟨h1, h2.trans (h.cap (hw.hasCell hk))⟩

theorem grows_addZone (hf : A.Fresh b) : Grows P A (A.addZone P c b) where
  held := by
    intro k hk
    cases k with
    | slot c' z i =>
      obtain ⟨hz, r, hr⟩ := hk
      refine ⟨hasZone_addZone.mpr (Or.inl hz), r, ?_⟩
      obtain ⟨h, -, hm⟩ := hz.mem
      rw [slots_addZone, if_neg (hf.ne_of_mem hm)]
      exact hr
    | block b' => exact mem_addZone.mpr (Or.inl hk)
  cell := by
    intro k hk
    cases k with
    | slot c' z i => exact ⟨hasZone_addZone.mpr (Or.inl hk.1), hk.2⟩
    | block b' =>
      obtain ⟨h, hc, hm⟩ := hk
      exact ⟨h, hc, mem_addZone.mpr (Or.inl hm)⟩
  cap := by
    intro k _
    cases k <;> rfl

theorem grows_addBlock (hf : A.Fresh b) : Grows P A (A.addBlock b s) where
  held := by
    intro k hk
    cases k with
    | slot c' z i => exact ⟨hasZone_addBlock.mpr hk.1, hk.2⟩
    | block b' => exact mem_addBlock.mpr (Or.inl hk)
  cell := by
    intro k hk
    cases k with
    | slot c' z i => exact ⟨hasZone_addBlock.mpr hk.1, hk.2⟩
    | block b' =>
      obtain ⟨h, hc, hm⟩ := hk
      exact ⟨h, hc, mem_addBlock.mpr (Or.inl hm)⟩
  cap := by
    intro k hk
    cases k with
    | slot c' z i => rfl
    | block b' =>
      obtain ⟨h, hc, hm⟩ := hk
      exact (size_addBlock b').trans (if_neg (hf.ne_of_mem hm))

theorem grows_take (hi : (A.slots z)[i]? = some none) : Grows P A (A.setSlot z i (some s)) where
  held := by
    intro k hk
    cases k with
    | slot c' y j =>
      obtain ⟨hz, r, hr⟩ := hk
      rw [Holds, slots_setSlot]
      refine ⟨hz, ?_⟩
      by_cases hy : y = z
      · subst hy
        have hij : i ≠ j := by
          rintro rfl
          rw [hi] at hr
          cases hr
        rw [if_pos rfl, List.getElem?_set_ne hij]
        exact ⟨r, hr⟩
      · rw [if_neg hy]
        exact ⟨r, hr⟩
    | block b' => exact hk
  cell := id
  cap := by
    intro k _
    cases k <;> rfl

theorem holds_take (hz : A.HasZone c z) (hi : (A.slots z)[i]? = some none) :
    (A.setSlot z i (some s)).Holds (.slot c z i) := by
  refine ⟨hz, s, ?_⟩
  rw [slots_setSlot_self]
  exact List.getElem?_set_self (List.getElem?_eq_some_iff.mp hi).1

theorem Wf.hasCell_move (hw : A.Wf P) (hx : x ∈ A.lists h) (hc : h'.cls = h.cls) {k : Cell} :
    (A.move x h h').HasCell P k ↔ A.HasCell P k := by
  cases k with
  | slot c z i => exact and_congr_left fun _ => hw.hasZone_move hx hc
  | block b => exact hw.mem_cls_move hx hc

/-- Moving a zone keeps what is held: a slot does not know which list its zone is on. -/
theorem Wf.holds_move (hw : A.Wf P) (hx : x ∈ A.lists h) (hc : h'.cls = h.cls)
    (hz : h.cls = some c) {k : Cell} : (A.move x h h').Holds k ↔ A.Holds k := by
  cases k with
  | slot c' z i => exact and_congr_left fun _ => hw.hasZone_move hx hc
  | block b =>
    have hne : ∀ {g : Head}, g.cls = some c → g ≠ .fullLargeBlocks := by
      rintro _ hg rfl
      cases hg
    rw [Holds, Holds, hw.mem_move hx]
    constructor
    · rintro (⟨-, hb⟩ | ⟨-, e⟩)
      · exact hb
      · exact absurd e.symm (hne (hc.trans hz))
    · intro hb
      refine Or.inl ⟨?_, hb⟩
      rintro rfl
      exact hne hz (hw.once hx hb)

theorem Wf.grows_move (hw : A.Wf P) (hx : x ∈ A.lists h) (hc : h'.cls = h.cls)
    (hz : h.cls = some c) : Grows P A (A.move x h h') where
  held := (hw.holds_move hx hc hz).mpr
  cell := (hw.hasCell_move hx hc).mpr
  cap := by
    intro k _
    cases k <;> rfl

/-- Handing out a cached block, which only adds to what is held. -/
theorem Wf.grows_reuse (hw : A.Wf P) (hx : x ∈ A.lists .freeLargeBlocks) :
    Grows P A (A.move x .freeLargeBlocks .fullLargeBlocks) where
  held := by
    intro k hk
    cases k with
    | slot c z i => exact ⟨(hw.hasZone_move hx Head.cls_large).mpr hk.1, hk.2⟩
    | block b =>
      refine (hw.mem_move hx).mpr ?_
      by_cases hb : b = x
      · exact Or.inr ⟨hb, rfl⟩
      · exact Or.inl ⟨hb, hk⟩
  cell := (hw.hasCell_move hx Head.cls_large).mpr
  cap := by
    intro k _
    cases k <;> rfl

/-- Releasing a slot keeps every other cell, those of its zone included. -/
theorem Wf.keepsBut_release (hw : A.Wf P) (hz : A.HasZone c z) :
    KeepsBut (.slot c z i) A (A.setSlot z i none) := by
  intro k hne hk
  cases k with
  | slot c' y j =>
    refine ⟨?_, rfl⟩
    obtain ⟨hy, r, hr⟩ := hk
    rw [Holds, slots_setSlot]
    refine ⟨hy, r, ?_⟩
    by_cases e : y = z
    · subst e
      obtain rfl := hw.cls_unique hz hy
      have hij : i ≠ j := by
        rintro rfl
        exact hne rfl
      rw [if_pos rfl, List.getElem?_set_ne hij]
      exact hr
    · rw [if_neg e]
      exact hr
  | block b => exact ⟨hk, rfl⟩

/-- Taking a zone without held slots out takes no held cell out. -/
theorem Wf.holds_detach_zone (hw : A.Wf P) (hx : z ∈ A.lists h) (hz : h.cls = some c)
    (hfree : A.freeCount z = c.cells P) {k : Cell} (hk : A.Holds k) : (A.detach z h).Holds k := by
  cases k with
  | slot c' y j =>
    obtain ⟨hy, r, hr⟩ := hk
    refine ⟨?_, r, hr⟩
    obtain ⟨g, hg, hm⟩ := hy.mem
    refine hasZone_of_mem hg (hw.mem_detach.mpr ⟨hm, ?_⟩)
    rintro ⟨-, rfl⟩
    have hlen := hw.cells (hasZone_of_mem hz hx)
    exact free_of_freeCount_eq_length (hfree.trans hlen.symm) hr
  | block b =>
    refine hw.mem_detach.mpr ⟨hk, ?_⟩
    rintro ⟨rfl, -⟩
    cases hz

/-- Taking a held block out, or to the cache, keeps every other cell. -/
theorem Wf.keepsBut_detach_block (hw : A.Wf P) (hb : b ∈ A.lists .fullLargeBlocks) :
    KeepsBut (.block b) A (A.detach b .fullLargeBlocks) := by
  intro k hne hk
  cases k with
  | slot c z i =>
    refine ⟨⟨?_, hk.2⟩, rfl⟩
    obtain ⟨g, hg, hm⟩ := hk.1.mem
    refine hasZone_of_mem hg (hw.mem_detach.mpr ⟨hm, ?_⟩)
    rintro ⟨rfl, -⟩
    cases hg
  | block b' =>
    refine ⟨hw.mem_detach.mpr ⟨hk, ?_⟩, rfl⟩
    rintro ⟨-, rfl⟩
    exact hne rfl

theorem Wf.keepsBut_cache (hw : A.Wf P) (hb : b ∈ A.lists .fullLargeBlocks) :
    KeepsBut (.block b) A (A.move b .fullLargeBlocks .freeLargeBlocks) := by
  intro k hne hk
  cases k with
  | slot c z i => exact ⟨⟨(hw.hasZone_move hb Head.cls_large.symm).mpr hk.1, hk.2⟩, rfl⟩
  | block b' =>
    refine ⟨(hw.mem_move hb).mpr (Or.inl ⟨?_, hk⟩), rfl⟩
    rintro rfl
    exact hne rfl

/-! ## Allocation -/

section Operations

variable {os : Os}

/-- The invariant of the heap and the system under it, which every call assumes and keeps. -/
structure Sound (P : Nat) (A : AHeap) (os : Os) : Prop where
  ok : A.Ok P
  backed : A.Backed P os

/-- What an allocation of `s` bytes may do: keep every cell there was, and return NULL or the
pointer of a new one that has the room. -/
structure Serves (P : Nat) (A : AHeap) (s : Nat) (r : Nat × AHeap × Os) : Prop where
  sound : r.2.1.Sound P r.2.2
  grows : Grows P A r.2.1
  result : r.1 = 0 ∨ ∃ k : Cell, k.addr P = r.1 ∧ ¬A.Holds k ∧ r.2.1.Holds k ∧ s ≤ r.2.1.cap k

theorem Serves.none (hs : A.Sound P os) : Serves P A s (0, A, os) :=
  ⟨hs, Grows.refl P A, Or.inl rfl⟩

theorem createZone_grows (hb : A.Backed P os) : Grows P A (A.createZone P os c).2.1 := by
  unfold createZone
  cases h : os.reply (c.total P) with
  | none => exact Grows.refl P A
  | some b => exact grows_addZone (hb.fresh h)

theorem createZone_sound (hP : ValidPage P) (hs : A.Sound P os)
    (hun : A.initialized = false → c = .tiny) :
    (A.createZone P os c).2.1.Sound P (A.createZone P os c).2.2 ∧
      Grows P A (A.createZone P os c).2.1 := by
  have hpos : 0 < c.cells P := by
    have := (hP.layout c).enough
    omega
  unfold createZone
  cases hr : os.reply (c.total P) with
  | none => exact ⟨⟨hs.ok, hs.backed.mmap⟩, Grows.refl P A⟩
  | some b =>
    have hf := hs.backed.fresh hr
    exact ⟨⟨hs.ok.addZone hf hpos hun, hs.backed.addZone hr⟩, grows_addZone hf⟩

theorem Sound.init (hs : A.Sound P os) : A.init.Sound P os := ⟨hs.ok.init, hs.backed.init⟩

theorem grows_init : Grows P A A.init :=
  ⟨fun {k} hk => by cases k <;> exact hk, fun {k} hk => by cases k <;> exact hk,
    fun {k} _ => by cases k <;> rfl⟩

/-- The small zone of the setup: mapped, it comes with the flag. -/
theorem createSmall_sound (hP : ValidPage P) (hs : A.Sound P os) :
    let r := A.createZone P os .small
    let A' := if r.1 then r.2.1.init else r.2.1
    A'.Sound P r.2.2 ∧ Grows P A A' := by
  obtain ⟨h1, h2⟩ := createZone_sound (c := .small) hP hs.init fun h => by cases h
  unfold createZone at *
  cases hr : os.reply (Cls.total P .small) with
  | none => exact ⟨⟨hs.ok, hs.backed.mmap⟩, Grows.refl P A⟩
  | some b =>
    rw [hr] at h1 h2
    exact ⟨h1, grows_init.trans h2⟩

theorem setup_sound (hP : ValidPage P) (hs : A.Sound P os) :
    (A.setup P os).2.1.Sound P (A.setup P os).2.2 ∧ Grows P A (A.setup P os).2.1 := by
  obtain ⟨h1, g1⟩ := createZone_sound (c := .tiny) hP hs fun _ => rfl
  unfold setup
  generalize A.createZone P os .tiny = r at *
  cases hr : r.1 with
  | false =>
    simp only [hr, Bool.false_eq_true, if_false]
    exact ⟨h1, g1⟩
  | true =>
    obtain ⟨h2, g2⟩ := createSmall_sound hP h1
    simp only [hr, if_true]
    generalize r.2.1.createZone P r.2.2 .small = r' at *
    cases hr' : r'.1 with
    | false =>
      simp only [hr', Bool.false_eq_true, if_false] at h2 g2 ⊢
      exact ⟨h2, g1.trans g2⟩
    | true =>
      simp only [hr', if_true] at h2 g2 ⊢
      exact ⟨h2, g1.trans g2⟩

theorem ready_sound (hP : ValidPage P) (hs : A.Sound P os) :
    (A.ready P os).2.1.Sound P (A.ready P os).2.2 ∧ Grows P A (A.ready P os).2.1 := by
  unfold ready
  split
  · exact ⟨hs, Grows.refl P A⟩
  · exact setup_sound hP hs

/-- After a setup that worked the heap is initialised, whether it was the first. -/
theorem ready_initialized (h : (A.ready P os).1 = true) :
    (A.ready P os).2.1.initialized = true := by
  unfold ready setup at *
  split at h
  · rename_i hi
    rw [if_pos hi]
    exact hi
  · rename_i hi
    rw [if_neg hi]
    generalize A.createZone P os .tiny = r at *
    by_cases hr : r.1 = true
    · simp only [hr, if_true] at h ⊢
      generalize r.2.1.createZone P r.2.2 .small = r' at *
      by_cases hr' : r'.1 = true
      · simp only [hr', if_true]
        rfl
      · rw [if_neg hr'] at h
        exact absurd h hr'
    · rw [if_neg hr] at h
      exact absurd h hr

/-- **Taking the first free slot** of the first zone of a free list. -/
theorem takeSlot_serves (hP : ValidPage P) (hs : A.Sound P os) (hi : A.initialized = true)
    (hz : z ∈ A.lists c.freeHead) (hslot : (A.slots z)[i]? = some none) (hsize : s ≤ c.size) :
    Serves P A s (A.takeSlot P os c z i s) := by
  have hzone : A.HasZone c z := Or.inl hz
  have hheld := holds_take (s := s) hzone hslot
  have hg := grows_take (P := P) (s := s) hslot
  have hnew : ¬A.Holds (.slot c z i) := by
    rintro ⟨-, r, hr⟩
    rw [hslot] at hr
    cases hr
  have hw : (A.setSlot z i (some s)).Wf P := hs.ok.toWf.setSlot
  unfold takeSlot
  by_cases h0 : (A.setSlot z i (some s)).freeCount z = 0
  · rw [if_pos h0]
    have hc := c.cls_full_free
    have hok₂ : ((A.setSlot z i (some s)).move z c.freeHead c.fullHead).Ok P := by
      refine hs.ok.setSlot_move hi hz c.cls_freeHead c.cls_fullHead (fun {c'} e => ?_) fun _ => h0
      cases c <;> cases c' <;> cases e
    have hs₂ : ((A.setSlot z i (some s)).move z c.freeHead c.fullHead).Sound P os :=
      ⟨hok₂, hs.backed.setSlot.move hw hz hc⟩
    have hg₂ : Grows P A ((A.setSlot z i (some s)).move z c.freeHead c.fullHead) :=
      hg.trans (hw.grows_move hz hc c.cls_freeHead)
    obtain ⟨h3, g3⟩ := createZone_sound (c := c) hP hs₂ fun h => by
      rw [show ((A.setSlot z i (some s)).move z c.freeHead c.fullHead).initialized = A.initialized
        from rfl, hi] at h
      cases h
    refine ⟨h3, hg₂.trans g3, ?_⟩
    by_cases hr : (((A.setSlot z i (some s)).move z c.freeHead c.fullHead).createZone P os c).1
    · refine Or.inr ⟨.slot c z i, (if_pos hr).symm, hnew, ?_, hsize⟩
      exact g3.held ((hw.holds_move hz hc c.cls_freeHead).mpr hheld)
    · exact Or.inl (if_neg hr)
  · rw [if_neg h0]
    refine ⟨⟨?_, hs.backed.setSlot⟩, hg, Or.inr ⟨.slot c z i, rfl, hnew, hheld, hsize⟩⟩
    refine hs.ok.setSlot hi (fun _ => by omega) fun {c'} hz' => ?_
    have := hs.ok.once hz hz'
    cases c <;> cases c' <;> cases this

theorem allocZone_serves (hP : ValidPage P) (hs : A.Sound P os) (hi : A.initialized = true)
    (hsize : s ≤ c.size) : Serves P A s (A.allocZone P os c s) := by
  unfold allocZone
  cases hl : A.lists c.freeHead with
  | nil => exact Serves.none hs
  | cons z rest =>
    have hz : z ∈ A.lists c.freeHead := first_mem hl
    obtain ⟨i, hleast, hslot, -⟩ := exists_leastFree (hs.ok.hasFree hz)
    simp only [hleast]
    exact takeSlot_serves hP hs hi hz hslot hsize

/-- The block a large request reuses is on the free list and large enough. -/
theorem fit_some (hf : A.fit s = some b) : b ∈ A.lists .freeLargeBlocks ∧ s ≤ A.size b :=
  ⟨List.mem_of_find?_eq_some hf, by simpa using List.find?_some hf⟩

theorem allocLarge_serves (hs : A.Sound P os) (hi : A.initialized = true) (hsize : 1024 < s)
    (hwrap : 48 + s < 2 ^ 64 ∨ os.reply (wrap (48 + s)) = none) :
    Serves P A s (A.allocLarge os s) := by
  unfold allocLarge
  cases hf : A.fit s with
  | some b =>
    obtain ⟨hb, hsz⟩ := fit_some hf
    have hw := hs.ok.toWf
    refine ⟨⟨?_, ?_⟩, hw.grows_reuse hb, Or.inr ⟨.block b, rfl, ?_, ?_, hsz⟩⟩
    · exact hs.ok.move_large hi hb rfl rfl fun h => by cases h
    · exact hs.backed.move hw hb Head.cls_large
    · intro hheld
      cases hw.once hb hheld
    · exact (hw.mem_move hb).mpr (Or.inr ⟨rfl, rfl⟩)
  | none =>
    cases hr : os.reply (wrap (48 + s)) with
    | none => exact ⟨⟨hs.ok, hs.backed.mmap⟩, Grows.refl P A, Or.inl rfl⟩
    | some b =>
      have hlt : 48 + s < 2 ^ 64 := by
        rcases hwrap with h | h
        · exact h
        · rw [hr] at h
          cases h
      rw [wrap_of_lt hlt] at hr ⊢
      have hfr := hs.backed.fresh hr
      refine ⟨⟨hs.ok.addBlock hi hfr hsize, hs.backed.addBlock hr⟩, grows_addBlock hfr,
        Or.inr ⟨.block b, rfl, hfr _, mem_addBlock.mpr (Or.inr ⟨rfl, rfl⟩), ?_⟩⟩
      exact (((size_addBlock b).trans (if_pos rfl)) : (A.addBlock b s).size b = s).ge

/-- **An allocation** keeps the invariant and every cell, and returns a new cell's pointer. -/
theorem alloc_serves (hP : ValidPage P) (hs : A.Sound P os) (hi : A.initialized = true)
    (hwrap : 48 + s < 2 ^ 64 ∨ os.reply (wrap (48 + s)) = none) :
    Serves P A s (A.alloc P os s) := by
  unfold alloc
  cases hc : Cls.ofSize s with
  | some c => exact allocZone_serves hP hs hi (Cls.ofSize_some hc)
  | none => exact allocLarge_serves hs hi (Cls.ofSize_none.mp hc) hwrap

theorem malloc_serves (hP : ValidPage P) (hs : A.Sound P os) :
    Serves P A s (A.malloc P os s) := by
  unfold malloc
  by_cases h : s = 0 ∨ ptrdiffMax < s
  · rw [if_pos h]
    exact Serves.none hs
  · rw [if_neg h]
    obtain ⟨h1, g1⟩ := ready_sound hP hs
    by_cases hr : (A.ready P os).1 = true
    · simp only [hr, if_true]
      have hlt : 48 + s < 2 ^ 64 := length_lt_of_le_ptrdiffMax (by omega)
      obtain ⟨h2, g2, hres⟩ := alloc_serves hP h1 (ready_initialized hr) (Or.inl hlt)
      refine ⟨h2, g1.trans g2, hres.imp id ?_⟩
      rintro ⟨k, hk, hnew, hk'⟩
      exact ⟨k, hk, fun hheld => hnew (g1.held hheld), hk'⟩
    · rw [if_neg hr]
      exact ⟨h1, g1, Or.inl rfl⟩

/-! ## Release -/

/-- What a release of `k` may do: the invariant holds, and every held cell but `k` is still held. -/
structure Releases (P : Nat) (A : AHeap) (k : Cell) (r : AHeap × Os) : Prop where
  sound : r.1.Sound P r.2
  keeps : KeepsBut k A r.1

theorem freeSlot_releases (hP : ValidPage P) (hs : A.Sound P os) (hk : A.Holds (.slot c z i)) :
    Releases P A (.slot c z i) (A.freeSlot P os c z i) := by
  have hi := hs.ok.initialized_of_holds hk
  obtain ⟨hz, r, hslot⟩ := hk
  have hw : (A.setSlot z i none).Wf P := hs.ok.toWf.setSlot
  have hcount := freeCount_release hslot
  have hkeep : KeepsBut (.slot c z i) A (A.setSlot z i none) := hs.ok.toWf.keepsBut_release hz
  have hmany := (hP.layout c).enough
  -- the slot came back, so the zone is on the list its count says
  have hstay : ∀ {c' : Cls}, z ∈ A.lists c'.fullHead → (A.setSlot z i none).freeCount z = 1 := by
    intro c' hm
    rw [hcount, hs.ok.noFree hm]
  unfold freeSlot
  by_cases hall : (A.setSlot z i none).freeCount z = c.cells P
  · rw [if_pos hall]
    have hzf : z ∈ A.lists c.freeHead := hs.ok.on_free hz hslot (by omega)
    have hok₁ : (A.setSlot z i none).Ok P :=
      hs.ok.setSlot hi (fun _ => by omega) fun hm => by
        have := hstay hm
        omega
    split
    · exact ⟨⟨hok₁, hs.backed.setSlot⟩, hkeep⟩
    · refine ⟨⟨hok₁.detach hi, (hs.backed.setSlot.detach hw).munmap (hw.fresh_detach hzf)⟩, ?_⟩
      intro k' hne hk'
      obtain ⟨h1, h2⟩ := hkeep hne hk'
      exact ⟨hw.holds_detach_zone hzf c.cls_freeHead hall h1, by cases k' <;> exact h2⟩
  · rw [if_neg hall]
    by_cases hone : (A.setSlot z i none).freeCount z = 1
    · rw [if_pos hone]
      have hzf : z ∈ A.lists c.fullHead := hs.ok.on_full hz hslot hone
      have hc := c.cls_full_free.symm
      refine ⟨⟨?_, hs.backed.setSlot.move hw hzf hc⟩, ?_⟩
      · refine hs.ok.setSlot_move hi hzf c.cls_fullHead c.cls_freeHead (fun _ => by omega)
          fun {c'} e => ?_
        cases c <;> cases c' <;> cases e
      · intro k' hne hk'
        obtain ⟨h1, h2⟩ := hkeep hne hk'
        exact ⟨(hw.holds_move hzf hc c.cls_fullHead).mpr h1, by cases k' <;> exact h2⟩
    · rw [if_neg hone]
      refine ⟨⟨hs.ok.setSlot hi (fun _ => by omega) fun hm => ?_, hs.backed.setSlot⟩, hkeep⟩
      exact absurd (hstay hm) hone

theorem freeLarge_releases (hs : A.Sound P os) (hk : A.Holds (.block b)) :
    Releases P A (.block b) (A.freeLarge os b) := by
  have hi := hs.ok.initialized_of_holds hk
  have hw := hs.ok.toWf
  have hb : b ∈ A.lists .fullLargeBlocks := hk
  unfold freeLarge
  split
  · refine ⟨⟨hs.ok.detach hi, ?_⟩, hw.keepsBut_detach_block hb⟩
    exact (hs.backed.detach hw).munmap (hw.fresh_detach hb)
  · refine ⟨⟨?_, hs.backed.move hw hb Head.cls_large.symm⟩, hw.keepsBut_cache hb⟩
    exact hs.ok.move_large hi hb rfl rfl fun _ => by omega

/-- **A release** keeps the invariant and every other held cell, whatever becomes of the node. -/
theorem free_releases (hP : ValidPage P) (hs : A.Sound P os) {k : Cell} (hk : A.Holds k) :
    Releases P A k (A.free P os k) := by
  cases k with
  | slot c z i => exact freeSlot_releases hP hs hk
  | block b => exact freeLarge_releases hs hk

/-! ## Resizing -/

/-- What resizing the held cell `k` to `s` bytes may do: fail and leave `k` alone, return `k`
itself, or return a new cell and release `k`. -/
structure Resizes (P : Nat) (A : AHeap) (k : Cell) (s : Nat) (r : Nat × AHeap × Os) : Prop where
  sound : r.2.1.Sound P r.2.2
  keeps : KeepsBut k A r.2.1
  result : (r.1 = 0 ∨ r.1 = k.addr P ∧ s ≤ A.cap k) ∧
      r.2.1.Holds k ∧ r.2.1.cap k = A.cap k ∨
    r.1 ≠ 0 ∧ ∃ k' : Cell, k'.addr P = r.1 ∧ ¬A.Holds k' ∧ r.2.1.Holds k' ∧ s ≤ r.2.1.cap k'

/-- Replacing a cell by what an allocation returned: a refused one keeps the old cell. -/
theorem Serves.replace (hP : ValidPage P) (hw : A.Wf P) {k : Cell} (hk : A.Holds k)
    {r : Nat × AHeap × Os} (hv : Serves P A s r) : Resizes P A k s (replace P k r) := by
  obtain ⟨h1, g1, hres⟩ := hv
  unfold AHeap.replace
  by_cases h0 : r.1 = 0
  · rw [if_pos h0]
    exact ⟨h1, fun _ hk' => ⟨g1.held hk', g1.cap (hw.hasCell hk')⟩,
      Or.inl ⟨Or.inl h0, g1.held hk, g1.cap (hw.hasCell hk)⟩⟩
  · rw [if_neg h0]
    obtain ⟨k', haddr, hnew, hheld, hsize⟩ := hres.resolve_left h0
    have hne : k' ≠ k := fun e => hnew (e ▸ hk)
    obtain ⟨h2, hkeep⟩ := free_releases hP h1 (g1.held hk)
    obtain ⟨hheld', hcap'⟩ := hkeep hne hheld
    exact ⟨h2, g1.trans_keepsBut hw hkeep, Or.inr ⟨h0, k', haddr, hnew, hheld', hcap' ▸ hsize⟩⟩

/-- Resizing in place leaves the heap as it is. -/
theorem Resizes.same (hs : A.Sound P os) {k : Cell} (hk : A.Holds k) (hfit : s ≤ A.cap k) :
    Resizes P A k s (k.addr P, A, os) :=
  ⟨hs, fun _ hk' => ⟨hk', rfl⟩, Or.inl ⟨Or.inr ⟨rfl, hfit⟩, hk, rfl⟩⟩

theorem realloc_resizes (hP : ValidPage P) (hs : A.Sound P os) {k : Cell} (hk : A.Holds k) :
    Resizes P A k s (A.realloc P os k s) := by
  unfold realloc
  by_cases hfit : s ≤ A.cap k
  · rw [if_pos hfit]
    exact Resizes.same hs hk hfit
  · rw [if_neg hfit]
    exact (malloc_serves hP hs).replace hP hs.ok.toWf hk

end Operations

end AHeap

end FtMalloc
