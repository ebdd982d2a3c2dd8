import FtMalloc.Abstract.Calls
import FtMalloc.Abstract.Supply

/-!
# Zones nobody uses

A zone all of whose slots are free is spare (`Spare`). `free` unmaps a zone that becomes spare
unless it is alone in its list, and `find_free_block` maps a zone whenever one fills up, without
looking at the rest of the list. `Wastes A s` is the request that fills a zone while its free list
has a spare one.

Results: `malloc_thrifty`, `free_thrifty` and `realloc_thrifty`: as long as no `mmap` fails and no
request is such a one, no class has two spare zones (`Thrifty`).
-/

namespace FtMalloc

namespace AHeap

/-- `z` is a zone of class `c` and all its slots are free: it serves nobody, and could be given
back. -/
def Spare (P : Nat) (A : AHeap) (c : Cls) (z : Nat) : Prop :=
  A.HasZone c z ∧ A.freeCount z = c.cells P

/-- No class has two spare zones, and a heap that is not set up has no zone. -/
structure Thrifty (P : Nat) (A : AHeap) : Prop where
  one : ∀ c z z', A.Spare P c z → A.Spare P c z' → z = z'
  bare : A.initialized = false → ∀ c z, ¬A.HasZone c z

/-- The request takes the last free slot of the first zone of a free list on which a zone is spare:
another one is mapped all the same (`malloc.c:147-160`). -/
def Wastes (P : Nat) (A : AHeap) (s : Nat) : Prop :=
  A.initialized = true ∧ ∃ c z i rest, Cls.ofSize s = some c ∧ A.lists c.freeHead = z :: rest ∧
    A.leastFree z = some i ∧ (A.setSlot z i (some s)).freeCount z = 0 ∧
    ∃ z' ∈ A.lists c.freeHead, A.Spare P c z'

variable {P : Nat} {A A' : AHeap} {os : Os} {x z i s b : Nat} {c : Cls} {h h' : Head} {k : Cell}

theorem Wf.freeCount_le (hw : A.Wf P) (hz : A.HasZone c z) : A.freeCount z ≤ c.cells P := by
  have hle := AHeap.freeCount_le (A := A) (z := z)
  rwa [hw.cells hz] at hle

/-- An initialised heap whose spare zones were spare stays thrifty: there is no second one. -/
theorem Thrifty.mono (hl : A.Thrifty P) (hi : A'.initialized = true)
    (h : ∀ c z, A'.Spare P c z → A.Spare P c z) : A'.Thrifty P where
  one := fun c z z' hz hz' => hl.one c z z' (h c z hz) (h c z' hz')
  bare := fun h0 => by
    rw [hi] at h0
    cases h0

/-- A new zone is spare, and the only one of its class if there was none. -/
theorem Thrifty.addZone (hl : A.Thrifty P) (hf : A.Fresh b) (hi : A.initialized = true)
    (hno : ∀ z, ¬A.Spare P c z) : (A.addZone P c b).Thrifty P where
  one := by
    have hold : ∀ {c' z}, (A.addZone P c b).Spare P c' z → A.Spare P c' z ∨ c' = c ∧ z = b := by
      rintro c' z ⟨hz, hcount⟩
      refine (hasZone_addZone.mp hz).imp (fun hz => ⟨hz, ?_⟩) id
      obtain ⟨g, -, hm⟩ := hz.mem
      rwa [freeCount_addZone_ne (hf.ne_of_mem hm)] at hcount
    intro c' z z' hz hz'
    rcases hold hz with h1 | ⟨rfl, rfl⟩
    · rcases hold hz' with h2 | ⟨rfl, rfl⟩
      · exact hl.one c' z z' h1 h2
      · exact absurd h1 (hno z)
    · rcases hold hz' with h2 | ⟨-, rfl⟩
      · exact absurd h2 (hno z')
      · rfl
  bare := fun h0 => by
    rw [show A.initialized = false from h0] at hi
    cases hi

/-! ## Allocation -/

/-- A zone one of whose slots is handed out is not spare. -/
theorem spare_take (hw : A.Wf P) (hslot : (A.slots z)[i]? = some none) {c' : Cls} {y : Nat}
    (hy : (A.setSlot z i (some s)).Spare P c' y) : A.Spare P c' y ∧ y ≠ z := by
  obtain ⟨hzone, hcount⟩ := hy
  by_cases e : y = z
  · subst e
    have htake := freeCount_take (s := s) hslot
    have hle := hw.freeCount_le (hasZone_setSlot.mp hzone)
    omega
  · rw [freeCount_setSlot_ne e] at hcount
    exact ⟨⟨hzone, hcount⟩, e⟩

theorem takeSlot_thrifty (hP : ValidPage P) (hs : A.Sound P os) (hi : A.initialized = true)
    (hl : A.Thrifty P) (hz : z ∈ A.lists c.freeHead) (hslot : (A.slots z)[i]? = some none)
    (hno : (A.setSlot z i (some s)).freeCount z = 0 →
      ∀ y ∈ A.lists c.freeHead, ¬A.Spare P c y) : (A.takeSlot P os c z i s).2.1.Thrifty P := by
  have hw := hs.ok.toWf
  have htake : ∀ {c' y}, (A.setSlot z i (some s)).Spare P c' y → A.Spare P c' y ∧ y ≠ z :=
    spare_take hw hslot
  have hmany := (hP.layout c).enough
  unfold takeSlot
  by_cases h0 : (A.setSlot z i (some s)).freeCount z = 0
  · rw [if_pos h0]
    have hw' : (A.setSlot z i (some s)).Wf P := hw.setSlot
    have hmove : ∀ c' y, ((A.setSlot z i (some s)).move z c.freeHead c.fullHead).Spare P c' y →
        A.Spare P c' y ∧ y ≠ z := fun c' y hy =>
      htake ⟨(hw'.hasZone_move hz c.cls_full_free).mp hy.1, hy.2⟩
    have hl₂ : ((A.setSlot z i (some s)).move z c.freeHead c.fullHead).Thrifty P :=
      hl.mono hi fun c' y hy => (hmove c' y hy).1
    have hb₁ : (A.setSlot z i (some s)).Backed P os := hs.backed.setSlot
    have hb₂ := hb₁.move hw' hz c.cls_full_free
    unfold createZone
    cases hr : os.reply (c.total P) with
    | none => exact hl₂
    | some b =>
      -- the other zones with all their slots would be on the free list
      refine hl₂.addZone (hb₂.fresh hr) hi fun y hy => ?_
      obtain ⟨hspare, -⟩ := hmove c y hy
      rcases hspare.1 with hfree | hfull
      · exact hno h0 y hfree hspare
      · have h1 := hs.ok.noFree hfull
        have h2 := hspare.2
        omega
  · rw [if_neg h0]
    exact hl.mono hi fun c' y hy => (htake hy).1

theorem alloc_thrifty (hP : ValidPage P) (hs : A.Sound P os) (hi : A.initialized = true)
    (hl : A.Thrifty P) (hno : ¬A.Wastes P s) : (A.alloc P os s).2.1.Thrifty P := by
  unfold alloc
  cases hc : Cls.ofSize s with
  | some c =>
    simp only [allocZone]
    cases hh : A.lists c.freeHead with
    | nil => exact hl
    | cons z rest =>
      have hz : z ∈ A.lists c.freeHead := first_mem hh
      obtain ⟨i, hleast, hslot, -⟩ := exists_leastFree (hs.ok.hasFree hz)
      simp only [hleast]
      refine takeSlot_thrifty hP hs hi hl hz hslot fun h0 y hy hspare => hno ?_
      exact ⟨hi, c, z, i, rest, hc, hh, hleast, h0, y, hy, hspare⟩
  | none =>
    have hw := hs.ok.toWf
    simp only [allocLarge]
    cases hf : A.fit s with
    | some b =>
      refine hl.mono hi fun c y hy => ⟨?_, hy.2⟩
      exact (hw.hasZone_move (fit_some hf).1 Head.cls_large).mp hy.1
    | none =>
      cases hr : os.reply (wrap (48 + s)) with
      | none => exact hl
      | some b => exact hl.mono hi fun c y hy => ⟨hasZone_addBlock.mp hy.1, hy.2⟩

/-- After the first setup each class has one zone, which is spare. -/
theorem setup_thrifty (hs : A.Sound P os) (hbare : ∀ c z, ¬A.HasZone c z) {b' : Nat}
    (hb : os.reply (Cls.tiny.total P) = some b)
    (hb' : (os.mmap (Cls.tiny.total P)).reply (Cls.small.total P) = some b') :
    ((A.addZone P .tiny b).addZone P .small b').init.Thrifty P := by
  have hf := hs.backed.fresh hb
  have hf' := (hs.backed.addZone hb).fresh hb'
  have hl : A.init.Thrifty P := ⟨fun c z _ hz => absurd hz.1 (hbare c z), fun h0 => by cases h0⟩
  have h1 : (A.init.addZone P .tiny b).Thrifty P :=
    hl.addZone hf rfl fun z hz => hbare _ z hz.1
  refine Thrifty.addZone (A := A.init.addZone P .tiny b) h1 hf' rfl fun z hz => ?_
  rcases hasZone_addZone.mp hz.1 with hz | ⟨hc, -⟩
  · exact hbare _ z hz
  · cases hc

/-- **A call of `malloc`** in a run without failures leaves no second spare zone, unless it wastes
one. -/
theorem malloc_thrifty (hP : ValidPage P) (hs : A.Sound P os) (hl : A.Thrifty P)
    (hu : (A.malloc P os s).2.2.Unrefused) (hno : ¬A.Wastes P s) :
    (A.malloc P os s).2.1.Thrifty P := by
  by_cases hsize : s = 0 ∨ ptrdiffMax < s
  · simp only [malloc, if_pos hsize]
    exact hl
  · cases hi : A.initialized with
    | true =>
      rw [malloc_of_initialized hsize hi]
      exact alloc_thrifty hP hs hi hl hno
    | false =>
      rw [malloc_of_uninitialized hsize hi] at hu ⊢
      cases hb : os.reply (Cls.tiny.total P) with
      | none =>
        rw [setup_tiny_refused hb] at hu
        exact absurd hb hu.granted
      | some b =>
        cases hb' : (os.mmap (Cls.tiny.total P)).reply (Cls.small.total P) with
        | none =>
          rw [setup_small_refused hb hb'] at hu
          exact absurd hb' hu.granted
        | some b' =>
          have hs₂ := (setup_sound hP hs).1
          rw [setup_granted hb hb'] at hs₂ ⊢
          dsimp only at hs₂
          have hl₂ := setup_thrifty hs (hl.bare hi) hb hb'
          refine alloc_thrifty hP hs₂ rfl hl₂ ?_
          rintro ⟨-, c, z, i, rest, -, hh, hleast, h0, -⟩
          exact setup_not_last hP hs hi hb hb' hh hleast h0

/-! ## Release -/

theorem freeSlot_thrifty (hP : ValidPage P) (hs : A.Sound P os) (hl : A.Thrifty P)
    (hk : A.Holds (.slot c z i)) : (A.freeSlot P os c z i).1.Thrifty P := by
  have hi := hs.ok.initialized_of_holds hk
  have hw := hs.ok.toWf
  have hw' : (A.setSlot z i none).Wf P := hw.setSlot
  obtain ⟨hz, r, hslot⟩ := hk
  have hmany := (hP.layout c).enough
  -- the other zones are as they were
  have hold : ∀ {c' y}, (A.setSlot z i none).Spare P c' y → y ≠ z → A.Spare P c' y := by
    rintro c' y ⟨hy, hn⟩ hne
    rw [freeCount_setSlot_ne hne] at hn
    exact ⟨hy, hn⟩
  unfold freeSlot
  by_cases hall : (A.setSlot z i none).freeCount z = c.cells P
  · rw [if_pos hall]
    have hzf : z ∈ A.lists c.freeHead := hs.ok.on_free hz hslot (by omega)
    by_cases halone : A.lists c.freeHead = [z]
    · rw [if_pos halone]
      -- alone on its list, it is the only spare zone of its class
      have honly : ∀ {y}, (A.setSlot z i none).Spare P c y → y = z := by
        intro y hy
        by_contra hne
        obtain ⟨hzone, hn⟩ := hold hy hne
        rcases hzone with hfree | hfull
        · rw [halone] at hfree
          exact hne (List.mem_singleton.mp hfree)
        · have := hs.ok.noFree hfull
          omega
      refine ⟨fun c' y y' hy hy' => ?_, fun h0 => ?_⟩
      · by_cases hc : c' = c
        · subst hc
          rw [honly hy, honly hy']
        · have hne : ∀ {y}, (A.setSlot z i none).Spare P c' y → y ≠ z := by
            rintro y hy rfl
            exact hc (hw.cls_unique hy.1 hz)
          exact hl.one c' y y' (hold hy (hne hy)) (hold hy' (hne hy'))
      · rw [show A.initialized = false from h0] at hi
        cases hi
    · rw [if_neg halone]
      refine hl.mono hi fun c' y hy => ?_
      obtain ⟨hy, hn⟩ := hy
      obtain ⟨g, hg, hm⟩ := hy.mem
      obtain ⟨hm, hne⟩ := hw'.mem_detach.mp hm
      refine hold ⟨hasZone_of_mem hg hm, hn⟩ ?_
      rintro rfl
      exact hne ⟨hw.once hm hzf, rfl⟩
  · rw [if_neg hall]
    have hstay : ∀ {c' y}, (A.setSlot z i none).Spare P c' y → A.Spare P c' y := by
      intro c' y hy
      refine hold hy ?_
      rintro rfl
      obtain rfl := hw.cls_unique hz hy.1
      exact hall hy.2
    by_cases hone : (A.setSlot z i none).freeCount z = 1
    · rw [if_pos hone]
      have hzf : z ∈ A.lists c.fullHead := hs.ok.on_full hz hslot hone
      refine hl.mono hi fun c' y hy => hstay ⟨?_, hy.2⟩
      exact (hw'.hasZone_move hzf c.cls_full_free.symm).mp hy.1
    · rw [if_neg hone]
      exact hl.mono hi fun c' y hy => hstay hy

/-- **A release** leaves no second spare zone: an emptied one is unmapped unless it is alone on its
list. -/
theorem free_thrifty (hP : ValidPage P) (hs : A.Sound P os) (hl : A.Thrifty P) (hk : A.Holds k) :
    (A.free P os k).1.Thrifty P := by
  cases k with
  | slot c z i => exact freeSlot_thrifty hP hs hl hk
  | block b =>
    have hi := hs.ok.initialized_of_holds hk
    have hw := hs.ok.toWf
    have hb : b ∈ A.lists .fullLargeBlocks := hk
    simp only [free, freeLarge]
    split
    · refine hl.mono hi fun c y hy => ⟨?_, hy.2⟩
      obtain ⟨g, hg, hm⟩ := hy.1.mem
      exact hasZone_of_mem hg (hw.mem_detach.mp hm).1
    · refine hl.mono hi fun c y hy => ⟨?_, hy.2⟩
      exact (hw.hasZone_move hb Head.cls_large.symm).mp hy.1

/-- **A resizing** in a run without failures leaves no second spare zone, unless it wastes one. -/
theorem realloc_thrifty (hP : ValidPage P) (hs : A.Sound P os) (hl : A.Thrifty P) (hk : A.Holds k)
    (hu : (A.realloc P os k s).2.2.Unrefused) (hno : A.cap k < s → ¬A.Wastes P s) :
    (A.realloc P os k s).2.1.Thrifty P := by
  unfold realloc at *
  by_cases hfit : s ≤ A.cap k
  · rw [if_pos hfit]
    exact hl
  · rw [if_neg hfit] at hu ⊢
    have hv := malloc_serves (s := s) hP hs
    have hl₁ := malloc_thrifty hP hs hl (hu.of_since (replace_since hk hv)) (hno (by omega))
    obtain ⟨h1, g1, -⟩ := hv
    generalize A.malloc P os s = r at *
    unfold replace
    by_cases h0 : r.1 = 0
    · rw [if_pos h0]
      exact hl₁
    · rw [if_neg h0]
      exact free_thrifty hP h1 hl₁ (g1.held hk)

end AHeap

end FtMalloc
