import FtMalloc.Abstract.Calls
import FtMalloc.Abstract.Held
import Mathlib.Logic.Relation

/-!
# Sections

A call changes the heap in sections: the setup, an allocation, a release (`Turn`).

Results:
* `Turn.calls`: a section makes no `munmap`, or one that is its only system call.
* `Turn.listed`: when every mapping is a node's, so it is afterwards, also when one is refused.
* `Turn.fitting`: a slot's recorded size is no larger than the slot, also where one is lost.
* `malloc_turns`, `free_turns`, `realloc_turns`: the calls are sections, one after the other.
-/

namespace FtMalloc

/-- Two mappings are not at one address, since they do not overlap. -/
theorem Os.Ok.base_inj {os : Os} (ok : os.Ok) {r r' : Region} (hr : r ∈ os.regions)
    (hr' : r' ∈ os.regions) (he : r.base = r'.base) : r = r' := by
  by_contra hne
  have h1 := (ok.legal r hr).1
  have h2 := (ok.legal r' hr').1
  have h3 := ok.le_limit r
  have h4 := ok.le_limit r'
  rcases ok.apart r hr r' hr' hne with h | h <;> omega

namespace AHeap

/-- What a section leaves of the heap `A` and the system `os`: a setup, an allocation, a release or
nothing, whichever allocator it is a part of. -/
inductive Turn (P : Nat) (A : AHeap) (os : Os) : AHeap → Os → Prop
  | idle : Turn P A os A os
  | ready : Turn P A os (A.ready P os).2.1 (A.ready P os).2.2
  | alloc (s : Nat) : 48 + s < 2 ^ 64 → Turn P A os (A.alloc P os s).2.1 (A.alloc P os s).2.2
  | free {k : Cell} : A.Holds k → Turn P A os (A.free P os k).1 (A.free P os k).2

/-- Sections, one after the other, each from a sound heap. -/
def Turns (P : Nat) : AHeap × Os → AHeap × Os → Prop :=
  Relation.ReflTransGen fun x y => x.1.Sound P x.2 ∧ x.1.Turn P x.2 y.1 y.2

/-- No slot has a size written down that it has no room for. -/
def Fitting (A : AHeap) : Prop := ∀ {c z i n}, A.Records (.slot c z i) n → n ≤ c.size

/-- Every mapping is a node's: none has been lost track of, and none is left behind by a failure. -/
def Listed (A : AHeap) (os : Os) : Prop := ∀ r ∈ os.regions, ∃ h, r.base ∈ A.lists h

variable {P : Nat} {A A' : AHeap} {os os' : Os} {c : Cls} {s b x n : Nat} {h h' : Head} {k : Cell}

/-- **The system calls of a section** are `mmap` calls, or one `munmap` of a mapping that is in
place. -/
theorem Turn.calls (ht : A.Turn P os A' os') (hs : A.Sound P os) :
    Os.MapsOnly os os' ∨ ∃ r ∈ os.regions, os' = os.munmap r := by
  cases ht with
  | idle => exact Or.inl .refl
  | ready => exact Or.inl ready_mapsOnly
  | alloc s => exact Or.inl alloc_mapsOnly
  | free hk =>
    rcases free_unmaps hs hk with he | hr
    · rw [he]
      exact Or.inl .refl
    · exact Or.inr hr

/-! ## No mapping is lost -/

theorem Listed.empty (hr : os.regions = []) : AHeap.empty.Listed os := fun r hm => by
  rw [hr] at hm
  exact absurd hm List.not_mem_nil

/-- The nodes are still there, possibly on other lists. -/
theorem Listed.mono (hl : A.Listed os) (hsub : ∀ h, ∀ x ∈ A.lists h, ∃ h', x ∈ A'.lists h') :
    A'.Listed os := fun r hr => by
  obtain ⟨h, hm⟩ := hl r hr
  exact hsub h _ hm

theorem Listed.refused (hl : A.Listed os) (hr : os.reply n = none) : A.Listed (os.mmap n) :=
  fun r hm => hl r (Os.mmap_refused hr ▸ hm)

/-- A new node in a new mapping keeps the two in step. -/
theorem Listed.append (hl : A.Listed os) (hr : os.reply n = some b) :
    (A.append b h).Listed (os.mmap n) := by
  intro r hm
  rw [Os.mmap_granted hr] at hm
  rcases List.mem_cons.mp hm with rfl | hm
  · exact ⟨h, mem_append.mpr (Or.inr ⟨rfl, rfl⟩)⟩
  · obtain ⟨g, hg⟩ := hl r hm
    exact ⟨g, mem_append.mpr (Or.inl hg)⟩

theorem Listed.move (hl : A.Listed os) (hw : A.Wf P) (hx : x ∈ A.lists h) :
    (A.move x h h').Listed os := by
  refine hl.mono fun g y hy => ?_
  by_cases he : y = x
  · exact ⟨h', (hw.mem_move hx).mpr (Or.inr ⟨he, rfl⟩)⟩
  · exact ⟨g, (hw.mem_move hx).mpr (Or.inl ⟨he, hy⟩)⟩

/-- A node and its mapping go together when a node is unmapped. -/
theorem Listed.detach (hl : A.Listed os) (hw : A.Wf P) (hb : A.Backed P os) (hx : x ∈ A.lists h) :
    (A.detach x h).Listed (os.munmap ⟨x, A.len P h x⟩) := by
  intro r hm
  obtain ⟨hne, hr⟩ := hb.system.mem_munmap.mp hm
  obtain ⟨g, hg⟩ := hl r hr
  refine ⟨g, hw.mem_detach.mpr ⟨hg, fun he => hne ?_⟩⟩
  exact hb.system.base_inj hr (hb.region hx) he.2

/-! ### The sections -/

theorem createZone_listed (hl : A.Listed os) :
    (A.createZone P os c).2.1.Listed (A.createZone P os c).2.2 := by
  unfold createZone
  cases hr : os.reply (c.total P) with
  | none => exact hl.refused hr
  | some b => exact Listed.append (A := { A with slots := _ }) hl hr

theorem ready_listed (hl : A.Listed os) :
    (A.ready P os).2.1.Listed (A.ready P os).2.2 := by
  unfold ready setup
  by_cases hi : A.initialized = true
  · rw [if_pos hi]
    exact hl
  · rw [if_neg hi]
    have h1 : (A.createZone P os .tiny).2.1.Listed (A.createZone P os .tiny).2.2 :=
      createZone_listed hl
    generalize A.createZone P os .tiny = r at *
    by_cases hr : r.1 = true
    · simp only [if_pos hr]
      have h2 : (r.2.1.createZone P r.2.2 .small).2.1.Listed
          (r.2.1.createZone P r.2.2 .small).2.2 := createZone_listed h1
      split
      · exact h2
      · exact h2
    · simp only [if_neg hr]
      exact h1

theorem takeSlot_listed {z i : Nat} (hl : A.Listed os) (hw : A.Wf P)
    (hz : z ∈ A.lists c.freeHead) :
    (A.takeSlot P os c z i s).2.1.Listed (A.takeSlot P os c z i s).2.2 := by
  have hset : (A.setSlot z i (some s)).Listed os := hl
  unfold takeSlot
  by_cases h0 : (A.setSlot z i (some s)).freeCount z = 0
  · simp only [if_pos h0]
    exact createZone_listed (hset.move hw.setSlot hz)
  · simp only [if_neg h0]
    exact hset

theorem alloc_listed (hl : A.Listed os) (hw : A.Wf P) :
    (A.alloc P os s).2.1.Listed (A.alloc P os s).2.2 := by
  unfold alloc
  cases Cls.ofSize s with
  | some c =>
    simp only [allocZone]
    cases hz : A.lists c.freeHead with
    | nil => exact hl
    | cons z rest =>
      simp only
      cases A.leastFree z with
      | none => exact hl
      | some i => exact takeSlot_listed hl hw (first_mem hz)
  | none =>
    simp only [allocLarge]
    cases hfit : A.fit s with
    | some b => exact hl.move hw (fit_some hfit).1
    | none =>
      simp only
      cases hr : os.reply (wrap (48 + s)) with
      | none => exact hl.refused hr
      | some b => exact Listed.append (A := { A with size := _ }) hl hr

theorem freeSlot_listed {z i : Nat} (hl : A.Listed os) (hP : ValidPage P) (hs : A.Sound P os)
    (hk : A.Holds (.slot c z i)) :
    (A.freeSlot P os c z i).1.Listed (A.freeSlot P os c z i).2 := by
  have hw : (A.setSlot z i none).Wf P := hs.ok.toWf.setSlot
  have hset : (A.setSlot z i none).Listed os := hl
  have hmany := (hP.layout c).enough
  obtain ⟨hz, r, hslot⟩ := hk
  unfold freeSlot
  by_cases hall : (A.setSlot z i none).freeCount z = c.cells P
  · simp only [if_pos hall]
    by_cases hone : A.lists c.freeHead = [z]
    · simp only [if_pos hone]
      exact hset
    · simp only [if_neg hone]
      have hzf : z ∈ (A.setSlot z i none).lists c.freeHead :=
        hs.ok.on_free hz hslot (by omega)
      have hdet := hset.detach hw hs.backed.setSlot hzf
      rwa [len_of_cls c.cls_freeHead] at hdet
  · simp only [if_neg hall]
    by_cases hone : (A.setSlot z i none).freeCount z = 1
    · simp only [if_pos hone]
      exact hset.move hw (hs.ok.on_full hz hslot hone)
    · simp only [if_neg hone]
      exact hset

theorem free_listed (hl : A.Listed os) (hP : ValidPage P) (hs : A.Sound P os) (hk : A.Holds k) :
    (A.free P os k).1.Listed (A.free P os k).2 := by
  cases k with
  | slot c z i => exact freeSlot_listed hl hP hs hk
  | block b =>
    simp only [free, freeLarge]
    split
    · exact hl.detach (h := .fullLargeBlocks) hs.ok.toWf hs.backed hk
    · exact hl.move hs.ok.toWf hk

/-- **No section loses a mapping**, whichever of its `mmap` calls fail. -/
theorem Turn.listed (ht : A.Turn P os A' os') (hP : ValidPage P) (hs : A.Sound P os)
    (hl : A.Listed os) : A'.Listed os' := by
  cases ht with
  | idle => exact hl
  | ready => exact ready_listed hl
  | alloc s => exact alloc_listed hl hs.ok.toWf
  | free hk => exact free_listed hl hP hs hk

/-! ## Sizes that fit -/

theorem Fitting.empty : AHeap.empty.Fitting := by
  rintro c z i n ⟨hz | hz, -⟩
  · exact absurd hz List.not_mem_nil
  · exact absurd hz List.not_mem_nil

/-- What an allocation writes down fits, also where the slot is not returned. -/
theorem alloc_fitting (hs : A.Sound P os) (hf : A.Fitting) : (A.alloc P os s).2.1.Fitting := by
  intro c z i n hk
  unfold alloc at hk
  cases hc : Cls.ofSize s with
  | some c' =>
    simp only [hc, allocZone] at hk
    cases hl : A.lists c'.freeHead with
    | nil =>
      simp only [hl] at hk
      exact hf hk
    | cons y rest =>
      simp only [hl] at hk
      cases hi : A.leastFree y with
      | none =>
        simp only [hi] at hk
        exact hf hk
      | some j =>
        simp only [hi] at hk
        rcases takeSlot_records hs (first_mem hl) hk with h | ⟨he, rfl⟩
        · exact hf h
        · injection he with hcls
          exact hcls ▸ Cls.ofSize_some hc
  | none =>
    simp only [hc, allocLarge] at hk
    cases hfit : A.fit s with
    | some b =>
      simp only [hfit] at hk
      rcases hs.ok.toWf.records_of_move_large (fit_some hfit).1 Head.cls_large hk with
        ⟨h, -⟩ | ⟨-, he, -⟩
      · exact hf h
      · cases he
    | none =>
      simp only [hfit] at hk
      cases hr : os.reply (wrap (48 + s)) with
      | none =>
        simp only [hr] at hk
        exact hf hk
      | some b =>
        simp only [hr] at hk
        rcases records_of_addBlock (hs.backed.fresh hr) hk with h | ⟨he, -⟩
        · exact hf h
        · cases he

/-- **No section writes down more than fits**: a slot's size is at most that of its class. -/
theorem Turn.fitting (ht : A.Turn P os A' os') (hs : A.Sound P os) (hf : A.Fitting) :
    A'.Fitting := by
  cases ht with
  | idle => exact hf
  | ready => exact fun hk => hf (ready_records hk)
  | alloc s => exact alloc_fitting hs hf
  | free hk => exact fun hk' => hf (free_records hs hk hk').2

/-! ## Calls -/

theorem free_turns (hs : A.Sound P os) (hk : A.Holds k) : Turns P (A, os) (A.free P os k) :=
  .single ⟨hs, .free hk⟩

theorem malloc_turns (hP : ValidPage P) (hs : A.Sound P os) :
    Turns P (A, os) (A.malloc P os s).2 := by
  unfold malloc
  by_cases h : s = 0 ∨ ptrdiffMax < s
  · rw [if_pos h]
    exact .refl
  · rw [if_neg h]
    have h1 : Turns P (A, os) (A.ready P os).2 := .single ⟨hs, .ready⟩
    have hs₁ := (ready_sound hP hs).1
    have hsize : 48 + s < 2 ^ 64 := length_lt_of_le_ptrdiffMax (by omega)
    by_cases hr : (A.ready P os).1 = true
    · simp only [if_pos hr]
      exact h1.tail ⟨hs₁, .alloc s hsize⟩
    · simp only [if_neg hr]
      exact h1

theorem realloc_turns (hP : ValidPage P) (hs : A.Sound P os) (hk : A.Holds k) :
    Turns P (A, os) (A.realloc P os k s).2 := by
  unfold realloc replace
  by_cases hfit : s ≤ A.cap k
  · rw [if_pos hfit]
    exact .refl
  · rw [if_neg hfit]
    have hv := malloc_serves (s := s) hP hs
    have hm : Turns P (A, os) (A.malloc P os s).2 := malloc_turns hP hs
    by_cases h0 : (A.malloc P os s).1 = 0
    · rw [if_pos h0]
      exact hm
    · rw [if_neg h0]
      exact hm.tail ⟨hv.sound, .free (hv.grows.held hk)⟩

end AHeap

end FtMalloc
