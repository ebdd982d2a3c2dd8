import FtMalloc.Abstract.Steps

/-!
# The system calls of the abstract operations

An allocation only maps (`Os.MapsOnly`); a release makes no system call, or unmaps one region
(`free_unmaps`). What each `mmap` keeps is therefore kept by every allocation.

* `malloc_mapsOnly`, `alloc_mapsOnly`, `free_unmaps`: the calls of each operation.
* `free_since`, `realloc_since`: the log of system calls only grows. `Os.Unrefused` says that there
  is no failed `mmap` in it.
* `alloc_initialized`, `free_initialized`: only the setup changes the flag.
* `Os.High`: nothing was mapped below `2 ^ 32` and nothing will be. Every operation keeps it.
-/

namespace FtMalloc

/-- Only `mmap` calls were made since, granted or refused: what an allocation does to the system. -/
inductive Os.MapsOnly (os : Os) : Os → Prop
  | refl : MapsOnly os os
  | mmap {os' : Os} (n : Nat) : MapsOnly os os' → MapsOnly os (os'.mmap n)

variable {P : Nat} {A : AHeap} {s n : Nat} {cl : Cls} {os os' os'' : Os} {k : Cell}

theorem Os.MapsOnly.one (os : Os) (n : Nat) : Os.MapsOnly os (os.mmap n) := (refl).mmap n

theorem Os.MapsOnly.trans (h : Os.MapsOnly os os') (h' : Os.MapsOnly os' os'') :
    Os.MapsOnly os os'' := by
  induction h' with
  | refl => exact h
  | mmap n _ ih => exact ih.mmap n

/-- The calls are in the log, and none of them is an `munmap`. -/
theorem Os.MapsOnly.log (h : Os.MapsOnly os os') :
    ∃ calls, os'.log = calls ++ os.log ∧ ∀ a n, SysCall.munmap a n ∉ calls := by
  induction h with
  | refl => exact ⟨[], rfl, fun _ _ => List.not_mem_nil⟩
  | @mmap os' n _ ih =>
    obtain ⟨calls, hl, hn⟩ := ih
    refine ⟨.mmap n (os'.reply n) :: calls, congrArg (SysCall.mmap n (os'.reply n) :: ·) hl, ?_⟩
    intro a k hm
    rcases List.mem_cons.mp hm with he | hm
    · cases he
    · exact hn a k hm

/-- The log has grown: the system has not forgotten a call. -/
def Os.Since (os os' : Os) : Prop := ∃ calls, os'.log = calls ++ os.log

/-- No `mmap` has failed, from the first call on: the condition of several results on whole runs. -/
def Os.Unrefused (os : Os) : Prop := ∀ n, SysCall.mmap n none ∉ os.log

theorem Os.Since.refl (os : Os) : os.Since os := ⟨[], rfl⟩

theorem Os.Since.trans (h : os.Since os') (h' : os'.Since os'') : os.Since os'' := by
  obtain ⟨l, hl⟩ := h
  obtain ⟨l', hl'⟩ := h'
  exact ⟨l' ++ l, by rw [hl', hl, List.append_assoc]⟩

theorem Os.MapsOnly.since (h : os.MapsOnly os') : os.Since os' := by
  obtain ⟨l, hl, -⟩ := h.log
  exact ⟨l, hl⟩

theorem Os.Unrefused.of_since (h : os.Since os') (hu : os'.Unrefused) : os.Unrefused := by
  obtain ⟨l, hl⟩ := h
  intro n hm
  refine hu n ?_
  rw [hl]
  exact List.mem_append_right _ hm

/-- A refused call is in the log, so a log without one shows that the call was granted. -/
theorem Os.Unrefused.granted (hu : (os.mmap n).Unrefused) : os.reply n ≠ none := by
  intro hr
  refine hu n ?_
  have hlog : (os.mmap n).log = .mmap n none :: os.log := by
    rw [← hr]
    rfl
  rw [hlog]
  exact List.mem_cons_self

/-- Every mapping, and every one the kernel still proposes, is at or above `2 ^ 32`. -/
structure Os.High (os : Os) : Prop where
  region : ∀ r ∈ os.regions, 2 ^ 32 ≤ r.base
  answer : ∀ b, some b ∈ os.answers → 2 ^ 32 ≤ b

theorem Os.High.mmap (h : os.High) : (os.mmap n).High where
  region := by
    cases hr : os.reply n with
    | none =>
      rw [mmap_refused hr]
      exact h.region
    | some b =>
      rw [mmap_granted hr]
      intro r hm
      rcases List.mem_cons.mp hm with rfl | hm
      · refine h.answer b ?_
        unfold reply at hr
        split at hr
        · rename_i b' _ he
          split at hr
          · cases hr
            rw [he]
            exact List.mem_cons_self
          · cases hr
        · cases hr
      · exact h.region r hm
  answer := fun b hb => h.answer b (List.mem_of_mem_tail hb)

theorem Os.High.maps (h : os.High) (hm : Os.MapsOnly os os') : os'.High := by
  induction hm with
  | refl => exact h
  | mmap n _ ih => exact ih.mmap

theorem Os.High.munmap (h : os.High) (r : Region) : (os.munmap r).High :=
  ⟨fun s hs => h.region s (List.mem_of_mem_erase hs), h.answer⟩

/-! ## The abstract operations -/

namespace AHeap

theorem createZone_mapsOnly : Os.MapsOnly os (A.createZone P os cl).2.2 := by
  unfold createZone
  cases os.reply (cl.total P) with
  | none => exact Os.MapsOnly.one os _
  | some b => exact Os.MapsOnly.one os _

theorem ready_mapsOnly : Os.MapsOnly os (A.ready P os).2.2 := by
  unfold ready setup
  split
  · exact Os.MapsOnly.refl
  · have h1 : Os.MapsOnly os (A.createZone P os .tiny).2.2 := createZone_mapsOnly
    generalize A.createZone P os .tiny = r at *
    by_cases hr : r.1 = true
    · simp only [hr, if_true]
      have h2 : Os.MapsOnly r.2.2 (r.2.1.createZone P r.2.2 .small).2.2 := createZone_mapsOnly
      generalize r.2.1.createZone P r.2.2 .small = r' at *
      split
      · exact h1.trans h2
      · exact h1.trans h2
    · rw [if_neg hr]
      exact h1

theorem takeSlot_mapsOnly {z i : Nat} : Os.MapsOnly os (A.takeSlot P os cl z i s).2.2 := by
  unfold takeSlot
  by_cases h0 : (A.setSlot z i (some s)).freeCount z = 0
  · rw [if_pos h0]
    exact createZone_mapsOnly
  · rw [if_neg h0]
    exact Os.MapsOnly.refl

theorem alloc_mapsOnly : Os.MapsOnly os (A.alloc P os s).2.2 := by
  unfold alloc
  cases Cls.ofSize s with
  | some cl =>
    simp only [allocZone]
    split
    · exact Os.MapsOnly.refl
    · split
      · exact Os.MapsOnly.refl
      · exact takeSlot_mapsOnly
  | none =>
    simp only [allocLarge]
    split
    · exact Os.MapsOnly.refl
    · split
      · exact Os.MapsOnly.one os _
      · exact Os.MapsOnly.one os _

theorem malloc_mapsOnly : Os.MapsOnly os (A.malloc P os s).2.2 := by
  unfold malloc
  by_cases h : s = 0 ∨ ptrdiffMax < s
  · rw [if_pos h]
    exact Os.MapsOnly.refl
  · rw [if_neg h]
    have h1 : Os.MapsOnly os (A.ready P os).2.2 := ready_mapsOnly
    generalize A.ready P os = r at *
    by_cases hr : r.1 = true
    · simp only [hr, if_true]
      exact h1.trans alloc_mapsOnly
    · rw [if_neg hr]
      exact h1

/-- A release makes no system call, or gives back the mapping of a node it took out. -/
theorem free_unmaps (hs : A.Sound P os) (hk : A.Holds k) :
    (A.free P os k).2 = os ∨ ∃ r ∈ os.regions, (A.free P os k).2 = os.munmap r := by
  cases k with
  | slot c z i =>
    simp only [free, freeSlot]
    split
    · split
      · exact Or.inl rfl
      · refine Or.inr ⟨⟨z, c.total P⟩, ?_, rfl⟩
        obtain ⟨h, hc, hm⟩ := hk.1.mem
        have hreg := hs.backed.region hm
        rwa [len_of_cls hc] at hreg
    · split
      · exact Or.inl rfl
      · exact Or.inl rfl
  | block b =>
    simp only [free, freeLarge]
    split
    · exact Or.inr ⟨⟨b, 48 + A.size b⟩, hs.backed.region (h := .fullLargeBlocks) hk, rfl⟩
    · exact Or.inl rfl

/-! ## The log -/

theorem free_since (hs : A.Sound P os) (hk : A.Holds k) : os.Since (A.free P os k).2 := by
  rcases free_unmaps hs hk with he | ⟨r, -, he⟩
  · rw [he]
    exact Os.Since.refl os
  · rw [he]
    exact ⟨[.munmap r.base r.len], rfl⟩

/-- The system calls of a resizing begin with those of its allocation. -/
theorem replace_since (hk : A.Holds k) (hv : Serves P A s r) :
    r.2.2.Since (replace P k r).2.2 := by
  unfold replace
  by_cases h0 : r.1 = 0
  · rw [if_pos h0]
    exact Os.Since.refl _
  · rw [if_neg h0]
    exact free_since hv.sound (hv.grows.held hk)

theorem realloc_since (hP : ValidPage P) (hs : A.Sound P os) (hk : A.Holds k) :
    os.Since (A.realloc P os k s).2.2 := by
  unfold realloc
  split
  · exact Os.Since.refl os
  · exact malloc_mapsOnly.since.trans (replace_since hk (malloc_serves hP hs))

/-! ## The flag -/

theorem createZone_initialized : (A.createZone P os cl).2.1.initialized = A.initialized := by
  unfold createZone
  cases os.reply (cl.total P) <;> rfl

theorem alloc_initialized : (A.alloc P os s).2.1.initialized = A.initialized := by
  unfold alloc
  cases Cls.ofSize s with
  | some cl =>
    simp only [allocZone, takeSlot]
    split
    · rfl
    · split
      · rfl
      · split
        · exact createZone_initialized
        · rfl
  | none =>
    simp only [allocLarge]
    split
    · rfl
    · split <;> rfl

theorem free_initialized : (A.free P os k).1.initialized = A.initialized := by
  cases k with
  | slot c z i =>
    simp only [free, freeSlot]
    split
    · split <;> rfl
    · split <;> rfl
  | block b =>
    simp only [free, freeLarge]
    split <;> rfl

/-! ## High addresses -/

theorem free_high (hs : A.Sound P os) (hk : A.Holds k) (h : os.High) : (A.free P os k).2.High := by
  rcases free_unmaps hs hk with he | ⟨r, -, he⟩
  · rw [he]
    exact h
  · rw [he]
    exact h.munmap r

theorem realloc_high (hP : ValidPage P) (hs : A.Sound P os) (hk : A.Holds k) (h : os.High) :
    (A.realloc P os k s).2.2.High := by
  have hv := malloc_serves (s := s) hP hs
  have hm : (A.malloc P os s).2.2.High := h.maps malloc_mapsOnly
  unfold realloc replace
  by_cases hfit : s ≤ A.cap k
  · rw [if_pos hfit]
    exact h
  · rw [if_neg hfit]
    by_cases h0 : (A.malloc P os s).1 = 0
    · rw [if_pos h0]
      exact hm
    · rw [if_neg h0]
      exact free_high hv.sound (hv.grows.held hk) hm

end AHeap

end FtMalloc
