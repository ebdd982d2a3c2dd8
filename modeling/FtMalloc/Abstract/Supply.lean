import FtMalloc.Abstract.Steps

/-!
# When there is a block to return

`Denied P A os s r` lists the ways a call `malloc(s)` on the heap `A` returns NULL, each with the
heap and the system `r` it leaves (`malloc.c:91-224`). Three of them leave the heap changed:

* `small`: the first call of all maps the tiny zone, then the small zone is refused
  (`setup_global_heap`).
* `block`: the first call completes the setup, then the large block is refused.
* `refill`: the last free slot of the first zone of a free list is taken, then the next zone is
  refused (`find_free_block`).

An initialised heap is `Stocked` when no class has an empty free list. Only `refill` ends that.

Results:
* `denied_of_null` and `Denied.malloc`: `malloc` returns NULL in these ways and in no other.
* `free_nonempty`: a release leaves the free list of its class nonempty.
* `malloc_stocked`, `free_stocked`, `realloc_stocked`: the heap stays stocked unless a refill is
  refused.
-/

namespace FtMalloc

namespace AHeap

/-- **The ways `malloc(s)` returns NULL**, with what each leaves behind. -/
inductive Denied (P : Nat) (A : AHeap) (os : Os) (s : Nat) : AHeap × Os → Prop
  | size : s = 0 ∨ ptrdiffMax < s → Denied P A os s (A, os)
  | tiny : ¬(s = 0 ∨ ptrdiffMax < s) → A.initialized = false →
      os.reply (Cls.tiny.total P) = none → Denied P A os s (A, os.mmap (Cls.tiny.total P))
  | small {b : Nat} : ¬(s = 0 ∨ ptrdiffMax < s) → A.initialized = false →
      os.reply (Cls.tiny.total P) = some b →
      (os.mmap (Cls.tiny.total P)).reply (Cls.small.total P) = none →
      Denied P A os s
        (A.addZone P .tiny b, (os.mmap (Cls.tiny.total P)).mmap (Cls.small.total P))
  | block {b b' : Nat} : ¬(s = 0 ∨ ptrdiffMax < s) → 1024 < s → A.initialized = false →
      os.reply (Cls.tiny.total P) = some b →
      (os.mmap (Cls.tiny.total P)).reply (Cls.small.total P) = some b' →
      ((os.mmap (Cls.tiny.total P)).mmap (Cls.small.total P)).reply (48 + s) = none →
      Denied P A os s (((A.addZone P .tiny b).addZone P .small b').init,
        ((os.mmap (Cls.tiny.total P)).mmap (Cls.small.total P)).mmap (48 + s))
  | empty {c : Cls} : ¬(s = 0 ∨ ptrdiffMax < s) → A.initialized = true → Cls.ofSize s = some c →
      A.lists c.freeHead = [] → Denied P A os s (A, os)
  | refill {c : Cls} {z i : Nat} {rest : List Nat} : ¬(s = 0 ∨ ptrdiffMax < s) →
      A.initialized = true → Cls.ofSize s = some c → A.lists c.freeHead = z :: rest →
      A.leastFree z = some i → (A.setSlot z i (some s)).freeCount z = 0 →
      os.reply (c.total P) = none →
      Denied P A os s ((A.setSlot z i (some s)).move z c.freeHead c.fullHead, os.mmap (c.total P))
  | large : ¬(s = 0 ∨ ptrdiffMax < s) → 1024 < s → A.initialized = true → A.fit s = none →
      os.reply (48 + s) = none → Denied P A os s (A, os.mmap (48 + s))

variable {P : Nat} {A : AHeap} {os : Os} {s z i b b' : Nat} {c : Cls} {r : AHeap × Os}

/-! ## The parts of the call -/

theorem createZone_refused (h : os.reply (c.total P) = none) :
    A.createZone P os c = (false, A, os.mmap (c.total P)) := by
  simp only [createZone, h]

theorem createZone_granted (h : os.reply (c.total P) = some b) :
    A.createZone P os c = (true, A.addZone P c b, os.mmap (c.total P)) := by
  simp only [createZone, h]

theorem slotAddr_ne_zero : c.slotAddr P z i ≠ 0 := by
  unfold Cls.slotAddr
  omega

theorem setup_tiny_refused (h : os.reply (Cls.tiny.total P) = none) :
    A.setup P os = (false, A, os.mmap (Cls.tiny.total P)) := by
  simp only [setup, createZone_refused h, Bool.false_eq_true, if_false]

theorem setup_small_refused (h : os.reply (Cls.tiny.total P) = some b)
    (h' : (os.mmap (Cls.tiny.total P)).reply (Cls.small.total P) = none) :
    A.setup P os = (false, A.addZone P .tiny b,
      (os.mmap (Cls.tiny.total P)).mmap (Cls.small.total P)) := by
  simp only [setup, createZone_granted h, if_true, createZone_refused h', Bool.false_eq_true,
    if_false]

theorem setup_granted (h : os.reply (Cls.tiny.total P) = some b)
    (h' : (os.mmap (Cls.tiny.total P)).reply (Cls.small.total P) = some b') :
    A.setup P os = (true, ((A.addZone P .tiny b).addZone P .small b').init,
      (os.mmap (Cls.tiny.total P)).mmap (Cls.small.total P)) := by
  simp only [setup, createZone_granted h, if_true, createZone_granted h']

theorem malloc_of_initialized (h : ¬(s = 0 ∨ ptrdiffMax < s)) (hi : A.initialized = true) :
    A.malloc P os s = A.alloc P os s := by
  simp only [malloc, if_neg h, ready, hi, if_true]

theorem malloc_of_uninitialized (h : ¬(s = 0 ∨ ptrdiffMax < s)) (hi : A.initialized = false) :
    A.malloc P os s = if (A.setup P os).1 then (A.setup P os).2.1.alloc P (A.setup P os).2.2 s
      else (0, (A.setup P os).2) := by
  simp only [malloc, if_neg h, ready, hi, Bool.false_eq_true, if_false]

theorem alloc_zone (h : Cls.ofSize s = some c) : A.alloc P os s = A.allocZone P os c s := by
  simp only [alloc, h]

theorem alloc_large (h : 1024 < s) : A.alloc P os s = A.allocLarge os s := by
  simp only [alloc, Cls.ofSize_none.mpr h]

/-- The length of a large block's mapping does not wrap. -/
theorem wrap_of_size (h : ¬(s = 0 ∨ ptrdiffMax < s)) : wrap (48 + s) = 48 + s :=
  wrap_of_lt (length_lt_of_le_ptrdiffMax (by omega))

/-- After a complete setup there is no block to reuse: both lists of large blocks are empty. -/
theorem fit_setup (hs : A.Sound P os) (hi : A.initialized = false) :
    ((A.addZone P .tiny b).addZone P .small b').init.fit s = none := by
  have hnil : ((A.addZone P .tiny b).addZone P .small b').init.lists .freeLargeBlocks = [] :=
    (hs.ok.unused hi).2.2.1
  unfold fit
  rw [hnil]
  rfl

/-! ## NULL in one of these ways -/

/-- **A class returns NULL** for want of a zone, or when its last slot goes and no zone comes. -/
theorem allocZone_null (hs : A.Sound P os) (h : (A.allocZone P os c s).1 = 0) :
    A.lists c.freeHead = [] ∧ (A.allocZone P os c s).2 = (A, os) ∨
      ∃ z i rest, A.lists c.freeHead = z :: rest ∧ A.leastFree z = some i ∧
        (A.setSlot z i (some s)).freeCount z = 0 ∧ os.reply (c.total P) = none ∧
        (A.allocZone P os c s).2 =
          ((A.setSlot z i (some s)).move z c.freeHead c.fullHead, os.mmap (c.total P)) := by
  unfold allocZone at *
  cases hl : A.lists c.freeHead with
  | nil => exact Or.inl ⟨rfl, rfl⟩
  | cons z rest =>
    have hz : z ∈ A.lists c.freeHead := first_mem hl
    obtain ⟨i, hleast, -⟩ := exists_leastFree (hs.ok.hasFree hz)
    simp only [hl, hleast, takeSlot] at h ⊢
    refine Or.inr ⟨z, i, rest, rfl, hleast, ?_⟩
    by_cases h0 : (A.setSlot z i (some s)).freeCount z = 0
    · simp only [h0, if_true] at h ⊢
      cases hr : os.reply (c.total P) with
      | none => exact ⟨trivial, rfl, by rw [createZone_refused hr]⟩
      | some b =>
        rw [createZone_granted hr, if_pos rfl] at h
        exact absurd h slotAddr_ne_zero
    · rw [if_neg h0] at h
      exact absurd h slotAddr_ne_zero

theorem allocLarge_null (h : (A.allocLarge os s).1 = 0) (hw : wrap (48 + s) = 48 + s) :
    A.fit s = none ∧ os.reply (48 + s) = none ∧ (A.allocLarge os s).2 = (A, os.mmap (48 + s)) := by
  unfold allocLarge at *
  cases hf : A.fit s with
  | some b =>
    rw [hf] at h
    cases h
  | none =>
    simp only [hf, hw] at h ⊢
    cases hr : os.reply (48 + s) with
    | none => exact ⟨trivial, rfl, rfl⟩
    | some b =>
      rw [hr] at h
      cases h

/-- Every zone a complete setup leaves on a free list has all its slots. -/
theorem freeCount_setup (hs : A.Sound P os) (hi : A.initialized = false)
    (hb : os.reply (Cls.tiny.total P) = some b)
    (hb' : (os.mmap (Cls.tiny.total P)).reply (Cls.small.total P) = some b')
    (hz : z ∈ ((A.addZone P .tiny b).addZone P .small b').init.lists c.freeHead) :
    ((A.addZone P .tiny b).addZone P .small b').init.freeCount z = c.cells P := by
  have hf := hs.backed.fresh hb
  have hf' := (hs.backed.addZone hb).fresh hb'
  change ((A.addZone P .tiny b).addZone P .small b').freeCount z = _
  rcases mem_addZone.mp hz with hz | ⟨hc, rfl⟩
  · rw [freeCount_addZone_ne (hf'.ne_of_mem hz)]
    rcases mem_addZone.mp hz with hz | ⟨hc, rfl⟩
    · rw [freeCount_addZone_ne (hf.ne_of_mem hz)]
      exact (hs.ok.unused hi).1 (Or.inl hz)
    · rw [freeCount_addZone_self]
      cases c with
      | tiny => rfl
      | small => cases hc
  · rw [freeCount_addZone_self]
    cases c with
    | small => rfl
    | tiny => cases hc

/-- A zone just set up has slots to spare: taking one is not taking the last one. -/
theorem setup_not_last (hP : ValidPage P) (hs : A.Sound P os) (hi : A.initialized = false)
    (hb : os.reply (Cls.tiny.total P) = some b)
    (hb' : (os.mmap (Cls.tiny.total P)).reply (Cls.small.total P) = some b') {rest : List Nat}
    (hl : ((A.addZone P .tiny b).addZone P .small b').init.lists c.freeHead = z :: rest)
    (hleast : ((A.addZone P .tiny b).addZone P .small b').init.leastFree z = some i) :
    (((A.addZone P .tiny b).addZone P .small b').init.setSlot z i (some s)).freeCount z ≠ 0 := by
  have hcount := freeCount_setup hs hi hb hb' (first_mem hl)
  have htake := freeCount_take (s := s) (leastFree_slot hleast).2
  have hmany := (hP.layout c).enough
  omega

/-- A class has a zone after a complete setup, on its free list. -/
theorem lists_setup_ne_nil :
    ((A.addZone P .tiny b).addZone P .small b').init.lists c.freeHead ≠ [] := by
  cases c with
  | tiny =>
    have hb : b ∈ ((A.addZone P .tiny b).addZone P .small b').lists Cls.tiny.freeHead :=
      mem_addZone.mpr (Or.inl (mem_addZone.mpr (Or.inr ⟨rfl, rfl⟩)))
    exact List.ne_nil_of_mem hb
  | small =>
    have hb : b' ∈ ((A.addZone P .tiny b).addZone P .small b').lists Cls.small.freeHead :=
      mem_addZone.mpr (Or.inr ⟨rfl, rfl⟩)
    exact List.ne_nil_of_mem hb

/-- **`malloc` returns NULL** in one of the ways of `Denied`, and leaves what that way says. -/
theorem denied_of_null (hP : ValidPage P) (hs : A.Sound P os) (h : (A.malloc P os s).1 = 0) :
    Denied P A os s (A.malloc P os s).2 := by
  by_cases hsize : s = 0 ∨ ptrdiffMax < s
  · simp only [malloc, if_pos hsize]
    exact Denied.size hsize
  · cases hi : A.initialized with
    | true =>
      rw [malloc_of_initialized hsize hi] at h ⊢
      cases hc : Cls.ofSize s with
      | some c =>
        rw [alloc_zone hc] at h ⊢
        rcases allocZone_null hs h with ⟨hnil, he⟩ | ⟨z, i, rest, hl, hleast, h0, hr, he⟩
        · rw [he]
          exact Denied.empty hsize hi hc hnil
        · rw [he]
          exact Denied.refill hsize hi hc hl hleast h0 hr
      | none =>
        have hbig := Cls.ofSize_none.mp hc
        rw [alloc_large hbig] at h ⊢
        obtain ⟨hf, hr, he⟩ := allocLarge_null h (wrap_of_size hsize)
        rw [he]
        exact Denied.large hsize hbig hi hf hr
    | false =>
      rw [malloc_of_uninitialized hsize hi] at h ⊢
      cases hb : os.reply (Cls.tiny.total P) with
      | none =>
        simp only [setup_tiny_refused hb, Bool.false_eq_true, if_false]
        exact Denied.tiny hsize hi hb
      | some b =>
        cases hb' : (os.mmap (Cls.tiny.total P)).reply (Cls.small.total P) with
        | none =>
          simp only [setup_small_refused hb hb', Bool.false_eq_true, if_false]
          exact Denied.small hsize hi hb hb'
        | some b' =>
          simp only [setup_granted hb hb', if_true] at h ⊢
          have hs₂ : ((A.addZone P .tiny b).addZone P .small b').init.Sound P
              ((os.mmap (Cls.tiny.total P)).mmap (Cls.small.total P)) := by
            have := (setup_sound hP hs).1
            rwa [setup_granted hb hb'] at this
          cases hc : Cls.ofSize s with
          | some c =>
            rw [alloc_zone hc] at h
            rcases allocZone_null hs₂ h with ⟨hnil, -⟩ | ⟨z, i, rest, hl, hleast, h0, -⟩
            · exact absurd hnil lists_setup_ne_nil
            · exact absurd h0 (setup_not_last hP hs hi hb hb' hl hleast)
          | none =>
            have hbig := Cls.ofSize_none.mp hc
            rw [alloc_large hbig] at h ⊢
            obtain ⟨-, hr, he⟩ := allocLarge_null h (wrap_of_size hsize)
            rw [he]
            exact Denied.block hsize hbig hi hb hb' hr

/-- **In these ways `malloc` returns NULL**: the list is exact. -/
theorem Denied.malloc (hs : A.Sound P os) (hd : Denied P A os s r) :
    A.malloc P os s = (0, r) := by
  cases hd with
  | size h => simp only [AHeap.malloc, if_pos h]
  | tiny h hi hb =>
    rw [malloc_of_uninitialized h hi]
    simp only [setup_tiny_refused hb, Bool.false_eq_true, if_false]
  | small h hi hb hb' =>
    rw [malloc_of_uninitialized h hi]
    simp only [setup_small_refused hb hb', Bool.false_eq_true, if_false]
  | block h hbig hi hb hb' hr =>
    rw [malloc_of_uninitialized h hi]
    simp only [setup_granted hb hb', if_true]
    rw [alloc_large hbig]
    simp only [allocLarge, fit_setup hs hi, wrap_of_size h, hr]
  | empty h hi hc hl =>
    rw [malloc_of_initialized h hi, alloc_zone hc]
    simp only [allocZone, hl]
  | refill h hi hc hl hleast h0 hr =>
    rw [malloc_of_initialized h hi, alloc_zone hc]
    simp only [allocZone, hl, hleast, takeSlot, h0, if_true, createZone_refused hr,
      Bool.false_eq_true, if_false]
  | large h hbig hi hf hr =>
    rw [malloc_of_initialized h hi, alloc_large hbig]
    simp only [allocLarge, hf, wrap_of_size h, hr]

/-! ## A stocked heap -/

/-- **A free list stays nonempty** when a slot of its class is released. -/
theorem free_nonempty (hP : ValidPage P) (hs : A.Sound P os)
    (hk : A.Holds (.slot c z i)) :
    (A.free P os (.slot c z i)).1.lists c.freeHead ≠ [] := by
  obtain ⟨hz, r, hslot⟩ := hk
  have hmany := (hP.layout c).enough
  simp only [free, freeSlot]
  by_cases hall : (A.setSlot z i none).freeCount z = c.cells P
  · rw [if_pos hall]
    have hzf := hs.ok.on_free hz hslot (by omega)
    by_cases hone : A.lists c.freeHead = [z]
    · rw [if_pos hone, lists_setSlot, hone]
      exact List.cons_ne_nil _ _
    · rw [if_neg hone, lists_detach, if_pos rfl, lists_setSlot]
      intro hnil
      rcases List.erase_eq_nil_iff.mp hnil with h | h
      · exact List.ne_nil_of_mem hzf h
      · exact hone h
  · rw [if_neg hall]
    by_cases hone : (A.setSlot z i none).freeCount z = 1
    · rw [if_pos hone]
      have hmem : z ∈ ((A.setSlot z i none).move z c.fullHead c.freeHead).lists c.freeHead :=
        mem_append.mpr (Or.inr ⟨rfl, rfl⟩)
      exact List.ne_nil_of_mem hmem
    · rw [if_neg hone, lists_setSlot]
      exact List.ne_nil_of_mem (hs.ok.on_free hz hslot hone)

/-- No class of an initialised heap is out of zones: a request of its size finds a slot. -/
def Stocked (A : AHeap) : Prop := A.initialized = true → ∀ c : Cls, A.lists c.freeHead ≠ []

/-- The call takes the last slot of its zone and no zone comes after it, so that the slot is taken
and not returned (`malloc.c:152-153`, `158-159`). -/
def LastTaken (P : Nat) (A : AHeap) (os : Os) (s : Nat) : Prop :=
  ∃ c z i rest, s ≠ 0 ∧ A.initialized = true ∧ Cls.ofSize s = some c ∧
    A.lists c.freeHead = z :: rest ∧ A.leastFree z = some i ∧
    (A.setSlot z i (some s)).freeCount z = 0 ∧ os.reply (c.total P) = none

theorem lists_move_ne {x : Nat} {h h' g : Head} (hg : g ≠ h) (hg' : g ≠ h') :
    (A.move x h h').lists g = A.lists g := by
  unfold move
  rw [lists_append, if_neg hg', lists_detach, if_neg hg]

theorem takeSlot_stocked (hst : ∀ c : Cls, A.lists c.freeHead ≠ [])
    (h : (A.takeSlot P os c z i s).1 ≠ 0) (c' : Cls) :
    (A.takeSlot P os c z i s).2.1.lists c'.freeHead ≠ [] := by
  unfold takeSlot at *
  by_cases h0 : (A.setSlot z i (some s)).freeCount z = 0
  · simp only [h0, if_true] at h ⊢
    cases hr : os.reply (c.total P) with
    | none =>
      rw [createZone_refused hr] at h
      exact absurd rfl h
    | some b =>
      rw [createZone_granted hr]
      by_cases hc : c' = c
      · subst hc
        exact List.ne_nil_of_mem (mem_addZone.mpr (Or.inr ⟨rfl, rfl⟩))
      · have hkept : ((A.setSlot z i (some s)).move z c.freeHead c.fullHead).lists c'.freeHead =
            A.lists c'.freeHead := by
          refine lists_move_ne ?_ ?_
          · cases c <;> cases c' <;> simp_all [Cls.freeHead]
          · cases c <;> cases c' <;> decide
        obtain ⟨x, hx⟩ := List.exists_mem_of_ne_nil _ (hst c')
        rw [← hkept] at hx
        exact List.ne_nil_of_mem (mem_addZone.mpr (Or.inl hx))
  · rw [if_neg h0]
    exact hst c'

theorem alloc_stocked (hst : ∀ c : Cls, A.lists c.freeHead ≠ [])
    (h : (A.alloc P os s).1 ≠ 0) (c : Cls) : (A.alloc P os s).2.1.lists c.freeHead ≠ [] := by
  unfold alloc at *
  cases hc : Cls.ofSize s with
  | some cl =>
    simp only [hc, allocZone] at h ⊢
    cases hl : A.lists cl.freeHead with
    | nil => exact absurd hl (hst cl)
    | cons z rest =>
      simp only [hl] at h ⊢
      cases hi : A.leastFree z with
      | none => exact hst c
      | some i =>
        simp only [hi] at h ⊢
        exact takeSlot_stocked hst h c
  | none =>
    have hne : c.freeHead ≠ .freeLargeBlocks ∧ c.freeHead ≠ .fullLargeBlocks := by
      cases c <;> decide
    simp only [allocLarge]
    cases A.fit s with
    | some b =>
      rw [lists_move_ne hne.1 hne.2]
      exact hst c
    | none =>
      cases os.reply (wrap (48 + s)) with
      | none => exact hst c
      | some b =>
        obtain ⟨x, hx⟩ := List.exists_mem_of_ne_nil _ (hst c)
        exact List.ne_nil_of_mem (mem_addBlock.mpr (Or.inl hx))

/-- **A call of `malloc`** leaves the heap stocked unless its refill is refused. -/
theorem malloc_stocked (hP : ValidPage P) (hs : A.Sound P os) (hst : A.Stocked)
    (hno : ¬A.LastTaken P os s) : (A.malloc P os s).2.1.Stocked := by
  by_cases h0 : (A.malloc P os s).1 = 0
  · have hd := denied_of_null hP hs h0
    generalize (A.malloc P os s).2 = r at hd
    cases hd with
    | size => exact hst
    | tiny => exact hst
    | small _ hi =>
      intro h
      rw [show A.initialized = true from h] at hi
      cases hi
    | block => exact fun _ _ => lists_setup_ne_nil
    | empty => exact hst
    | refill h hi hc hl hleast h0 hr =>
      exact absurd ⟨_, _, _, _, fun e => h (Or.inl e), hi, hc, hl, hleast, h0, hr⟩ hno
    | large => exact hst
  · by_cases hsize : s = 0 ∨ ptrdiffMax < s
    · rw [malloc, if_pos hsize] at h0
      exact absurd rfl h0
    · cases hi : A.initialized with
      | true =>
        rw [malloc_of_initialized hsize hi] at h0 ⊢
        exact fun _ => alloc_stocked (hst hi) h0
      | false =>
        rw [malloc_of_uninitialized hsize hi] at h0 ⊢
        cases hb : os.reply (Cls.tiny.total P) with
        | none =>
          rw [setup_tiny_refused hb] at h0
          exact absurd rfl h0
        | some b =>
          cases hb' : (os.mmap (Cls.tiny.total P)).reply (Cls.small.total P) with
          | none =>
            rw [setup_small_refused hb hb'] at h0
            exact absurd rfl h0
          | some b' =>
            simp only [setup_granted hb hb', if_true] at h0 ⊢
            exact fun _ => alloc_stocked (fun _ => lists_setup_ne_nil) h0

/-- **A release** leaves the heap stocked: it takes no zone from a free list unless another is
there. -/
theorem free_stocked (hP : ValidPage P) (hs : A.Sound P os) (hst : A.Stocked) {k : Cell}
    (hk : A.Holds k) : (A.free P os k).1.Stocked := by
  have hst := hst (hs.ok.initialized_of_holds hk)
  intro _ c'
  cases k with
  | slot c z i =>
    by_cases hc : c' = c
    · subst hc
      exact free_nonempty hP hs hk
    · have hne : c'.freeHead ≠ c.freeHead ∧ c'.freeHead ≠ c.fullHead := by
        cases c <;> cases c' <;> simp_all [Cls.freeHead, Cls.fullHead]
      simp only [free, freeSlot]
      split
      · split
        · exact hst c'
        · rw [lists_detach, if_neg hne.1]
          exact hst c'
      · split
        · rw [lists_move_ne hne.2 hne.1]
          exact hst c'
        · exact hst c'
  | block b =>
    have hne : c'.freeHead ≠ .freeLargeBlocks ∧ c'.freeHead ≠ .fullLargeBlocks := by
      cases c' <;> decide
    simp only [free, freeLarge]
    split
    · rw [lists_detach, if_neg hne.2]
      exact hst c'
    · rw [lists_move_ne hne.2 hne.1]
      exact hst c'

/-- **A resizing** leaves the heap stocked unless its refill is refused. -/
theorem realloc_stocked (hP : ValidPage P) (hs : A.Sound P os) (hst : A.Stocked) {k : Cell}
    (hk : A.Holds k) (hno : A.cap k < s → ¬A.LastTaken P os s) :
    (A.realloc P os k s).2.1.Stocked := by
  unfold realloc
  by_cases hfit : s ≤ A.cap k
  · rw [if_pos hfit]
    exact hst
  · rw [if_neg hfit]
    have hst₁ := malloc_stocked hP hs hst (hno (by omega))
    obtain ⟨h1, g1, -⟩ := malloc_serves (s := s) hP hs
    generalize A.malloc P os s = r at *
    unfold replace
    by_cases h0 : r.1 = 0
    · rw [if_pos h0]
      exact hst₁
    · rw [if_neg h0]
      exact free_stocked hP h1 hst₁ (g1.held hk)

end AHeap

end FtMalloc
