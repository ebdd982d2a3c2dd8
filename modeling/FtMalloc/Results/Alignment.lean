import FtMalloc.Run.Invariant

/-!
# The alignment of what is returned

With pages of 4096 bytes the slots of a zone start 901 bytes (tiny) or 909 bytes (small) after its
base, and follow each other at strides of 72 and 1032 bytes (`malloc.c:46-64`): a slot is never
even 2-aligned. The payload of a large block starts 48 bytes after its base.

Results:
* `returned_aligned_iff`: what `malloc` and `realloc` return is 16-aligned exactly when the request
  is large or a 16-aligned block is resized in place.
-/

namespace FtMalloc

/-- The calls that return a block. -/
def Op.Allocates : Op → Prop
  | malloc _ | realloc _ _ => True
  | _ => False

/-- The calls that return a 16-aligned block. -/
def Op.Aligns : Op → Prop
  | malloc s => s > smallBlockSize
  | realloc p s => s > smallBlockSize ∨ p ≠ null ∧ p % 16 = 0
  | _ => True

variable {A : AHeap} {os : Os} {c c' : Config World} {op : Op} {q s z i b : Nat} {cl : Cls}
  {k : Cell}

/-! ## Addresses -/

/-- A slot's address is odd. -/
theorem slotAddr_odd (hz : z % 4096 = 0) (cl : Cls) (i : Nat) : cl.slotAddr 4096 z i % 2 = 1 := by
  have htiny : Cls.tiny.dataOff 4096 = 893 := by decide
  have hsmall : Cls.small.dataOff 4096 = 901 := by decide
  cases cl with
  | tiny =>
    simp only [Cls.slotAddr, Cls.size, htiny]
    omega
  | small =>
    simp only [Cls.slotAddr, Cls.size, hsmall]
    omega

theorem AHeap.Sound.node_aligned {h : Head} (hs : A.Sound 4096 os) (hz : z ∈ A.lists h) :
    z % 4096 = 0 :=
  (hs.backed.system.legal _ (hs.backed.region hz)).2.2.1

/-- Of the cells handed out, the blocks are 16-aligned and the slots are not. -/
theorem AHeap.Sound.addr_aligned_iff (hs : A.Sound 4096 os) (hk : A.Holds k) :
    k.addr 4096 % 16 = 0 ↔ A.cap k > smallBlockSize := by
  have hP := validPage_4096
  cases k with
  | slot cl z i =>
    obtain ⟨h, -, hm⟩ := hk.1.mem
    have hodd := slotAddr_odd (hs.node_aligned hm) cl i
    have hsize := (hP.layout cl).size_pos.2
    simp only [Cell.addr, AHeap.cap, smallBlockSize]
    omega
  | block b =>
    have hb := hs.node_aligned hk
    have hlarge := hs.ok.large rfl hk
    simp only [Cell.addr, AHeap.cap, smallBlockSize]
    omega

theorem AHeap.takeSlot_addr {P : Nat} : (A.takeSlot P os cl z i s).1 = 0 ∨
    (A.takeSlot P os cl z i s).1 = cl.slotAddr P z i := by
  unfold AHeap.takeSlot
  by_cases h0 : (A.setSlot z i (some s)).freeCount z = 0
  · simp only [h0, if_true]
    split
    · exact Or.inr rfl
    · exact Or.inl rfl
  · rw [if_neg h0]
    exact Or.inr rfl

/-- **What `alloc_block` returns** is NULL, a slot for a request of a class, or a block for a large
one. -/
theorem AHeap.Sound.alloc_addr (hs : A.Sound 4096 os) (h0 : (A.alloc 4096 os s).1 ≠ 0) :
    (A.alloc 4096 os s).1 % 16 = 0 ↔ s > smallBlockSize := by
  unfold AHeap.alloc at *
  cases hc : Cls.ofSize s with
  | some cl =>
    have hsmall : ¬s > smallBlockSize := fun h => by
      rw [Cls.ofSize_none.mpr h] at hc
      cases hc
    simp only [hc, AHeap.allocZone] at h0 ⊢
    cases hl : A.lists cl.freeHead with
    | nil =>
      rw [hl] at h0
      exact absurd rfl h0
    | cons z rest =>
      have hz : z ∈ A.lists cl.freeHead := AHeap.first_mem hl
      have hodd := slotAddr_odd (hs.node_aligned hz) cl
      simp only [hl] at h0 ⊢
      cases hi : A.leastFree z with
      | none =>
        rw [hi] at h0
        exact absurd rfl h0
      | some i =>
        simp only [hi] at h0 ⊢
        rw [AHeap.takeSlot_addr.resolve_left h0]
        have := hodd i
        omega
  | none =>
    have hbig := Cls.ofSize_none.mp hc
    have hblock : ∀ b, b % 4096 = 0 → ((b + 48) % 16 = 0 ↔ s > smallBlockSize) := fun b hb => by
      simp only [smallBlockSize]
      omega
    simp only [hc, AHeap.allocLarge] at h0 ⊢
    cases hf : A.fit s with
    | some b => exact hblock b (hs.node_aligned (AHeap.fit_some hf).1)
    | none =>
      simp only [hf] at h0 ⊢
      cases hr : os.reply (wrap (48 + s)) with
      | none =>
        rw [hr] at h0
        exact absurd rfl h0
      | some b => exact hblock b (Os.reply_grants hr).2.2.1

theorem AHeap.Sound.malloc_addr (hs : A.Sound 4096 os) (h0 : (A.malloc 4096 os s).1 ≠ 0) :
    (A.malloc 4096 os s).1 % 16 = 0 ↔ s > smallBlockSize := by
  unfold AHeap.malloc at *
  by_cases hsize : s = 0 ∨ ptrdiffMax < s
  · rw [if_pos hsize] at h0
    exact absurd rfl h0
  · rw [if_neg hsize] at h0 ⊢
    have h1 := (AHeap.ready_sound validPage_4096 hs).1
    generalize A.ready 4096 os = r at *
    by_cases hr : r.1 = true
    · simp only [hr, if_true] at h0 ⊢
      exact h1.alloc_addr h0
    · simp only [if_neg hr] at h0
      exact absurd rfl h0

/-! ## Calls and runs -/

/-- One call. -/
theorem step_aligned_iff [Platform] (hc : Reachable 4096 c) (hs : Step mandatory c op q c')
    (ha : op.Allocates) (h0 : q ≠ null) : q % 16 = 0 ↔ op.Aligns := by
  obtain ⟨A, hI⟩ := reachable_inv hc
  obtain ⟨r, he, rfl, -⟩ := step_effect hc.1 hI hs
  cases he with
  | malloc s => exact hI.sound.malloc_addr h0
  | freeNull => exact ha.elim
  | free => exact ha.elim
  | reallocNull s =>
    refine (hI.sound.malloc_addr h0).trans ⟨Or.inl, fun h => h.resolve_right ?_⟩
    exact fun h => h.1 rfl
  | @realloc k s hk =>
    have hiff := hI.sound.addr_aligned_iff hk
    have hne : k.addr 4096 ≠ null := hI.rep.addr_ne_zero hc.1 (hI.rep.wf.hasCell hk)
    simp only [AHeap.realloc, AHeap.replace] at h0 ⊢
    by_cases hfit : s ≤ A.cap k
    · rw [if_pos hfit]
      refine ⟨fun h => Or.inr ⟨hne, h⟩, fun h => h.elim (fun h => hiff.mpr ?_) And.right⟩
      omega
    · rw [if_neg hfit] at h0 ⊢
      by_cases hnull : (A.malloc 4096 c.state.os s).1 = 0
      · rw [if_pos hnull] at h0
        exact absurd hnull h0
      · rw [if_neg hnull]
        refine (hI.sound.malloc_addr hnull).trans ⟨Or.inl, fun h => h.elim id fun h => ?_⟩
        have := hiff.mp h.2
        omega
  | write => exact ha.elim

/-- **Alignment.** From every reachable state, a pointer that `malloc` or `realloc` returns is a
multiple of 16 exactly when the request is large or a pointer that is one is resized. A run of such
calls that ends there returned multiples of 16 only. -/
theorem returned_aligned_iff [Platform] (hc : Reachable 4096 c) :
    (∀ op q c', Step mandatory c op q c' → op.Allocates → q ≠ null → (q % 16 = 0 ↔ op.Aligns)) ∧
    ∀ m answers t, RunIn mandatory (fun _ op => op.Aligns) ⟨World.init 4096 m answers, []⟩ t c →
      ∀ x ∈ t, x.1.Allocates → x.2 ≠ null → x.2 % 16 = 0 := by
  refine ⟨fun op q c' => step_aligned_iff hc, fun m answers t hrun => ?_⟩
  have hstart : Reachable 4096 ⟨World.init 4096 m answers, []⟩ :=
    ⟨validPage_4096, m, answers, [], RunIn.nil⟩
  -- along the run every configuration is reachable
  suffices h : Reachable 4096 c ∧ ∀ x ∈ t, x.1.Allocates → x.2 ≠ null → x.2 % 16 = 0 from h.2
  clear hc
  induction hrun with
  | nil => exact ⟨hstart, fun x hx => absurd hx List.not_mem_nil⟩
  | snoc _ hg hs ih =>
    refine ⟨ih.1.step hs, fun x hx ha h0 => ?_⟩
    rcases List.mem_append.mp hx with hx | hx
    · exact ih.2 x hx ha h0
    · obtain rfl := List.mem_singleton.mp hx
      exact (step_aligned_iff ih.1 hs ha h0).mpr hg

theorem returned_aligned_sample : ∃ c, Step mandatory sampleStart (.malloc 24) 4997 c ∧
    (4997 % 16 = 0 ↔ (Op.malloc 24).Aligns) := by
  obtain ⟨c, hs, -⟩ := step_sample
  exact ⟨c, hs, (returned_aligned_iff sampleStart_reachable).1 _ _ c hs trivial (by decide)⟩

/-- The first block of the first zone is at an odd address. -/
theorem returned_misaligned : ¬∀ (c c' : Config World) (op : Op) (q : Nat), Reachable 4096 c →
    Step mandatory c op q c' → op.Allocates → q ≠ null → q % 16 = 0 := by
  intro h
  obtain ⟨c, hs, -⟩ := step_sample
  have h16 := h _ c _ _ sampleStart_reachable hs trivial (by decide)
  exact absurd h16 (by decide)

end FtMalloc
