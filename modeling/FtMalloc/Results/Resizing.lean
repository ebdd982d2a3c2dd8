import FtMalloc.Abstract.Held
import FtMalloc.Results.Integrity

/-!
# What `realloc` does to the client's data (`malloc.c:276-311`)

`realloc_law`: in every reachable state, whatever the call's `mmap`s answer, a `realloc` of a live
pointer either returns a block with room for the new size that starts with the old bytes, or
returns NULL and leaves the old block alone; and every other live allocation keeps its address, its
owner and its bytes.
-/

namespace FtMalloc

open Lib

variable {P : Nat} {A : AHeap} {c c' : Config World} {w w' : World} {x y : Alloc} {n q : Nat}
  {k : Cell}

/-- There is room for `n` bytes at `p`: they are mapped, and the size the allocator has for the
block of `p` is at least `n`. -/
def World.HasRoom (w : World) (p n : Nat) : Prop :=
  w.os.Mapped p n ∧ ∃ m, currentSize (ld w.mem 8 (p - 8)) w = some (m, w) ∧ n ≤ m

/-- `x` has the same owner in both states, with the same header word, and the same bytes. -/
structure Alloc.Untouched (x : Alloc) (w w' : World) : Prop where
  handedOut : w'.HandedOut x.ptr
  header : ld w'.mem 8 (x.ptr - 8) = ld w.mem 8 (x.ptr - 8)
  decodes : w.HeaderDecodes x.ptr ∧ w'.HeaderDecodes x.ptr
  bytes : ∀ i, i < x.size → w'.mem (x.ptr + i) = w.mem (x.ptr + i)

/-- What a call `realloc(x.ptr, n)` that returned `q` did to the client's allocations. -/
structure ReallocLaw (c c' : Config World) (x : Alloc) (n q : Nat) : Prop where
  /-- The result is live, with room for `n` bytes that are nobody else's, and starts with the old
  bytes. -/
  returned : q ≠ null → ⟨q, n⟩ ∈ c'.live ∧ c'.state.HandedOut q ∧ c'.state.HasRoom q n ∧
    c'.live.Pairwise Alloc.Apart ∧
    ∀ i, i < min x.size n → c'.state.mem (q + i) = c.state.mem (x.ptr + i)
  /-- The old block is released when another one is returned. -/
  released : q ≠ null → q ≠ x.ptr → (∀ y ∈ c'.live, y.ptr ≠ x.ptr) ∧ ¬c'.state.HandedOut x.ptr
  /-- NULL leaves the old block alone. -/
  failed : q = null → x ∈ c'.live ∧ x.Untouched c.state c'.state
  /-- The other allocations stay. -/
  others : ∀ y ∈ c.live, y.ptr ≠ x.ptr → y ∈ c'.live ∧ y.Untouched c.state c'.state

theorem Rep.hasRoom (hP : ValidPage P) (hr : Rep P w A) (hk : A.HasCell P k)
    (hn : n ≤ A.cap k) : w.HasRoom (k.addr P) n := by
  obtain ⟨h, hm, h1, h2⟩ := hk.node hP
  refine ⟨(hr.nodeAt hm).mapped h1 (by omega), A.cap k, ?_, hn⟩
  rw [(hr.header hP hk).2.2]
  exact currentSize_run hP hr hk

/-- A cell that stays held, with its bytes. -/
theorem Inv.untouched {A' : AHeap} (hP : ValidPage P) (hI : Inv P c A) (hI' : Inv P c' A')
    (hk : A.Holds k) (hk' : A'.Holds k) (hx : k.addr P = x.ptr) (hs : x.size ≤ A.cap k)
    (hag : Agrees c.state.mem c'.state.mem (A.HeldByte P)) :
    x.Untouched c.state c'.state := by
  refine ⟨(hI'.rep.handedOut_iff hP).mpr ⟨k, hk', hx⟩, ?_,
    ⟨hx ▸ hI.decodes hP hk, hx ▸ hI'.decodes hP hk'⟩,
    fun i hi => hag _ ⟨k, hk, by omega, by omega⟩⟩
  rw [← hx, (hI.rep.header hP (hI.rep.wf.hasCell hk)).2.2,
    (hI'.rep.header hP (hI'.rep.wf.hasCell hk')).2.2]

/-- After a resizing that returned another block, no held cell has the old pointer. -/
theorem AHeap.realloc_released {os : Os} (hP : ValidPage P) (hs : A.Sound P os) (hk : A.Holds k)
    (h0 : (A.realloc P os k n).1 ≠ 0) (hne : (A.realloc P os k n).1 ≠ k.addr P) {k' : Cell}
    (hk' : (A.realloc P os k n).2.1.Holds k') : k'.addr P ≠ k.addr P := by
  unfold AHeap.realloc at *
  by_cases hfit : n ≤ A.cap k
  · rw [if_pos hfit] at hne
    exact absurd rfl hne
  · rw [if_neg hfit] at h0 hk'
    obtain ⟨h1, g1, -⟩ := AHeap.malloc_serves (s := n) hP hs
    generalize A.malloc P os n = r at *
    unfold AHeap.replace at h0 hk'
    by_cases hr : r.1 = 0
    · rw [if_pos hr] at h0
      exact absurd hr h0
    · rw [if_neg hr] at hk'
      obtain ⟨hkk, hheld⟩ := (AHeap.free_holds hP h1 (g1.held hk)).mp hk'
      exact fun he => hkk (h1.addr_inj hP hheld (g1.held hk) he)

/-- The law for a held cell's pointer. -/
theorem Inv.resized [Platform]
    (hP : ValidPage P) (hI : Inv P c A) (hx : x ∈ c.live) (hk : A.Holds k)
    (hkx : k.addr P = x.ptr) (hsx : x.size ≤ A.cap k) (hn : n < 2 ^ 64) :
    ∃ q c', Step mandatory c (.realloc x.ptr n) q c' ∧ ReallocLaw c c' x n q := by
  have hs := hI.sound
  have hreleased := fun h0 hne (k' : Cell)
      (hk' : (A.realloc P c.state.os k n).2.1.Holds k') =>
    AHeap.realloc_released hP hs hk h0 hne hk'
  obtain ⟨w', hrun, -, hr', hag, hbytes⟩ := realloc_run (s := n) hP hI.rep hI.ok hk
  have hv := AHeap.realloc_resizes (s := n) hP hs hk
  generalize A.realloc P c.state.os k n = r at *
  let c' : Config World :=
    ⟨w', if r.1 ≠ null then ⟨r.1, n⟩ :: drop c.live (k.addr P) else c.live⟩
  have hI' : Inv P c' r.2.1 := ⟨hr', hv.sound.ok, hI.owned.resize hP hv⟩
  have hstep : Step mandatory c (.realloc x.ptr n) r.1 c' := by
    refine ⟨⟨hn, Or.inr ⟨x, hx, rfl⟩⟩, hkx ▸ hrun, ?_⟩
    simp [Op.after, mandatory, c', hkx]
  -- the cells of the others stay held
  have hothers : ∀ y ∈ c.live, y.ptr ≠ x.ptr → y ∈ c'.live ∧ y.Untouched c.state w' := by
    intro y hy hne
    obtain ⟨j, hj, hjy, hsy⟩ := hI.owned.cell y hy
    have hjk : j ≠ k := by
      rintro rfl
      exact hne (hjy.symm.trans hkx)
    refine ⟨?_, hI.untouched hP hI' hj (hv.keeps hjk hj).1 hjy hsy hag⟩
    simp only [c']
    split
    · exact List.mem_cons_of_mem _ (mem_drop.mpr ⟨hy, hkx ▸ hne⟩)
    · exact hy
  refine ⟨r.1, c', hstep, fun h0 => ?_, fun h0 hne => ?_, fun h0 => ?_, hothers⟩
  · have hlive : (⟨r.1, n⟩ : Alloc) ∈ c'.live := by
      simp only [c', if_pos h0]
      exact List.mem_cons_self
    obtain ⟨j, hj, hjq, hsj⟩ := hI'.owned.cell _ hlive
    refine ⟨hlive, (hr'.handedOut_iff hP).mpr ⟨j, hj, hjq⟩, ?_, hI'.live_apart hP, fun i hi => ?_⟩
    · rw [← show j.addr P = r.1 from hjq]
      exact hr'.hasRoom hP (hr'.wf.hasCell hj) hsj
    · rw [← hkx]
      exact hbytes h0 i (by omega)
  · rw [← hkx] at hne ⊢
    refine ⟨fun y hy => ?_, fun hout => ?_⟩
    · simp only [c', if_pos h0] at hy
      rcases List.mem_cons.mp hy with rfl | hy
      · exact hne
      · exact (mem_drop.mp hy).2
    · obtain ⟨k', hk', he⟩ := (hr'.handedOut_iff hP).mp hout
      exact hreleased h0 hne k' hk' he
  · refine ⟨by simpa only [c', if_neg (not_not_intro h0)] using hx, ?_⟩
    rcases hv.result with ⟨-, hheld, -⟩ | ⟨hne, -⟩
    · exact hI.untouched hP hI' hk hheld hkx hsx hag
    · exact absurd h0 hne

/-- **The law of `realloc`.** In every reachable state, for every live allocation and every size
up to `2 ^ 64 - 1`, whatever the `mmap` calls answer. -/
theorem realloc_law [Platform] (hc : Reachable P c) (hx : x ∈ c.live) (hn : n < 2 ^ 64) :
    ∃ q c', Step mandatory c (.realloc x.ptr n) q c' ∧ ReallocLaw c c' x n q := by
  obtain ⟨A, hI⟩ := reachable_inv hc
  obtain ⟨k, hk, hkx, hsx⟩ := hI.owned.cell x hx
  exact hI.resized hc.1 hx hk hkx hsx hn

theorem realloc_law_sample : ∃ c : Config World, c.live = sampleLive ∧
    ∃ q c', Step mandatory c (.realloc 4997 600) q c' ∧ ReallocLaw c c' ⟨4997, 40⟩ 600 q := by
  obtain ⟨c, hc, hlive⟩ := reachable_sample
  have hx : (⟨4997, 40⟩ : Alloc) ∈ c.live := by
    rw [hlive]
    exact List.mem_cons_self
  exact ⟨c, hlive, realloc_law hc hx (by decide)⟩

end FtMalloc
