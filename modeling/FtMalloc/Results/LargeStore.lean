import FtMalloc.Results.Accounting

/-!
# The store of large blocks (`src/malloc.c:76-89, 166-185, 255-271`)

`free` keeps a large block on `free_large_blocks`, or unmaps it when it is larger than
`SMALL_BLOCK_SIZE * BLOCKS_PER_ZONE`. `find_free_large_block` takes the first kept block that is
large enough, and maps a new one when there is none.

Results:
* `large_store`: in every reachable state the two lists are well formed and apart, their blocks
  have the sizes they should have (`LargeStore`), and every search for a size that leaves room for
  the header in a `size_t` returns, in one of three ways (`LargeFound`), and leaves such a store. So
  does the state `malloc` searches in after the setup.
* `search_large`: the search on any represented heap, from the simulation of
  `find_free_large_block`.
* `large_store_wraps`: a search for `2 ^ 64 - 1` bytes maps 47. `malloc`, the only caller, rejects
  sizes above `PTRDIFF_MAX` before it searches (`malloc.c:207`).
-/

namespace FtMalloc

open Lib

/-- `block->size`. -/
def World.blockSize (w : World) (b : Nat) : Nat := ld w.mem 8 (b + BlockT.size)

/-- Both lists are NULL-terminated and doubly linked, no block is on them twice, and no block has a
size it should not have. -/
structure World.LargeStore (w : World) : Prop where
  free : blockNode.IsList w.mem w.heap.freeLargeBlocks (w.nodes .freeLargeBlocks)
  full : blockNode.IsList w.mem w.heap.fullLargeBlocks (w.nodes .fullLargeBlocks)
  once : (w.nodes .freeLargeBlocks ++ w.nodes .fullLargeBlocks).Nodup
  large : ∀ b ∈ w.nodes .freeLargeBlocks ++ w.nodes .fullLargeBlocks,
    smallBlockSize < w.blockSize b
  cached : ∀ b ∈ w.nodes .freeLargeBlocks, w.blockSize b ≤ smallBlockSize * blocksPerZone

/-- How a search for `s` bytes that returns `p` in the world `w'` may end: a block that fits is
moved, a block is mapped, or the mapping is refused. -/
inductive LargeFound (w : World) (s p : Nat) (w' : World) : Prop
  | reused (b : Nat) (fit : w.firstFit s = some b) (ptr : p = b + BlockT.sizeof + 8)
      (free : w'.nodes .freeLargeBlocks = (w.nodes .freeLargeBlocks).erase b)
      (full : w'.nodes .fullLargeBlocks = w.nodes .fullLargeBlocks ++ [b])
      (system : w'.os = w.os)
  | mapped (b : Nat) (fit : w.firstFit s = none) (ptr : p = b + BlockT.sizeof + 8)
      (free : w'.nodes .freeLargeBlocks = w.nodes .freeLargeBlocks)
      (full : w'.nodes .fullLargeBlocks = w.nodes .fullLargeBlocks ++ [b])
      (size : w'.blockSize b = s)
      (system : w'.os = w.os.mmap (BlockT.sizeof + 8 + s))
      (region : w'.os.regions = ⟨b, BlockT.sizeof + 8 + s⟩ :: w.os.regions)
  | refused (fit : w.firstFit s = none) (ptr : p = null)
      (free : w'.nodes .freeLargeBlocks = w.nodes .freeLargeBlocks)
      (full : w'.nodes .fullLargeBlocks = w.nodes .fullLargeBlocks)
      (system : w'.os = w.os.mmap (BlockT.sizeof + 8 + s))
      (regions : w'.os.regions = w.os.regions)

/-- A search for `s` bytes returns, in one of the three ways, and leaves the store in order. -/
def World.Searches [Platform] (w : World) (s : Nat) : Prop :=
  ∃ p w', findFreeLargeBlock s w = some (p, w') ∧ LargeFound w s p w' ∧ w'.LargeStore

/-- The store is in order, and so it is after every search for a size that, with the header before
it, fits a `size_t` (`malloc.c:78`). -/
structure World.ServesLarge [Platform] (w : World) : Prop where
  store : w.LargeStore
  search : ∀ s, smallBlockSize < s → BlockT.sizeof + 8 + s < 2 ^ 64 → w.Searches s

variable {P : Nat} {w : World} {A : AHeap} {c : Config World} {h : Head} {s b : Nat}

/-! ## The store of a represented heap -/

/-- The sizes of the large blocks of an abstract heap are in order. -/
structure AHeap.LargeSizes (A : AHeap) : Prop where
  large : ∀ {h x}, h.cls = none → x ∈ A.lists h → 1024 < A.size x
  cached : ∀ {x}, x ∈ A.lists .freeLargeBlocks → A.size x ≤ 102400

theorem AHeap.Ok.largeSizes (hok : A.Ok P) : A.LargeSizes := ⟨hok.large, hok.cached⟩

/-- The size read in a block is the recorded one. -/
theorem Rep.blockSize_eq (hr : Rep P w A) (hc : h.cls = none) (hb : b ∈ A.lists h) :
    w.blockSize b = A.size b :=
  (hr.block hc hb).1.size

theorem Rep.largeStore (hr : Rep P w A) (hA : A.LargeSizes) : w.LargeStore := by
  have hfree := hr.nodes_eq .freeLargeBlocks
  have hfull := hr.nodes_eq .fullLargeBlocks
  refine ⟨?_, ?_, ?_, fun b hb => ?_, fun b hb => ?_⟩
  · rw [hfree]
    exact hr.lists .freeLargeBlocks
  · rw [hfull]
    exact hr.lists .fullLargeBlocks
  · rw [hfree, hfull]
    refine List.nodup_append.mpr ⟨hr.wf.nodup _, hr.wf.nodup _, fun x hx y hy e => ?_⟩
    subst e
    exact absurd (hr.wf.once hx hy) (by decide)
  · rw [hfree, hfull] at hb
    rcases List.mem_append.mp hb with hb | hb
    · rw [hr.blockSize_eq rfl hb]
      exact hA.large rfl hb
    · rw [hr.blockSize_eq rfl hb]
      exact hA.large rfl hb
  · rw [hfree] at hb
    rw [hr.blockSize_eq rfl hb]
    exact hA.cached hb

/-! ## A search -/

/-- A fitting block is large, so the one that moves keeps the sizes in order. -/
theorem AHeap.LargeSizes.move (hA : A.LargeSizes) (hw : A.Wf P)
    (hb : b ∈ A.lists .freeLargeBlocks) :
    (A.move b .freeLargeBlocks .fullLargeBlocks).LargeSizes where
  large := by
    intro h x hc hx
    rcases (hw.mem_move hb).mp hx with ⟨-, hx⟩ | ⟨rfl, -⟩
    · exact hA.large hc hx
    · exact hA.large rfl hb
  cached := by
    intro x hx
    rcases (hw.mem_move hb).mp hx with ⟨-, hx⟩ | ⟨-, he⟩
    · exact hA.cached hx
    · cases he

theorem AHeap.LargeSizes.addBlock (hA : A.LargeSizes) (hf : A.Fresh b) (hs : 1024 < s) :
    (A.addBlock b s).LargeSizes where
  large := by
    intro h x hc hx
    rw [AHeap.size_addBlock]
    split
    · exact hs
    · rename_i hne
      exact hA.large hc ((AHeap.mem_addBlock.mp hx).resolve_right fun e => hne e.2)
  cached := by
    intro x hx
    rcases AHeap.mem_addBlock.mp hx with hx | ⟨he, -⟩
    · rw [AHeap.size_addBlock, if_neg (hf.ne_of_mem hx)]
      exact hA.cached hx
    · cases he

/-- **A search**: what `find_free_large_block` does to a heap, by what the free list and the
kernel offer. -/
theorem search_large [Platform] (hP : ValidPage P) (hr : Rep P w A) (hA : A.LargeSizes)
    (hs : smallBlockSize < s) (hlt : 48 + s < 2 ^ 64) : w.Searches s := by
  have hfree := hr.nodes_eq .freeLargeBlocks
  have hfull := hr.nodes_eq .fullLargeBlocks
  obtain ⟨w', hrun, hos, hr', -, -⟩ := findFreeLargeBlock_writes hP hr (Or.inl hlt)
  have hfree' := hr'.nodes_eq .freeLargeBlocks
  have hfull' := hr'.nodes_eq .fullLargeBlocks
  refine ⟨_, w', hrun, ?_⟩
  unfold AHeap.allocLarge at *
  rw [wrap_of_lt hlt] at *
  cases hfit : A.fit s with
  | some b =>
    obtain ⟨hb, -⟩ := AHeap.fit_some hfit
    simp only [hfit] at hos hr' hfree' hfull' ⊢
    refine ⟨.reused b ((hr.firstFit_eq s).trans hfit) rfl ?_ ?_ hos,
      hr'.largeStore (hA.move hr.wf hb)⟩
    · rw [hfree', hfree]
      rfl
    · rw [hfull', hfull]
      rfl
  | none =>
    simp only [hfit] at hos hr' hfree' hfull' ⊢
    cases hreply : w.os.reply (48 + s) with
    | some b =>
      simp only [hreply] at hos hr' hfree' hfull' ⊢
      have hf := hr.backed.fresh hreply
      have hmem : b ∈ (A.addBlock b s).lists .fullLargeBlocks :=
        AHeap.mem_addBlock.mpr (Or.inr ⟨rfl, rfl⟩)
      refine ⟨.mapped b ((hr.firstFit_eq s).trans hfit) rfl ?_ ?_ ?_ hos ?_,
        hr'.largeStore (hA.addBlock hf hs)⟩
      · rw [hfree', hfree]
        rfl
      · rw [hfull', hfull]
        rfl
      · rw [hr'.blockSize_eq rfl hmem, AHeap.size_addBlock, if_pos rfl]
      · rw [hos, Os.mmap_granted hreply]
    | none =>
      simp only [hreply] at hos hr' hfree' hfull' ⊢
      refine ⟨.refused ((hr.firstFit_eq s).trans hfit) rfl ?_ ?_ hos ?_, hr'.largeStore hA⟩
      · rw [hfree', hfree]
      · rw [hfull', hfull]
      · rw [hos, Os.mmap_refused hreply]

theorem Rep.servesLarge [Platform]
    (hP : ValidPage P) (hr : Rep P w A) (hok : A.Ok P) : w.ServesLarge where
  store := hr.largeStore hok.largeSizes
  search := fun _ hs hlt => search_large hP hr hok.largeSizes hs hlt

/-- **The store of large blocks**, in every reachable state and in the one `malloc` searches in. -/
theorem large_store [Platform] (hc : Reachable P c) :
    c.state.ServesLarge ∧ ∀ w, ensureSetup c.state = some (0, w) → w.ServesLarge := by
  obtain ⟨A, hI⟩ := reachable_inv hc
  refine ⟨hI.rep.servesLarge hc.1 hI.ok, fun w hw => ?_⟩
  obtain ⟨w', hrun, -, hr, -⟩ := ensureSetup_run hc.1 hI.rep
  obtain ⟨-, rfl⟩ := Prod.mk.inj (Option.some.inj (hrun.symm.trans hw))
  exact hr.servesLarge hc.1 (AHeap.ready_sound hc.1 hI.sound).1.ok

/-- The setup, then a search that maps the first block. -/
theorem large_store_sample : ∃ w, ensureSetup sampleStart.state = some (0, w) ∧ w.ServesLarge ∧
    (findFreeLargeBlock 2000 w).map Prod.fst = some (1048576 + 48) := by
  have heval : (ensureSetup sampleStart.state).map (fun r => (r.1,
      (findFreeLargeBlock 2000 r.2).map Prod.fst)) = some (0, some (1048576 + 48)) := by
    decide +kernel
  obtain ⟨r, hw, hr⟩ := Option.map_eq_some_iff.mp heval
  obtain ⟨h0, hfind⟩ := Prod.mk.inj hr
  have hrun : ensureSetup sampleStart.state = some (0, r.2) := by
    rw [hw, ← h0]
  exact ⟨r.2, hrun, (large_store sampleStart_reachable).2 r.2 hrun, hfind⟩

/-- **The length wraps**: a search for `2 ^ 64 - 1` bytes maps 47, so it ends in none of the three
ways. -/
theorem large_store_wraps :
    ¬∀ c, Reachable 4096 c → ∀ s, smallBlockSize < s → s < 2 ^ 64 → c.state.Searches s := by
  intro hall
  obtain ⟨p, w, hrun, hfound, -⟩ :=
    hall _ sampleStart_reachable (2 ^ 64 - 1) (by decide) (by decide)
  have hmapped : (findFreeLargeBlock (2 ^ 64 - 1) sampleStart.state).map
      (fun r => r.2.os.regions.map Region.len) = some [47] := by decide +kernel
  have hlens : w.os.regions.map Region.len = [47] := by
    rw [hrun] at hmapped
    exact Option.some.inj hmapped
  cases hfound with
  | reused _ _ _ _ _ hos =>
    rw [hos] at hlens
    cases hlens
  | mapped _ _ _ _ _ _ _ hregions =>
    rw [hregions, List.map_cons] at hlens
    have hlen : BlockT.sizeof + 8 + (2 ^ 64 - 1) = 47 := (List.cons.inj hlens).1
    exact absurd hlen (by decide)
  | refused _ _ _ _ _ hregions =>
    rw [hregions] at hlens
    cases hlens

end FtMalloc
