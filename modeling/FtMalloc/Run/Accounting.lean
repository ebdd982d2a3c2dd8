import FtMalloc.Abstract.Calls
import FtMalloc.Abstract.Held
import FtMalloc.Run.Invariant

/-!
# Nothing is lost

While no `mmap` fails, the allocator hands out what the client knows of: every held cell is a live
allocation's (`Accounted`). A refused refill ends that (`LastTaken`): `find_free_block` has taken
the slot when it returns NULL.

Results:
* `EffectOf.since`: the log of system calls only grows.
* `unrefused_inv`: in every run in which no `mmap` fails, `Inv` and `Accounted` hold.
-/

namespace FtMalloc

open Lib

variable {P : Nat} {A A' : AHeap} {os : Os} {live : List Alloc} {s q n : Nat}
  {k k' : Cell} {c c' : Config World} {op : Op} {r : Nat × AHeap × Os}

/-- The log of a call is that before it, with the system calls it made in front. -/
theorem EffectOf.since (hP : ValidPage P) (hI : Inv P c A) (he : Effect P A c.state.os op r) :
    c.state.os.Since r.2.2 := by
  cases he with
  | malloc s => exact AHeap.malloc_mapsOnly.since
  | freeNull => exact Os.Since.refl _
  | free hk => exact AHeap.free_since hI.sound hk
  | reallocNull s => exact AHeap.malloc_mapsOnly.since
  | realloc s hk => exact AHeap.realloc_since hP hI.sound hk
  | write => exact Os.Since.refl _

/-! ## Held cells are live -/

/-- Every held cell is a live allocation's: together with `Owned`, the heap and the client agree on
what is in use. -/
def Accounted (P : Nat) (A : AHeap) (live : List Alloc) : Prop :=
  ∀ k, A.Holds k → ∃ x ∈ live, x.ptr = k.addr P

/-- The books after an allocation: the cell that was gained is the new allocation's. -/
theorem Accounted.serve (ha : Accounted P A live) (hg : AHeap.Gains P A s r) :
    Accounted P r.2.1 (if r.1 = null then live else ⟨r.1, s⟩ :: live) := by
  intro k hk
  obtain ⟨n, hn⟩ := AHeap.holds_iff_records.mp hk
  have hk' := hg k n hn
  by_cases h0 : r.1 = null
  · rw [if_pos h0]
    exact ha k (hk'.resolve_right fun h => h.1 h0).holds
  · rw [if_neg h0]
    rcases hk' with h | ⟨-, h, -⟩
    · obtain ⟨x, hx, he⟩ := ha k h.holds
      exact ⟨x, List.mem_cons_of_mem _ hx, he⟩
    · exact ⟨_, List.mem_cons_self, h.symm⟩

/-- The books after a release: the cell and the allocation go together. -/
theorem Accounted.release (hP : ValidPage P) (hs : A.Sound P os) (ha : Accounted P A live)
    (hk : A.Holds k) : Accounted P (A.free P os k).1 (drop live (k.addr P)) := by
  intro k' hk'
  obtain ⟨hne, hheld⟩ := (AHeap.free_holds hP hs hk).mp hk'
  obtain ⟨x, hx, he⟩ := ha k' hheld
  refine ⟨x, mem_drop.mpr ⟨hx, fun h => hne ?_⟩, he⟩
  exact hs.addr_inj hP hheld hk (he.symm.trans h)

/-- The books after a resizing, which may be in place, moved or refused. -/
theorem Accounted.resize (hP : ValidPage P) (hs : A.Sound P os) (ha : Accounted P A live)
    (hk : A.Holds k) (hm : AHeap.Moves P A k s r) :
    Accounted P r.2.1 (if r.1 ≠ null then ⟨r.1, s⟩ :: drop live (k.addr P) else live) := by
  intro k' hk'
  rcases hm with ⟨-, hq, hA⟩ | ⟨-, hm⟩
  · rw [hA] at hk'
    obtain ⟨x, hx, he⟩ := ha k' hk'
    by_cases h0 : r.1 = null
    · rw [if_neg (not_not_intro h0)]
      exact ⟨x, hx, he⟩
    · rw [if_pos h0]
      by_cases hp : x.ptr = k.addr P
      · exact ⟨_, List.mem_cons_self, hq.trans (hp.symm.trans he)⟩
      · exact ⟨x, List.mem_cons_of_mem _ (mem_drop.mpr ⟨hx, hp⟩), he⟩
  · obtain ⟨n, hn⟩ := AHeap.holds_iff_records.mp hk'
    rcases hm k' n hn with ⟨hrec, hne⟩ | ⟨h0, haddr, -⟩
    · obtain ⟨x, hx, he⟩ := ha k' hrec.holds
      by_cases h0 : r.1 = null
      · rw [if_neg (not_not_intro h0)]
        exact ⟨x, hx, he⟩
      · rw [if_pos h0]
        refine ⟨x, List.mem_cons_of_mem _ (mem_drop.mpr ⟨hx, fun h => hne h0 ?_⟩), he⟩
        exact hs.addr_inj hP hrec.holds hk (he.symm.trans h)
    · rw [if_pos h0]
      exact ⟨_, List.mem_cons_self, haddr.symm⟩

/-- **One call** in which no `mmap` fails keeps the books. When a refill fails, a slot is lost that
no client has. -/
theorem EffectOf.accounted (hP : ValidPage P) (hI : Inv P c A) (ha : Accounted P A c.live)
    (he : Effect P A c.state.os op r) (hu : r.2.2.Unrefused) :
    Accounted P r.2.1 (op.after false c.live r.1) := by
  have hs := hI.sound
  have hnull : drop c.live null = c.live := drop_of_not_mem (hI.ptr_ne_null hP)
  cases he with
  | malloc s => exact ha.serve (AHeap.malloc_gains hP hs (AHeap.not_lastTaken hs hu))
  | freeNull =>
    change Accounted P A (drop c.live null)
    rw [hnull]
    exact ha
  | free hk => exact ha.release hP hs hk
  | reallocNull s =>
    simpa [Op.after, hnull] using
      ha.serve (AHeap.malloc_gains hP hs (AHeap.not_lastTaken hs hu))
  | realloc s hk =>
    have hno := AHeap.not_lastTaken_realloc hP hs hk hu
    simpa [Op.after] using ha.resize hP hs hk (AHeap.realloc_gains hP hs hk hno)
  | write => exact ha

/-! ## Runs -/

theorem Accounted.empty : Accounted P AHeap.empty live := by
  intro k hk
  cases k with
  | slot c z i => exact absurd hk.1 not_hasZone_empty
  | block b => exact absurd hk not_mem_empty

/-- **In every run in which no `mmap` fails** the invariant holds and the books are kept. -/
theorem unrefused_inv [Platform] (hP : ValidPage P) {m : Mem} {answers : List (Option Nat)}
    {t : List (Op × Nat)} (hrun : Run mandatory ⟨World.init P m answers, []⟩ t c)
    (hu : c.state.os.Unrefused) : ∃ A, Inv P c A ∧ Accounted P A c.live := by
  let I : Config World → Prop := fun c =>
    ∃ A, Inv P c A ∧ (c.state.os.Unrefused → Accounted P A c.live)
  have hstart : I ⟨World.init P m answers, []⟩ :=
    ⟨_, init_inv hP, fun _ => Accounted.empty⟩
  have hstep : ∀ {c op q c'}, I c → True → Step mandatory c op q c' → I c' := by
    rintro c op q c' ⟨A, hI, ha⟩ - hs
    obtain ⟨r, he, rfl, hos, hI'⟩ := step_effect hP hI hs
    refine ⟨r.2.1, hI', fun hu' => ?_⟩
    rw [hos] at hu'
    rw [hs.live]
    exact he.accounted hP hI (ha (hu'.of_since (he.since hP hI))) hu'
  obtain ⟨A, hI, ha⟩ := hrun.invariant hstep hstart
  exact ⟨A, hI, ha hu⟩

end FtMalloc
