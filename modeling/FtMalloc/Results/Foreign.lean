import FtMalloc.Run.Observe
import FtMalloc.Source.Reads

/-!
# Foreign pointers in the bonus allocator (`bonus/src/malloc_bonus.c:293-344`)

`free` takes a header word below `2 ^ 32` for that of a block of another allocator and returns
(`malloc_bonus.c:299-304`). `realloc` decodes the same word without the test: it reads `type`
through it before anything else.

Results:
* `foreign_left_alone`: `free(p)` and `realloc(p, 0)` leave the heap alone and follow no address
  taken from the word, and these are the only calls on such a pointer that do (`LeftAlone`).
* `foreign_followed`: a resizing of a block of the C library faults on the address it took from
  the word.
-/

namespace FtMalloc

open Lib

namespace Bonus

open Reads

/-- An address inside the zone or the block that `word` is taken to refer to. -/
def Derived (word a : Nat) : Prop :=
  metaZone word ≤ a ∧ a < metaZone word + ZoneT.sizeof ∨ word ≤ a ∧ a < word + BlockT.sizeof

/-- A call on a pointer: `free(p)` or `realloc(p, n)`. -/
inductive PtrCall
  | free
  | realloc (n : Nat)
  deriving DecidableEq

/-- What the call does to `p`, with the addresses it reads. -/
def PtrCall.exec [Platform] (p : Nat) : PtrCall → R Nat
  | .free => do
    Reads.free p
    pure null
  | .realloc n => Reads.realloc p n

/-- The call returns, leaves the heap as it is, and after the word before `p` reads no address
derived from it. -/
def LeftAlone [Platform] (W : BonusWorld) (p : Nat) (call : PtrCall) : Prop :=
  ∃ q W' rest, call.exec p ⟨W, []⟩ = some (q, ⟨W', (p - 8) :: rest⟩) ∧
    W'.world.view = W.world.view ∧ ∀ a ∈ rest, ¬Derived (ld W.world.mem 8 (p - 8)) a

variable {W : BonusWorld} {p n : Nat} {s : Reader}

theorem load_word (hmap : s.state.world.os.Mapped (p - 8) 8) :
    Reads.load 8 (p - 8) s =
      some (ld s.state.world.mem 8 (p - 8), ⟨s.state, s.reads ++ [p - 8]⟩) := by
  have h : lift (FtMalloc.load 8 (p - 8)) s.state =
      some (ld s.state.world.mem 8 (p - 8), s.state) := lift_of (load_of hmap)
  change (lift (FtMalloc.load 8 (p - 8)) s.state).map _ = _
  rw [h]
  rfl

/-- **The guard of `free`** is before every use of the word. -/
theorem free_guarded [Platform] (hp : p ≠ null) (hmap : W.world.os.Mapped (p - 8) 8)
    (hlow : ld W.world.mem 8 (p - 8) < 2 ^ 32) :
    Reads.free p ⟨W, []⟩ = some ((), ⟨W, [p - 8]⟩) := by
  refine Prog.if_false_run hp (Prog.bind_to (load_word hmap) ?_)
  exact Prog.if_true_run hlow rfl

/-- The type is read through the word. -/
theorem headerType_derived {word : Nat} {t : Int} {s' : Reader}
    (h : Reads.headerType word s = some (t, s')) :
    ∃ a, Derived word a ∧ s'.reads = s.reads ++ [a] := by
  unfold Reads.headerType at h
  split at h
  · refine ⟨_, Or.inl ?_, loadInt_run h⟩
    simp only [ZoneT.type, ZoneT.sizeof]
    omega
  · refine ⟨_, Or.inr ?_, loadInt_run h⟩
    simp only [BlockT.type, BlockT.sizeof]
    omega

/-- **A resizing to some bytes** that returns has followed the word. -/
theorem realloc_follows [Platform] {q : Nat} {s' : Reader} (hp : p ≠ null) (hn : n ≠ 0)
    (hmap : W.world.os.Mapped (p - 8) 8) (h : Reads.realloc p n ⟨W, []⟩ = some (q, s')) :
    ∃ a rest, Derived (ld W.world.mem 8 (p - 8)) a ∧ s'.reads = (p - 8) :: a :: rest := by
  unfold Reads.realloc at h
  rw [Prog.ite_run, if_neg hp, Prog.ite_run, if_neg hn, Prog.bind_of (load_word hmap)] at h
  obtain ⟨t, s₁, htype, hrest⟩ := Prog.bind_eq_some.mp h
  obtain ⟨a, ha, hreads⟩ := headerType_derived htype
  refine ⟨a, ?_⟩
  have hgrow : s₁.reads <+: s'.reads := by
    refine Records.bind currentSize_records (fun current => ?_) _ _ _ hrest
    refine (records_pure _).ite ((records_call _).bind fun new => (records_pure _).ite ?_)
    exact (records_call _).bind fun _ => (records_call _).bind fun _ => records_pure _
  obtain ⟨rest, hrest⟩ := hgrow
  exact ⟨rest, ha, by rw [← hrest, hreads]; rfl⟩

/-- **Foreign pointers.** Of the calls on a pointer whose preceding word is below `2 ^ 32`, exactly
`free` and the resizing to nothing leave the heap alone and do not follow the word. -/
theorem foreign_left_alone [Platform] (hp : p ≠ null) (hmap : W.world.os.Mapped (p - 8) 8)
    (hlow : ld W.world.mem 8 (p - 8) < 2 ^ 32) (call : PtrCall) :
    LeftAlone W p call ↔ call = .free ∨ call = .realloc 0 := by
  have hfree := free_guarded hp hmap hlow
  have hnone : ∀ a ∈ ([] : List Nat), ¬Derived (ld W.world.mem 8 (p - 8)) a :=
    fun _ ha => absurd ha List.not_mem_nil
  constructor
  · rintro ⟨q, W', rest, hrun, -, hrest⟩
    cases call with
    | free => exact Or.inl rfl
    | realloc n =>
      by_cases hn : n = 0
      · rw [hn]
        exact Or.inr rfl
      · obtain ⟨a, rest', ha, hreads⟩ := realloc_follows hp hn hmap hrun
        obtain ⟨-, rfl⟩ := List.cons.inj hreads
        exact absurd ha (hrest a List.mem_cons_self)
  · rintro (rfl | rfl)
    · exact ⟨null, W, [], Prog.bind_to hfree rfl, rfl, hnone⟩
    · refine ⟨null, W, [], Prog.if_false_run hp (Prog.if_true_run rfl ?_), rfl, hnone⟩
      exact Prog.bind_to hfree rfl

/-- A page that holds a block of the C library: the word before the block is its size and a flag. -/
def librarySide : BonusWorld where
  world := {
    heap := Heap.init
    mem := st (fun _ => 0) 8 4104 0x21
    os := ⟨4096, [⟨4096, 4096⟩], [], []⟩ }
  held := unlocked

theorem librarySide_word : ld librarySide.world.mem 8 (4112 - 8) < 2 ^ 32 := by
  rw [show librarySide.world.mem = st (fun _ => 0) 8 (4112 - 8) 0x21 from rfl,
    ld_st_same (by decide)]
  decide

theorem foreign_left_alone_free : LeftAlone librarySide 4112 .free :=
  (foreign_left_alone (by decide) (by decide) librarySide_word _).mpr (Or.inl rfl)

/-- **A resizing follows the word**: `realloc(p, 100)` reads `type` at `0x21 + 8` and faults. -/
theorem foreign_followed : 4112 ≠ null ∧ librarySide.world.os.Mapped (4112 - 8) 8 ∧
    ld librarySide.world.mem 8 (4112 - 8) < 2 ^ 32 ∧ Bonus.realloc 4112 100 librarySide = none ∧
      ¬LeftAlone librarySide 4112 (.realloc 100) := by
  have hnone : Reads.realloc 4112 100 ⟨librarySide, []⟩ = none :=
    Option.isNone_iff_eq_none.mp (by decide +kernel)
  refine ⟨by decide, by decide, librarySide_word, ?_, ?_⟩
  · rw [← realloc_erases 4112 100 ⟨librarySide, []⟩, hnone]
    rfl
  · rintro ⟨q, W', rest, hrun, -⟩
    rw [PtrCall.exec, hnone] at hrun
    cases hrun

end Bonus

end FtMalloc
