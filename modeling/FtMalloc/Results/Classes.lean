import FtMalloc.Results.Sizes
import FtMalloc.Run.Classes

/-!
# One lock for each class (`bonus/src/malloc_bonus.c:146-291`, `bonus/src/mutex_bonus.c:3-21`)

`malloc`, `free` and `realloc` take one mutex for each of the three classes, so sections of
different classes may run in any order.

Results:
* `sections_commute`: in every state of an initialised heap, two sections of different classes,
  each with its own `mmap` results, return the same and leave the same heap in either order. The
  state is reached by one thread or by several, without a mapping whose length wraps.
* `sections_conflict`: after a resizing to `2 ^ 64 - 1` bytes, the client's writes to its allocation
  may make two sections conflict.
-/

namespace FtMalloc

open Lib Bonus

variable {P : Nat} {A : AHeap} {W : BonusWorld} {live : Alloc → Prop} {a b : Locked}

/-- The states of the bonus allocator and the live allocations: after the calls of one thread
whose mappings do not wrap, or between two atomic steps of any number of threads. -/
inductive Bonus.Reached [Platform] (P : Nat) : BonusWorld → (Alloc → Prop) → Prop
  | run {m : Mem} {answers : List (Option Nat)} {t : List (Op × Nat)} {c : Config BonusWorld} :
      RunIn bonus Unwrapped ⟨BonusWorld.init P m answers, []⟩ t c →
      Reached P c.state (· ∈ c.live)
  | threads {ι : Type} [DecidableEq ι] {S : Lib.Sys ι BonusWorld Thread} :
      Threads.Reachable P S → Reached P S.shared fun x => ∃ i, x ∈ (S.thread i).owned

/-- Sections of different classes commute, when the results of their `mmap` calls are failures and
fresh regions that are apart. -/
def SectionsCommute [Platform] (P : Nat) (W : BonusWorld) (live : Alloc → Prop) : Prop :=
  ∀ a b : Locked, a.Valid W live → b.Valid W live → a.mutex ≠ b.mutex → a.Fresh P W →
    b.Fresh P W → a.Apart P b → a.Commute b W

/-- The invariant of a reached state. -/
theorem Bonus.Reached.inv [Platform] (hP : ValidPage P) (hr : Reached P W live) :
    ∃ A, HeapInv P A W ∧ ∀ x, live x → ∃ k, A.Holds k ∧ k.addr P = x.ptr := by
  cases hr with
  | run hrun =>
    obtain ⟨A, hI⟩ := Bonus.run_inv hP hrun
    refine ⟨A, ⟨hI.inv.rep, hI.inv.ok, hI.free⟩, fun x hx => ?_⟩
    exact hI.inv.cell ⟨x, hx, rfl⟩
  | threads hS =>
    obtain ⟨A, hh⟩ := threads_inv hS
    refine ⟨A, hh.shared, fun x hx => ?_⟩
    obtain ⟨i, hx⟩ := hx
    obtain ⟨k, hk, haddr, -⟩ := (hh.own i).owned.cell x hx
    exact ⟨k, hk, haddr⟩

/-- **The locks of the classes are enough.** In a state of an initialised heap that is reached
without a mapping of a wrapped length, two sections of different classes that do not get one either
commute. -/
theorem sections_commute [Platform] (hP : ValidPage P) (hr : Reached P W live)
    (hi : W.world.heap.initialized ≠ 0) (hwa : a.Unwrapped W) (hwb : b.Unwrapped W)
    (ha : a.Valid W live) (hb : b.Valid W live) (hne : a.mutex ≠ b.mutex) (hfa : a.Fresh P W)
    (hfb : b.Fresh P W) (hap : a.Apart P b) : a.Commute b W := by
  obtain ⟨A, hI, hlive⟩ := hr.inv hP
  have hinit : A.initialized = true := by
    have hflag := hI.rep.flag
    by_contra hn
    rw [if_neg hn] at hflag
    exact hi hflag
  obtain ⟨t, hat, ht⟩ := Locked.task_of hP hI hinit hlive ha hwa
  obtain ⟨u, hbu, hu⟩ := Locked.task_of hP hI hinit hlive hb hwb
  have hcls : t.cls ≠ u.cls := by
    intro h
    rw [hat.mutex, hbu.mutex, h] at hne
    exact hne rfl
  exact commute_of_tasks hP hI hat hbu ht hu hcls hfa hfb hap

/-- A client has a tiny block. A tiny block more and a large one that is mapped for it. -/
theorem sections_commute_sample : ∃ W live,
    (Locked.alloc 24 []).Commute (.alloc 2000 [some 1048576]) W ∧ Reached 4096 W live := by
  have heval : (Bonus.malloc 1 (BonusWorld.init 4096 (fun _ => 0) sampleAnswers)).map
      (fun r => (r.2.world.heap.initialized, decide (r.2.world.os.Grants 2048 1048576))) =
      some (1, true) := by decide +kernel
  obtain ⟨⟨p, W⟩, hrun, he⟩ := Option.map_eq_some_iff.mp heval
  obtain ⟨hi, hgrants⟩ := Prod.mk.inj he
  have hstep : Step bonus ⟨BonusWorld.init 4096 (fun _ => 0) sampleAnswers, []⟩ (.malloc 1) p
      ⟨W, (Op.malloc 1).after true [] p⟩ := ⟨valid_malloc (by decide), hrun, rfl⟩
  have hr := Reached.run (RunIn.nil.snoc (fun _ _ he => by cases he) hstep)
  have hinit : W.world.heap.initialized ≠ 0 := by
    simp only at hi
    rw [hi]
    decide
  refine ⟨W, _, sections_commute validPage_4096 hr hinit (Or.inl (by decide)) (Or.inl (by decide))
    (by decide : 24 < 2 ^ 64) (by decide : 2000 < 2 ^ 64) (by decide) ?_ ?_ ?_, hr⟩
  · simp [Locked.Fresh, Locked.answers]
  · intro x hx
    obtain rfl : x = 1048576 := by simpa [Locked.answers] using hx
    exact of_decide_eq_true hgrants
  · simp [Locked.Apart, Locked.answers]

/-! ## A wrapped mapping -/

/-- A block is resized to `2 ^ 64 - 1` bytes, which reach over the tiny zone at `65536`. The client
writes one of them: the third byte of `zone->requested_sizes`. -/
def overwrite [Platform] : B Unit := do
  let _ ← resizeTo (2 ^ 64 - 1)
  lift (storeByte 65562 0x11)

/-- The kernel of this run: the tiny zone, the small zone, and the page of the wrapped mapping. -/
def wrapAnswers : List (Option Nat) := [some 65536, some 1114112, some 4096]

/-- The requested size of the first slot of the small zone, after two sections. -/
def firstSize [Platform] (x : B (Nat × Nat)) : Option Nat :=
  (((overwrite >>= fun _ => x) : B (Nat × Nat))
    (BonusWorld.init 4096 (fun _ => 0) wrapAnswers)).map fun r => ld r.2.world.mem 8 1114197

/-- **A conflict.** The array of requested sizes of the tiny zone is that of the small zone. -/
theorem sections_conflict : ¬∀ m answers t c,
    Run bonus ⟨BonusWorld.init 4096 m answers, []⟩ t c → c.state.world.heap.initialized ≠ 0 →
      SectionsCommute 4096 c.state (· ∈ c.live) := by
  intro h
  have hfirst : ((resizeTo (2 ^ 64 - 1)) (BonusWorld.init 4096 (fun _ => 0) wrapAnswers)).map
      (fun r => (r.1, r.2.world.heap.initialized, decide (r.2.world.os.Mapped 65562 1))) =
      some (4144, 1, true) := by decide +kernel
  obtain ⟨⟨q, W⟩, hrun, he⟩ := Option.map_eq_some_iff.mp hfirst
  obtain ⟨rfl, he⟩ := Prod.mk.inj he
  obtain ⟨hi, hmapped⟩ := Prod.mk.inj he
  obtain ⟨t, c, hc, rfl, hlive⟩ := resizeTo_run (G := fun _ _ => True) (by decide) hrun (by decide)
    fun _ => ⟨trivial, fun _ => trivial⟩
  -- the write is in the bytes the client asked for
  have hstore : lift (storeByte 65562 0x11) c.state = some ((), { c.state with
      world := c.state.world.setMem (put c.state.world.mem 65562 0x11) }) :=
    lift_of (storeByte_of (of_decide_eq_true hmapped))
  have hstep : Step bonus c (.write 65562 0x11) null
      ⟨{ c.state with world := c.state.world.setMem (put c.state.world.mem 65562 0x11) }, c.live⟩ :=
    ⟨⟨_, hlive, by decide, by decide⟩, Prog.bind_to hstore rfl, rfl⟩
  have hinit : c.state.world.heap.initialized ≠ 0 := by
    simp only at hi
    rw [hi]
    decide
  have hcommute := h _ _ _ _ (hc.snoc trivial hstep) hinit (.alloc 24 []) (.alloc 500 [])
    (by decide : 24 < 2 ^ 64) (by decide : 500 < 2 ^ 64) (by decide)
    (by simp [Locked.Fresh, Locked.answers]) (by simp [Locked.Fresh, Locked.answers])
    (by simp [Locked.Apart, Locked.answers])
  obtain ⟨p, q, W₁, W₂, h1, h2, hsame, -⟩ := hcommute
  have hover : overwrite (BonusWorld.init 4096 (fun _ => 0) wrapAnswers) = some ((), { c.state with
      world := c.state.world.setMem (put c.state.world.mem 65562 0x11) }) :=
    Prog.bind_to hrun hstore
  have e1 : firstSize (do
      let p ← (Locked.alloc 24 []).run
      let q ← (Locked.alloc 500 []).run
      pure (p, q)) = some 500 := by decide +kernel
  have e2 : firstSize (do
      let q ← (Locked.alloc 500 []).run
      let p ← (Locked.alloc 24 []).run
      pure (p, q)) = some 24 := by decide +kernel
  unfold firstSize at e1 e2
  rw [Prog.bind_of hover, h1, Option.map_some] at e1
  rw [Prog.bind_of hover, h2, Option.map_some, ← hsame.mem] at e2
  cases e1.symm.trans e2

end FtMalloc
