import FtMalloc.Lib.Interleave
import FtMalloc.Run.Bonus
import FtMalloc.Source.Atomic

/-!
# Threads of the bonus allocator (`bonus/src/malloc_bonus.c:221-365`, `bonus/src/mutex_bonus.c`)

Any number of threads call the bonus allocator. Each keeps the rules of `Op.Valid` for the
allocations it owns, with sizes that `malloc` does not turn away at once and resizings whose mapping
has a length that fits a `size_t` (`Op.InBounds`); between two atomic steps of a call (`Bonus.Pc`)
the others may take theirs. `ThreadStepIn` is the step of such a machine with any condition on the
calls, since some results are about fewer of them (`Op.InRange`).

A thread owns the allocations that were returned to it, up to the end of the call that releases
them, and from the end of its section on the block `realloc` has allocated and not returned yet.

Results:
* `call_eq_run`: the steps of a call, taken one after the other, are the call.
* `Step.reach`, `RunIn.reach`: a call of a sequential run, and the run, are steps of one thread that
  no other interrupts.
-/

namespace FtMalloc

open Lib Bonus

variable [Platform]

/-! ## Threads -/

/-- The first step of a call, by its entry point. -/
def Op.start : Op → Next
  | malloc s => startMalloc s
  | free p => startFree p
  | realloc p s => startRealloc p s
  | write a b => .go (.store a b)

/-- The sizes are from 1 to `PTRDIFF_MAX`, which `malloc` does not turn away (`malloc.c:207`). -/
def Op.InRange : Op → Prop
  | malloc s => 1 ≤ s ∧ s ≤ ptrdiffMax
  | realloc _ s => 1 ≤ s ∧ s ≤ ptrdiffMax
  | _ => True

instance : (op : Op) → Decidable op.InRange
  | .malloc s => inferInstanceAs (Decidable (1 ≤ s ∧ s ≤ ptrdiffMax))
  | .realloc _ s => inferInstanceAs (Decidable (1 ≤ s ∧ s ≤ ptrdiffMax))
  | .free _ => inferInstanceAs (Decidable True)
  | .write _ _ => inferInstanceAs (Decidable True)

/-- `malloc` does not refuse the sizes at once (`malloc_bonus.c:222`), and the length of the mapping
that `realloc` may ask for fits a `size_t` (`malloc_bonus.c:92, 352-354`). -/
def Op.InBounds : Op → Prop
  | malloc s => 1 ≤ s ∧ s ≤ ptrdiffMax
  | realloc p s => 1 ≤ s ∧ 48 + s < 2 ^ 64 ∧ (p = null → s ≤ ptrdiffMax)
  | _ => True

omit [Platform] in
theorem Op.InRange.inBounds {op : Op} (hr : op.InRange) : op.InBounds := by
  cases op with
  | malloc s => exact hr
  | realloc p s => exact ⟨hr.1, length_lt_of_le_ptrdiffMax hr.2, fun _ => hr.2⟩
  | free | write => trivial

omit [Platform] in
/-- A call that returns at once, before its first atomic step, is a release of NULL
(`malloc_bonus.c:294-297`). -/
theorem start_done {op : Op} {q : Nat} (hr : op.InBounds) (hs : op.start = .done q) :
    op = .free null ∧ q = null := by
  have hm : ∀ {s}, 1 ≤ s ∧ s ≤ ptrdiffMax → startMalloc s ≠ .done q := fun h => by
    unfold startMalloc
    rw [if_neg (by omega)]
    exact Next.noConfusion
  cases op with
  | malloc s => exact absurd hs (hm hr)
  | free p =>
    simp only [Op.start, startFree] at hs
    split at hs
    · rename_i h0
      cases hs
      exact ⟨congrArg _ h0, rfl⟩
    · cases hs
  | realloc p s =>
    simp only [Op.start, startRealloc] at hs
    have h0 : s ≠ 0 := by
      have := hr.1
      omega
    split at hs
    · rename_i hp
      exact absurd hs (hm ⟨hr.1, hr.2.2 hp⟩)
    · cases hs
  | write a c => cases hs

/-- A call under way: what was asked for, the memory at that moment (no step reads it), and what
comes next. -/
structure Activity where
  op : Op
  before : Mem
  pc : Pc

/-- A thread: the allocations returned to it and not given back, and the call it is in. -/
structure Thread where
  live : List Alloc
  call : Option Activity

/-- The block that `realloc` has allocated and not returned yet: it is the thread's, though no call
has returned it. -/
def Bonus.Pc.pending : Pc → List Alloc
  | .copy _ size _ _ new => [⟨new, size⟩]
  | .release _ size _ new => [⟨new, size⟩]
  | _ => []

namespace Thread

/-- What a thread owns: what was returned to it, and the block its `realloc` has allocated and not
returned yet. -/
def owned (t : Thread) : List Alloc :=
  match t.call with
  | some a => a.pc.pending ++ t.live
  | none => t.live

/-- The thread after a step: it goes on, or its call returns. -/
def settle (live : List Alloc) (op : Op) (before : Mem) : Next → Thread
  | .go pc => ⟨live, some ⟨op, before, pc⟩⟩
  | .done q => ⟨op.after bonus.zeroFrees live q, none⟩

omit [Platform] in
theorem owned_of_call {t : Thread} {a : Activity} (h : t.call = some a) :
    t.owned = a.pc.pending ++ t.live := by
  unfold owned
  rw [h]

end Thread

/-- An atomic step of a thread whose calls satisfy `R`: it calls, or its call takes a step. -/
inductive ThreadStepIn (R : Op → Prop) : BonusWorld → Thread → BonusWorld → Thread → Prop
  | call {W : BonusWorld} {live : List Alloc} {op : Op} : op.Valid live → R op →
      ThreadStepIn R W ⟨live, none⟩ W (.settle live op W.world.mem op.start)
  | exec {W W' : BonusWorld} {live : List Alloc} {a : Activity} {o : Next} :
      a.pc.exec W = some (o, W') →
      ThreadStepIn R W ⟨live, some a⟩ W' (.settle live a.op a.before o)

/-- An atomic step of a thread that makes any call within the bounds. -/
abbrev ThreadStep : BonusWorld → Thread → BonusWorld → Thread → Prop := ThreadStepIn Op.InBounds

theorem ThreadStepIn.mono {R R' : Op → Prop} (h : ∀ op, R op → R' op) {W W' : BonusWorld}
    {t t' : Thread} (hs : ThreadStepIn R W t W' t') : ThreadStepIn R' W t W' t' := by
  cases hs with
  | call hv hr => exact .call hv (h _ hr)
  | exec hrun => exact .exec hrun

/-- The threads before their first calls, which own nothing. -/
def Threads.init (ι : Type) (P : Nat) (m : Mem) (answers : List (Option Nat)) :
    Sys ι BonusWorld Thread :=
  ⟨BonusWorld.init P m answers, fun _ => ⟨[], none⟩⟩

/-- A state that some interleaving of any number of threads reaches, one atomic step at a time. -/
def Threads.Reachable {ι : Type} [DecidableEq ι] (P : Nat) (S : Sys ι BonusWorld Thread) : Prop :=
  ValidPage P ∧ ∃ m answers, Sys.Reach ThreadStep (Threads.init ι P m answers) S

/-! ## A call alone -/

section Alone

variable {ι : Type} [DecidableEq ι] {S : Sys ι BonusWorld Thread} {i : ι} {W W' : BonusWorld}
  {op : Op} {q : Nat} {R : Op → Prop}

/-- Interleavings of calls with sizes up to `PTRDIFF_MAX` are interleavings. -/
theorem Threads.reach_inBounds {S₀ : Sys ι BonusWorld Thread}
    (hr : Sys.Reach (ThreadStepIn Op.InRange) S₀ S) : Sys.Reach ThreadStep S₀ S :=
  hr.mono fun hs => hs.mono fun _ => Op.InRange.inBounds

/-- A call that no other thread interrupts, by induction on its steps. -/
theorem Next.reach (live : List Alloc) (op : Op) (before : Mem) {n : Nat} {o : Next}
    (hrun : o.run n W = some (q, W')) :
    Sys.Reach (ThreadStepIn R) (S.set i W (.settle live op before o))
      (S.set i W' (.settle live op before (.done q))) := by
  induction n generalizing o W with
  | zero =>
    cases o with
    | go pc => cases hrun
    | done q' =>
      obtain ⟨rfl, rfl⟩ := Prod.mk.inj (Option.some.inj hrun)
      exact Relation.ReflTransGen.refl
  | succ n ih =>
    cases o with
    | go pc =>
      obtain ⟨o, W₁, h1, h2⟩ := Prog.bind_eq_some.mp hrun
      have hstep : Sys.Step (ThreadStepIn R) (S.set i W (.settle live op before (.go pc)))
          (S.set i W₁ (.settle live op before o)) := by
        have hexec : ThreadStepIn R W (.settle live op before (.go pc)) W₁
            (.settle live op before o) := .exec h1
        have hmk := Sys.Step.mk (S := S.set i W (.settle live op before (.go pc))) i
          (by rw [Sys.set_thread]; exact hexec)
        rwa [Sys.set_set] at hmk
      exact Relation.ReflTransGen.head hstep (ih h2)
    | done q' =>
      obtain ⟨rfl, rfl⟩ := Prod.mk.inj (Option.some.inj hrun)
      exact Relation.ReflTransGen.refl

/-- The steps of a call are the call, at most four of them. -/
theorem call_eq_run (op : Op) : bonus.call op = op.start.run 4 := by
  cases op with
  | malloc s => exact malloc_eq_run s
  | free p => exact free_eq_run p
  | realloc p s => exact realloc_eq_run p s
  | write a b =>
    simp only [Op.start, run_go, Pc.exec, bind_assoc, pure_bind, run_done]
    rfl

/-- **A call of a sequential run** is steps of one thread, the others standing still. -/
theorem Step.reach {c c' : Config BonusWorld} (hs : Step bonus c op q c') (hr : R op)
    (hi : S.thread i = ⟨c.live, none⟩) (hS : S.shared = c.state) :
    Sys.Reach (ThreadStepIn R) S (S.set i c'.state ⟨c'.live, none⟩) := by
  have hcall : ThreadStepIn R S.shared (S.thread i) S.shared
      (.settle c.live op S.shared.world.mem op.start) := by
    rw [hi]
    exact .call hs.valid hr
  have hrun := hs.run
  rw [call_eq_run, ← hS] at hrun
  have hreach := Next.reach (R := R) (S := S) (i := i) c.live op S.shared.world.mem hrun
  rw [Thread.settle, ← hs.live] at hreach
  exact Relation.ReflTransGen.head (Sys.Step.mk i hcall) hreach

/-- A sequential run is steps of one thread, call by call. -/
theorem RunIn.reach {c c' : Config BonusWorld} {t : List (Op × Nat)}
    (hrun : RunIn bonus (fun _ op => R op) c t c') (hi : S.thread i = ⟨c.live, none⟩)
    (hS : S.shared = c.state) :
    Sys.Reach (ThreadStepIn R) S (S.set i c'.state ⟨c'.live, none⟩) := by
  induction hrun with
  | nil =>
    rw [← hS, ← hi, Sys.set_self]
  | snoc _ hr hs ih =>
    have hlast := hs.reach (S := S.set i _ _) hr Sys.set_thread rfl
    rw [Sys.set_set] at hlast
    exact ih.trans hlast

end Alone

end FtMalloc
