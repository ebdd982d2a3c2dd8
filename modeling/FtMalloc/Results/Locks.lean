import FtMalloc.Run.Following

/-!
# The mutexes (`bonus/src/malloc_bonus.c:221-365`, `bonus/src/mutex_bonus.c`)

`locks_balanced`: any number of threads, any calls with resizings whose mapping has a length that
fits a `size_t`, any answers of `mmap`, any interleaving. A thread has at most one mutex, unlocks
that one and no other, and has none when its call returns; and as long as a call is unfinished, one
of the unfinished calls does not wait for a mutex and can take its next step.

A mutex is unlocked by the type that a local variable still has, not by one that is read again from
the zone or block, so it does not matter that the section may have unmapped it.
-/

namespace FtMalloc

open Lib Bonus

variable {P : Nat} {ι : Type} [DecidableEq ι] {S : Sys ι Traced Caller} {i : ι} {m : Mutex}
  {op : Op} {p : Point} {o : Onward}

/-- No place has two mutexes. -/
theorem locks_length (p : Point) : p.locks.length ≤ 1 := by
  cases p <;> simp [Point.locks]

omit [DecidableEq ι] in
/-- A thread has one mutex at most. -/
theorem LocksKept.one (hd : LocksKept S) (i : ι) : (S.thread i).locks.length ≤ 1 := by
  rw [hd.due i, Caller.due]
  cases (S.thread i).call with
  | none => exact Nat.zero_le 1
  | some c => exact locks_length c.2

omit [DecidableEq ι] in
/-- A thread that unlocks a mutex has that one. -/
theorem LocksKept.own [Platform] (hd : LocksKept S) (hi : (S.thread i).call = some (op, p))
    (hp : p.action = .unlock m o) : (S.thread i).locks = [m] := by
  rw [hd.due i, Caller.due, hi]
  exact (unlock_locks hp).1

omit [DecidableEq ι] in
/-- A thread that waits has none. -/
theorem LocksKept.waits [Platform]
    (hd : LocksKept S) (hw : (S.thread i).WaitsFor S.shared.bonus m) :
    (S.thread i).locks = [] := by
  obtain ⟨-, op, p, p', hi, hp⟩ := hw
  rw [hd.due i, Caller.due, hi]
  exact (lock_locks hp).1

omit [DecidableEq ι] in
/-- **Somebody is awake**: when a call is unfinished, there is one that does not wait. -/
theorem LocksKept.exists_awake [Platform] (hd : LocksKept S) (hi : (S.thread i).call ≠ none) :
    ∃ j, (S.thread j).call ≠ none ∧ ∀ m, ¬(S.thread j).WaitsFor S.shared.bonus m := by
  by_cases hw : ∃ m, (S.thread i).WaitsFor S.shared.bonus m
  · obtain ⟨m, hw⟩ := hw
    obtain ⟨j, hm, hj⟩ := hd.balanced.exists_awake (fun t m => t.WaitsFor S.shared.bonus m)
      (fun _ _ h => hd.waits h) hw.1
    refine ⟨j, fun hnone => ?_, hj⟩
    rw [hd.idle hnone] at hm
    exact absurd hm List.not_mem_nil
  · exact ⟨i, hi, fun m hm => hw ⟨m, hm⟩⟩

end FtMalloc
