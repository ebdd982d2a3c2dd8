import FtMalloc.Source.Malloc
import Mathlib.Logic.Function.Basic

/-!
# The bonus allocator (`bonus/src/malloc_bonus.c`, `bonus/src/mutex_bonus.c`)

The functions in which the bonus allocator differs from `malloc.c`: `find_set_bit`, `malloc`,
`free`, `realloc` and the locks. `create_zone`, `create_block`, `setup_global_heap`,
`calculate_zone_block_address`, `find_free_block` over its `find_set_bit`,
`find_free_large_block`, `alloc_block`, the list functions and the body of `free_ptr` are those of
`Source/Malloc.lean` and `Source/List.lean`; `lift` runs them beside the mutexes.

A mutex is held or not. Locking a mutex that is held never returns for a single thread, and
unlocking one that is not held is undefined (`pthread_mutex_t` of the default type): both are
`none`.

The parts of `malloc`, `free` and `realloc` that run under a mutex are functions of their own
(`setupSection`, `allocSection`, `freeSection`).
-/

namespace FtMalloc

open Lib

variable [Platform]

/-! ## Mutexes -/

/-- The mutexes: `heap_mutex` and the three of `heap_t` (`malloc_bonus.h:66-81`). -/
inductive Mutex
  | heap
  | tiny
  | small
  | large
  deriving DecidableEq, Repr

/-- The state of the bonus allocator: the machine, and which of the four mutexes are held. -/
structure BonusWorld where
  world : World
  held : Mutex → Bool

namespace Bonus

/-- A function of the bonus allocator, run without another thread in between. -/
abbrev B (α : Type) := Prog BonusWorld α

/-- A function that uses no mutex. -/
def lift {α : Type} (x : C α) : B α := fun w =>
  (x w.world).map fun r => (r.1, { w with world := r.2 })

/-- `pthread_mutex_lock`. A call that runs alone would wait for ever for a mutex that is held. -/
def lock (m : Mutex) : B Unit := fun w =>
  if w.held m then none else some ((), { w with held := Function.update w.held m true })

/-- `pthread_mutex_unlock` of a mutex that is held. -/
def unlock (m : Mutex) : B Unit := fun w =>
  if w.held m then some ((), { w with held := Function.update w.held m false }) else none

/-- The mutex of a type (`mutex_bonus.c:3-21`): every type but the first two has that of the large
blocks. -/
def mutexOf (type : Int) : Mutex :=
  if type = tinyBlock then .tiny else if type = smallBlock then .small else .large

/-- `lock_list` (`mutex_bonus.c:3-11`). -/
def lockList (type : Int) : B Unit := lock (mutexOf type)

/-- `unlock_list` (`mutex_bonus.c:13-21`). -/
def unlockList (type : Int) : B Unit := unlock (mutexOf type)

/-! ## Finding a block -/

/-- `find_set_bit` (`malloc_bonus.c:116-136`): unlike that of `malloc.c` it does not return a set
bit past the last block, but -1 (`malloc_bonus.c:127-128`). -/
def findSetBit (zone : Nat) : C Int := do
  if zone = null then
    pure (-1)
  else
    let n ← loadInt (zone + ZoneT.numberOfBlocks)
    let bitmap ← load 8 (zone + ZoneT.bitmap)
    scanBytes bitmap (fun b => if (b : Int) ≥ n then -1 else b) 0 ((wrapInt (n + 7)).tdiv 8).toNat

/-- `alloc_block` (`malloc_bonus.c:202-219`), which is that of `malloc.c` over the other
`find_set_bit`. -/
def allocBlock : Nat → C Nat := allocBlockWith findSetBit

/-! ## `malloc` -/

/-- The type a request of `size` bytes is served from (`malloc_bonus.c:238-239`, and again for
`realloc` in 350-351). -/
def typeOf (size : Nat) : Int :=
  if size ≤ tinyBlockSize then tinyBlock
  else if size ≤ smallBlockSize then smallBlock
  else largeBlock

/-- The part of `malloc` under `heap_mutex` (`malloc_bonus.c:228-236`): the second test of
`initialized` and the setup, with an unlock on either way out. -/
def setupSection : B Int := do
  lock .heap
  let e ← lift ensureSetup
  unlock .heap
  pure e

/-- The first test of `initialized`, which takes no lock (`malloc_bonus.c:227-237`). -/
def checkSetup : B Int := do
  let w ← Prog.get
  if w.world.heap.initialized = 0 then setupSection else pure 0

/-- The part of `malloc` and `realloc` under the mutex of a type: `alloc_block`
(`malloc_bonus.c:240-242`, `352-354`). -/
def allocSection (size : Nat) : B Nat := do
  lockList (typeOf size)
  let ptr ← lift (allocBlock size)
  unlockList (typeOf size)
  pure ptr

/-- `malloc` (`malloc_bonus.c:221-245`). -/
def malloc (size : Nat) : B Nat := do
  if size = 0 ∨ size > ptrdiffMax then
    pure null
  else
    let e ← checkSetup
    if e ≠ 0 then pure null else allocSection size

/-! ## `free` -/

/-- The part of `free` and `realloc` under the mutex of a type: `free_ptr`
(`malloc_bonus.c:312-314`, `361-363`). -/
def freeSection (type : Int) (ptr : Nat) : B Unit := do
  lockList type
  lift (freePtr ptr)
  unlockList type

/-- The type in the zone or block a header word refers to (`malloc_bonus.c:307`), read without a
lock. -/
def headerType (word : Nat) : C Int :=
  if metaIsZone word then loadInt (metaZone word + ZoneT.type) else loadInt (word + BlockT.type)

/-- `free` (`malloc_bonus.c:293-315`). A header word below `2 ^ 32`, or with a type that is none of
the three, is taken for that of another allocator's block and left alone. -/
def free (ptr : Nat) : B Unit := do
  if ptr = null then
    pure ()
  else
    let word ← lift (load 8 (ptr - 8))
    if word < 0x100000000 then
      pure ()
    else
      let type ← lift (headerType word)
      if type ≠ tinyBlock ∧ type ≠ smallBlock ∧ type ≠ largeBlock then pure ()
      else freeSection type ptr

/-! ## `realloc` -/

/-- `realloc` (`malloc_bonus.c:317-365`): size 0 releases the block, as `malloc.c` does not. It has
none of the guards of `free`, and calls `alloc_block` directly, past the tests of `malloc`. -/
def realloc (ptr size : Nat) : B Nat := do
  if ptr = null then
    malloc size
  else if size = 0 then
    free ptr
    pure null
  else
    let word ← lift (load 8 (ptr - 8))
    let oldType ← lift (headerType word)
    let current ← lift (currentSize word)
    if size ≤ current then
      pure ptr
    else
      let new ← allocSection size
      if new = null then
        pure null
      else
        lift (ftMemcpy new ptr current)
        freeSection oldType ptr
        pure new

/-! ## Runs -/

variable {α : Type} {w : BonusWorld} {x : C α} {a : α} {w' : World} {m : Mutex}

/-- No mutex is held, as between two calls of a program with one thread. -/
def unlocked : Mutex → Bool := fun _ => false

omit [Platform] in
theorem lift_of (h : x w.world = some (a, w')) :
    lift x w = some (a, { w with world := w' }) := by
  unfold lift
  rw [h]
  rfl

omit [Platform] in
theorem lock_of (h : w.held m = false) :
    lock m w = some ((), { w with held := Function.update w.held m true }) := by
  unfold lock
  rw [h]
  rfl

omit [Platform] in
/-- What a section locked it unlocks. -/
theorem unlock_of (h : w.held m = false) :
    unlock m ⟨w', Function.update w.held m true⟩ = some ((), { w with world := w' }) := by
  unfold unlock
  simp only [Function.update_self, if_true, Function.update_idem]
  rw [← h, Function.update_eq_self]

/-- **A section** whose mutex is free does what it does without one. -/
theorem allocSection_run {size p : Nat} (h : w.held = unlocked)
    (hx : allocBlock size w.world = some (p, w')) :
    allocSection size w = some (p, { w with world := w' }) := by
  have hfree : w.held (mutexOf (typeOf size)) = false := by rw [h]; rfl
  exact Prog.bind_to (lock_of hfree)
    (Prog.bind_to (lift_of hx) (Prog.bind_to (unlock_of hfree) rfl))

theorem freeSection_run {type : Int} {ptr : Nat} (h : w.held = unlocked)
    (hx : freePtr ptr w.world = some ((), w')) :
    freeSection type ptr w = some ((), { w with world := w' }) := by
  have hfree : w.held (mutexOf type) = false := by rw [h]; rfl
  exact Prog.bind_to (lock_of hfree) (Prog.bind_to (lift_of hx) (unlock_of hfree))

omit [Platform] in
theorem setupSection_run {e : Int} (h : w.held = unlocked)
    (hx : ensureSetup w.world = some (e, w')) :
    setupSection w = some (e, { w with world := w' }) := by
  have hfree : w.held .heap = false := by rw [h]; rfl
  exact Prog.bind_to (lock_of hfree)
    (Prog.bind_to (lift_of hx) (Prog.bind_to (unlock_of hfree) rfl))

end Bonus

end FtMalloc
