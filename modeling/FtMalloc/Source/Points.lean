import FtMalloc.Source.Atomic

/-!
# Between the locks (`bonus/src/malloc_bonus.c:105-114, 221-365`, `bonus/src/mutex_bonus.c`)

A call again, in smaller steps than those of `Source/Atomic.lean`: locking a mutex is a step,
unlocking it is one, and what is done in between is one too. The setup is taken apart further: the
second test of `initialized`, the two calls of `create_zone` and the store are a step each.

`Point` says where a call is and what is in the local variables it still needs, `Point.action`
what it does there.

Result: `call_eq_points`: the functions are their points, one after the other.
-/

namespace FtMalloc

open Lib

variable [Platform]

namespace Bonus

/-- A place in a call, with the local variables it still needs; `store` is a client's write.
Locking and unlocking are points of their own, and so are the two calls of `create_zone` under
`heap_mutex`. -/
inductive Point
  | store (addr : Nat) (byte : Byte)
  | check (size : Nat)
  | lockHeap (size : Nat)
  | recheck (size : Nat)
  | makeTiny (size : Nat)
  | makeSmall (size : Nat)
  | publish (size : Nat)
  | unlockHeap (size : Nat) (e : Int)
  | lockAlloc (size : Nat)
  | alloc (size : Nat)
  | unlockAlloc (size ptr : Nat)
  | freeHeader (ptr : Nat)
  | lockFree (ptr : Nat) (type : Int)
  | freeBlock (ptr : Nat) (type : Int)
  | unlockFree (type : Int)
  | header (ptr size : Nat)
  | lockGrow (ptr size : Nat) (oldType : Int) (current : Nat)
  | grow (ptr size : Nat) (oldType : Int) (current : Nat)
  | unlockGrow (ptr size : Nat) (oldType : Int) (current new : Nat)
  | copy (ptr size : Nat) (oldType : Int) (current new : Nat)
  | lockRelease (ptr size : Nat) (oldType : Int) (new : Nat)
  | release (ptr size : Nat) (oldType : Int) (new : Nat)
  | unlockRelease (oldType : Int) (new : Nat)

/-- What comes next: another point, or the call returns, with its pointer or with NULL for
`free`. -/
inductive Onward
  | at (p : Point)
  | done (q : Nat)

/-- What a call does at a point: lock, unlock, or run a piece of code that does neither. -/
inductive Action
  | lock (m : Mutex) (p : Point)
  | unlock (m : Mutex) (o : Onward)
  | body (x : C Onward)

/-- Where the header reads of `free` lead (`malloc_bonus.c:300-311`). -/
def readFreePoint (ptr : Nat) : C Onward := do
  let word ← load 8 (ptr - 8)
  if word < 0x100000000 then
    pure (.done null)
  else
    let type ← headerType word
    pure (if type ≠ tinyBlock ∧ type ≠ smallBlock ∧ type ≠ largeBlock then .done null
      else .at (.lockFree ptr type))

/-- Where the header reads of `realloc` lead (`malloc_bonus.c:334-349`). -/
def readReallocPoint (ptr size : Nat) : C Onward := do
  let word ← load 8 (ptr - 8)
  let oldType ← headerType word
  let current ← currentSize word
  pure (if size ≤ current then .done ptr else .at (.lockGrow ptr size oldType current))

/-- The actions, in the words of the functions they are a part of (`malloc_bonus.c:105-114`,
`221-365`). -/
def Point.action : Point → Action
  | .store addr byte => .body do
    storeByte addr byte
    pure (.done null)
  | .check size => .body do
    let w ← Prog.get
    pure (.at (if w.heap.initialized = 0 then .lockHeap size else .lockAlloc size))
  | .lockHeap size => .lock .heap (.recheck size)
  | .recheck size => .body do
    let w ← Prog.get
    pure (.at (if w.heap.initialized = 0 then .makeTiny size else .unlockHeap size 0))
  | .makeTiny size => .body do
    let e ← createZone tinyBlockSize
    pure (.at (if e ≠ 0 then .unlockHeap size 1 else .makeSmall size))
  | .makeSmall size => .body do
    let e ← createZone smallBlockSize
    pure (.at (if e ≠ 0 then .unlockHeap size 1 else .publish size))
  | .publish size => .body do
    Prog.modify fun w => { w with heap := { w.heap with initialized := 1 } }
    pure (.at (.unlockHeap size 0))
  | .unlockHeap size e => .unlock .heap (if e ≠ 0 then .done null else .at (.lockAlloc size))
  | .lockAlloc size => .lock (mutexOf (typeOf size)) (.alloc size)
  | .alloc size => .body do
    let ptr ← allocBlock size
    pure (.at (.unlockAlloc size ptr))
  | .unlockAlloc size ptr => .unlock (mutexOf (typeOf size)) (.done ptr)
  | .freeHeader ptr => .body (readFreePoint ptr)
  | .lockFree ptr type => .lock (mutexOf type) (.freeBlock ptr type)
  | .freeBlock ptr type => .body do
    freePtr ptr
    pure (.at (.unlockFree type))
  | .unlockFree type => .unlock (mutexOf type) (.done null)
  | .header ptr size => .body (readReallocPoint ptr size)
  | .lockGrow ptr size oldType current =>
    .lock (mutexOf (typeOf size)) (.grow ptr size oldType current)
  | .grow ptr size oldType current => .body do
    let new ← allocBlock size
    pure (.at (.unlockGrow ptr size oldType current new))
  | .unlockGrow ptr size oldType current new => .unlock (mutexOf (typeOf size))
    (if new = null then .done null else .at (.copy ptr size oldType current new))
  | .copy ptr size oldType current new => .body do
    ftMemcpy new ptr current
    pure (.at (.lockRelease ptr size oldType new))
  | .lockRelease ptr size oldType new => .lock (mutexOf oldType) (.release ptr size oldType new)
  | .release ptr _ oldType new => .body do
    freePtr ptr
    pure (.at (.unlockRelease oldType new))
  | .unlockRelease oldType new => .unlock (mutexOf oldType) (.done new)

/-- Do it. -/
def Action.exec : Action → B Onward
  | lock m p => do
    Bonus.lock m
    pure (.at p)
  | unlock m o => do
    Bonus.unlock m
    pure o
  | body x => lift x

/-- The first point of `malloc` (`malloc_bonus.c:222-227`). -/
def enterMalloc (size : Nat) : Onward :=
  if size = 0 ∨ size > ptrdiffMax then .done null else .at (.check size)

/-- The first point of `free` (`malloc_bonus.c:295-300`). -/
def enterFree (ptr : Nat) : Onward := if ptr = null then .done null else .at (.freeHeader ptr)

/-- The first point of `realloc` (`malloc_bonus.c:325-334`). -/
def enterRealloc (ptr size : Nat) : Onward :=
  if ptr = null then enterMalloc size
  else if size = 0 then .at (.freeHeader ptr)
  else .at (.header ptr size)

/-! ## A call alone -/

/-- The rest of a call, of at most `n` steps, with no other thread in between. -/
def Onward.run : Nat → Onward → B Nat
  | _, .done q => pure q
  | 0, .at _ => Prog.fault
  | n + 1, .at p => do
    let o ← p.action.exec
    o.run n

variable {n q size ptr : Nat}

@[simp] theorem onward_done : (Onward.done q).run n = pure q := by
  cases n <;> rfl

@[simp] theorem onward_at {p : Point} :
    (Onward.at p).run (n + 1) = p.action.exec >>= Onward.run n := rfl

/-- **The section of an allocation**, from its lock to its unlock. -/
theorem allocSection_eq (f : Nat → B Nat) :
    (allocSection size >>= f) = (Bonus.lock (mutexOf (typeOf size)) >>= fun _ =>
      lift (allocBlock size) >>= fun p =>
        Bonus.unlock (mutexOf (typeOf size)) >>= fun _ => f p) := by
  simp only [allocSection, lockList, unlockList, bind_assoc, pure_bind]

/-- **The section of a release.** -/
theorem freeSection_eq (type : Int) (f : Unit → B Nat) :
    (freeSection type ptr >>= f) = (Bonus.lock (mutexOf type) >>= fun _ =>
      lift (freePtr ptr) >>= fun _ => Bonus.unlock (mutexOf type) >>= f) := by
  simp only [freeSection, lockList, unlockList, bind_assoc]

/-- The last points of `malloc`. -/
theorem onward_alloc : (Onward.at (.lockAlloc size)).run (n + 3) = allocSection size := by
  rw [← bind_pure (allocSection size), allocSection_eq]
  simp only [onward_at, Point.action, Action.exec, lift_bind, lift_pure, bind_assoc, pure_bind,
    onward_done]

/-- The end of the part of `malloc` under `heap_mutex`, and what follows. -/
def leaveSetup (size : Nat) (e : Int) : B Nat := do
  Bonus.unlock .heap
  if e ≠ 0 then pure null else allocSection size

theorem onward_unlockHeap (e : Int) :
    (Onward.at (.unlockHeap size e)).run (n + 4) = leaveSetup size e := by
  rw [onward_at]
  simp only [leaveSetup, Point.action, Action.exec, bind_assoc, pure_bind]
  congr
  funext _
  split
  · rw [onward_done]
  · exact onward_alloc

/-- `setup_global_heap` from its first point on. -/
theorem onward_setup :
    (Onward.at (.makeTiny size)).run (n + 7) = lift setupGlobalHeap >>= leaveSetup size := by
  unfold setupGlobalHeap
  rw [onward_at]
  simp only [Point.action, Action.exec, lift_bind, lift_pure, bind_assoc, pure_bind]
  congr
  funext e
  by_cases he : e ≠ 0
  · rw [if_pos he, if_pos he]
    exact onward_unlockHeap 1
  · rw [if_neg he, if_neg he, onward_at]
    simp only [Point.action, Action.exec, lift_bind, lift_pure, bind_assoc, pure_bind]
    congr
    funext e
    by_cases he : e ≠ 0
    · rw [if_pos he, if_pos he]
      exact onward_unlockHeap 1
    · rw [if_neg he, if_neg he, onward_at]
      simp only [Point.action, Action.exec, lift_bind, lift_pure, bind_assoc, pure_bind]
      congr
      funext _
      exact onward_unlockHeap 0

/-- **The section of the setup**, from its lock on. -/
theorem onward_lockHeap : (Onward.at (.lockHeap size)).run (n + 9) =
    setupSection >>= fun e => if e ≠ 0 then pure null else allocSection size := by
  unfold setupSection ensureSetup
  rw [onward_at]
  simp only [Point.action, Action.exec, bind_assoc, pure_bind]
  congr
  funext _
  rw [onward_at]
  simp only [Point.action, Action.exec, lift_bind, lift_pure, bind_assoc, pure_bind]
  congr
  funext w
  by_cases hi : w.heap.initialized = 0
  · rw [if_pos hi, if_pos hi]
    exact onward_setup
  · rw [if_neg hi, if_neg hi]
    exact onward_unlockHeap 0

omit [Platform] in
theorem lift_get_bind {β : Type} (f : World → B β) :
    (lift Prog.get >>= f) = Prog.get >>= fun w => f w.world := rfl

/-- **`malloc` is its points.** -/
theorem malloc_eq_points (size : Nat) : malloc size = (enterMalloc size).run (n + 10) := by
  unfold malloc enterMalloc
  split
  · rw [onward_done]
  · rw [onward_at]
    simp only [Point.action, Action.exec, checkSetup, lift_bind, lift_pure, lift_get_bind,
      bind_assoc, pure_bind]
    congr
    funext w
    by_cases hi : w.world.heap.initialized = 0
    · rw [if_pos hi, if_pos hi]
      exact onward_lockHeap.symm
    · rw [if_neg hi, if_neg hi, pure_bind, if_neg (not_not_intro rfl)]
      exact onward_alloc.symm

/-- **`free` is its points.** -/
theorem free_eq_points (ptr : Nat) :
    (free ptr >>= fun _ => pure null) = (enterFree ptr).run (n + 4) := by
  unfold free enterFree
  split
  · rw [onward_done, pure_bind]
  · rw [onward_at]
    simp only [Point.action, Action.exec, readFreePoint, lift_bind, bind_assoc]
    congr
    funext word
    split
    · simp only [lift_pure, pure_bind, onward_done]
    · simp only [lift_bind, lift_pure, bind_assoc, pure_bind]
      congr
      funext type
      split
      · rw [onward_done, pure_bind]
      · rw [freeSection_eq]
        simp only [onward_at, Point.action, Action.exec, lift_bind, lift_pure, bind_assoc,
          pure_bind, onward_done]

/-- **`realloc` is its points.** -/
theorem realloc_eq_points (ptr size : Nat) :
    realloc ptr size = (enterRealloc ptr size).run (n + 10) := by
  unfold realloc enterRealloc
  by_cases hptr : ptr = null
  · rw [if_pos hptr, if_pos hptr]
    exact malloc_eq_points size
  rw [if_neg hptr, if_neg hptr]
  by_cases hsize : size = 0
  · rw [if_pos hsize, if_pos hsize]
    have hfree := free_eq_points (n := n + 6) ptr
    rwa [enterFree, if_neg hptr] at hfree
  rw [if_neg hsize, if_neg hsize, onward_at]
  simp only [Point.action, Action.exec, readReallocPoint, lift_bind, lift_pure, bind_assoc,
    pure_bind]
  congr
  funext word
  congr
  funext oldType
  congr
  funext current
  split
  · rw [onward_done]
  · rw [allocSection_eq]
    simp only [onward_at, Point.action, Action.exec, lift_bind, lift_pure, bind_assoc, pure_bind]
    congr
    funext _
    congr
    funext new
    congr
    funext _
    split
    · rw [onward_done]
    · rw [onward_at]
      simp only [Point.action, Action.exec, lift_bind, lift_pure, bind_assoc, pure_bind]
      congr
      funext _
      rw [freeSection_eq]
      simp only [onward_at, Point.action, Action.exec, lift_bind, lift_pure, bind_assoc,
        pure_bind, onward_done]

end Bonus

end FtMalloc
