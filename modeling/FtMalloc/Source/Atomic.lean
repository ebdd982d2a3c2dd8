import FtMalloc.Source.Bonus

/-!
# The atomic steps of the bonus allocator (`bonus/src/malloc_bonus.c:221-365`)

A call of `malloc`, `free` or `realloc` is a sequence of steps between which other threads may run:

* the unlocked test of `initialized` (`malloc`, `:227`) and the section of `heap_mutex`
  (`:228-236`);
* each section between `lock_list` and `unlock_list` (`:240-242`, `:312-314`, `:352-354`,
  `:361-363`);
* the unlocked reads of the header (`free`, `:300-311`, `realloc`, `:334-349`);
* the unlocked copy of `realloc` (`:359`).

`Pc` says which one is next and what is in the local variables, `Pc.exec` takes it.

Results: `malloc_eq_run`, `free_eq_run` and `realloc_eq_run`: the functions are their steps, taken
one after the other.
-/

namespace FtMalloc

open Lib

variable [Platform]

namespace Bonus

/-- The next step of a call, with the local variables it needs; `store` is a client's write. A step
is what lies between two points at which another thread may come in: a test, the reads of a header,
a critical section, the copy of a block. -/
inductive Pc
  | store (addr : Nat) (byte : Byte)
  | check (size : Nat)
  | setup (size : Nat)
  | alloc (size : Nat)
  | freeHeader (ptr : Nat)
  | freeBlock (ptr : Nat) (type : Int)
  | header (ptr size : Nat)
  | grow (ptr size : Nat) (oldType : Int) (current : Nat)
  | copy (ptr size : Nat) (oldType : Int) (current new : Nat)
  | release (ptr size : Nat) (oldType : Int) (new : Nat)

/-- What comes next: another step, or the call returns, with its pointer or with NULL for `free`. -/
inductive Next
  | go (pc : Pc)
  | done (q : Nat)

/-! ## The steps -/

/-- The header reads of `free`, which take no lock (`malloc_bonus.c:300-311`). -/
def readFree (ptr : Nat) : C Next := do
  let word ← load 8 (ptr - 8)
  if word < 0x100000000 then
    pure (.done null)
  else
    let type ← headerType word
    pure (if type ≠ tinyBlock ∧ type ≠ smallBlock ∧ type ≠ largeBlock then .done null
      else .go (.freeBlock ptr type))

/-- The header reads of `realloc` and the comparison of the sizes (`malloc_bonus.c:334-349`), which
take no lock either. -/
def readRealloc (ptr size : Nat) : C Next := do
  let word ← load 8 (ptr - 8)
  let oldType ← headerType word
  let current ← currentSize word
  pure (if size ≤ current then .done ptr else .go (.grow ptr size oldType current))

/-- One step, in the words of the functions it is a part of. -/
def Pc.exec : Pc → B Next
  | .store addr byte => do
    lift (storeByte addr byte)
    pure (.done null)
  | .check size => do
    let w ← Prog.get
    pure (.go (if w.world.heap.initialized = 0 then .setup size else .alloc size))
  | .setup size => do
    let e ← setupSection
    pure (if e ≠ 0 then .done null else .go (.alloc size))
  | .alloc size => do
    let ptr ← allocSection size
    pure (.done ptr)
  | .freeHeader ptr => lift (readFree ptr)
  | .freeBlock ptr type => do
    freeSection type ptr
    pure (.done null)
  | .header ptr size => lift (readRealloc ptr size)
  | .grow ptr size oldType current => do
    let new ← allocSection size
    pure (if new = null then .done null else .go (.copy ptr size oldType current new))
  | .copy ptr size oldType current new => do
    lift (ftMemcpy new ptr current)
    pure (.go (.release ptr size oldType new))
  | .release ptr _ oldType new => do
    freeSection oldType ptr
    pure (.done new)

/-- The first step of `malloc`: a size that is refused returns at once
(`malloc_bonus.c:222-225`). -/
def startMalloc (size : Nat) : Next :=
  if size = 0 ∨ size > ptrdiffMax then .done null else .go (.check size)

/-- The first step of `free`: NULL returns at once (`malloc_bonus.c:295-298`). -/
def startFree (ptr : Nat) : Next := if ptr = null then .done null else .go (.freeHeader ptr)

/-- The first step of `realloc`, which is one of `malloc` for NULL and one of `free` for size 0
(`malloc_bonus.c:325-332`). -/
def startRealloc (ptr size : Nat) : Next :=
  if ptr = null then startMalloc size
  else if size = 0 then .go (.freeHeader ptr)
  else .go (.header ptr size)

/-! ## A call alone -/

/-- The rest of a call, of at most `n` steps, with no other thread in between: what the whole
functions are compared with. -/
def Next.run : Nat → Next → B Nat
  | _, .done q => pure q
  | 0, .go _ => Prog.fault
  | n + 1, .go pc => do
    let o ← pc.exec
    o.run n

variable {n q : Nat}

@[simp] theorem run_done : (Next.done q).run n = pure q := by
  cases n <;> rfl

@[simp] theorem run_go {pc : Pc} : (Next.go pc).run (n + 1) = pc.exec >>= Next.run n := rfl

omit [Platform] in
theorem lift_bind {α β : Type} (x : C α) (f : α → C β) :
    lift (x >>= f) = lift x >>= fun a => lift (f a) := by
  funext w
  simp only [lift, Prog.bind_run]
  cases x w.world <;> rfl

omit [Platform] in
theorem lift_pure {α : Type} (a : α) : lift (pure a) = pure a := rfl

/-- The last step of `malloc`. -/
theorem run_alloc (size : Nat) : (Next.go (.alloc size)).run (n + 1) = allocSection size := by
  simp only [run_go, Pc.exec, bind_assoc, pure_bind, run_done, bind_pure]

/-- **`malloc` is its steps.** -/
theorem malloc_eq_run (size : Nat) : malloc size = (startMalloc size).run (n + 3) := by
  unfold malloc startMalloc
  split
  · rw [run_done]
  · simp only [run_go, Pc.exec, checkSetup, bind_assoc, pure_bind]
    congr
    funext w
    split
    · simp only [bind_assoc, pure_bind]
      congr
      funext e
      split
      · rw [run_done]
      · exact (run_alloc size).symm
    · exact (run_alloc size).symm

/-- **`free` is its steps.** -/
theorem free_eq_run (ptr : Nat) :
    (free ptr >>= fun _ => pure null) = (startFree ptr).run (n + 2) := by
  unfold free startFree
  split
  · rw [run_done, pure_bind]
  · simp only [run_go, Pc.exec, readFree, lift_bind, bind_assoc]
    congr
    funext word
    split
    · simp only [lift_pure, pure_bind, run_done]
    · simp only [lift_bind, lift_pure, bind_assoc, pure_bind]
      congr
      funext type
      split
      · rw [run_done, pure_bind]
      · simp only [run_go, Pc.exec, bind_assoc, pure_bind, run_done]

/-- **`realloc` is its steps.** -/
theorem realloc_eq_run (ptr size : Nat) :
    realloc ptr size = (startRealloc ptr size).run (n + 4) := by
  unfold realloc startRealloc
  by_cases hptr : ptr = null
  · rw [if_pos hptr, if_pos hptr]
    exact malloc_eq_run size
  rw [if_neg hptr, if_neg hptr]
  by_cases hsize : size = 0
  · rw [if_pos hsize, if_pos hsize]
    have hfree := free_eq_run (n := n + 2) ptr
    rwa [startFree, if_neg hptr] at hfree
  rw [if_neg hsize, if_neg hsize]
  simp only [run_go, Pc.exec, readRealloc, lift_bind, lift_pure, bind_assoc, pure_bind]
  congr
  funext word
  congr
  funext oldType
  congr
  funext current
  split
  · rw [run_done]
  · simp only [run_go, Pc.exec, bind_assoc, pure_bind]
    congr
    funext new
    split
    · rw [run_done]
    · simp only [run_go, Pc.exec, bind_assoc, pure_bind, run_done]

end Bonus

end FtMalloc
