import FtMalloc.Abstract.Private

/-!
# The threads of the multithreading test (`bonus/src/test_bonus.c:3-98`)

`thread_alloc_free` and `thread_realloc`, as programs that call the allocator and read and write
their memory byte by byte. A thread returns its `thread_arg_t` with the lines it printed; its
arrays `ptrs` and `sizes` are one list, in the order of their indices, since each loop goes
through them in that order.
-/

namespace FtMalloc

open Lib Dialogue

/-- `ALLOCS_PER_THREAD` (`test_bonus.c:4`). -/
def allocsPerThread : Nat := 50

/-- A line a thread prints: a refused request, or a byte that is not what was written. -/
inductive TestLine
  | failed (id size i : Nat)
  | corruption (id i j : Nat) (expected got : Byte)
  | reallocCorruption (id i : Nat) (expected got : Byte)
  deriving DecidableEq

/-- `thread_arg_t` (`test_bonus.c:6-9`), and the lines printed. -/
structure ThreadArg where
  threadId : Nat
  errors : Nat
  printed : List TestLine

namespace ThreadArg

/-- Before the thread starts (`test_bonus.c:112-113`, `127-128`). -/
def start (id : Nat) : ThreadArg := ⟨id, 0, []⟩

/-- `targ->errors++`. -/
def fail (targ : ThreadArg) : ThreadArg := { targ with errors := targ.errors + 1 }

/-- `printf`. -/
def print (targ : ThreadArg) (line : TestLine) : ThreadArg :=
  { targ with printed := targ.printed ++ [line] }

end ThreadArg

/-- `for (j = lo; j < lo + k; j++) if (p[j] != pattern) break;` (`test_bonus.c:40-49`, `86-95`): the
index and the byte it stops at, if it stops before the end. -/
def firstMismatch (ptr : Nat) (pattern : Byte) : Nat → Nat → Client (Option (Nat × Byte))
  | _, 0 => pure none
  | lo, k + 1 => do
    let c ← Client.fetch (ptr + lo)
    if c ≠ pattern then pure (some (lo, c)) else firstMismatch ptr pattern (lo + 1) k

/-! ## `thread_alloc_free` -/

/-- `size_patterns` (`test_bonus.c:17`), sizes of all three classes. -/
def sizePatterns : List Nat := [16, 32, 64, 128, 256, 512, 1024, 2048, 4096]

/-- `size_patterns[(id + i) % n_patterns]` (`test_bonus.c:22`). -/
def sizePattern (id i : Nat) : Nat := sizePatterns.getD ((id + i) % 9) 0

/-- `(unsigned char)((id * 37 + i) & 0xFF)` (`test_bonus.c:30`, and again in 38). -/
def bytePattern (id i : Nat) : Byte := BitVec.ofNat 8 ((id * 37 + i) &&& 0xFF)

/-- The pointers and sizes so far, in the order of their indices, and the thread's argument. -/
structure Allocs where
  slots : List (Nat × Nat)
  targ : ThreadArg

/-- A round of the first loop: allocate and fill (`test_bonus.c:22-31`). A refused request is an
error, and its NULL stays in `ptrs`. -/
def allocRound (id i : Nat) (s : Allocs) : Client Allocs := do
  let size := sizePattern id i
  let ptr ← Client.malloc size
  if ptr = null then
    pure ⟨s.slots ++ [(ptr, size)], s.targ.fail.print (.failed id size i)⟩
  else
    Client.memset ptr (bytePattern id i) size
    pure ⟨s.slots ++ [(ptr, size)], s.targ⟩

/-- The second loop (`test_bonus.c:34-50`): what was written is still there, or there is a line and
an error for the first byte that is not. -/
def checkRounds (id : Nat) : Nat → List (Nat × Nat) → ThreadArg → Client ThreadArg
  | _, [], targ => pure targ
  | i, (ptr, size) :: rest, targ => do
    if ptr = null then
      checkRounds id (i + 1) rest targ
    else
      match ← firstMismatch ptr (bytePattern id i) 0 size with
      | none => checkRounds id (i + 1) rest targ
      | some (j, c) =>
        checkRounds id (i + 1) rest (targ.fail.print (.corruption id i j (bytePattern id i) c))

/-- The third loop: free what was allocated (`test_bonus.c:52-56`). -/
def freeRounds : List (Nat × Nat) → Client Unit
  | [] => pure ()
  | (ptr, _) :: rest => do
    if ptr ≠ null then
      Client.free ptr
    freeRounds rest

/-- `thread_alloc_free` (`test_bonus.c:11-58`). -/
def threadAllocFree (targ : ThreadArg) : Client ThreadArg := do
  let id := targ.threadId
  let s ← loop (allocRound id) 0 allocsPerThread ⟨[], targ⟩
  let targ ← checkRounds id 0 s.slots s.targ
  freeRounds s.slots
  pure targ

/-! ## `thread_realloc` -/

/-- `thread_realloc` (`test_bonus.c:60-98`): a block that grows from 32 to 512 bytes keeps its first
32. When it cannot grow the old block is freed. -/
def threadRealloc (targ : ThreadArg) : Client ThreadArg := do
  let id := targ.threadId
  let smallSize := 32
  let largeSize := 512
  let ptr ← Client.malloc smallSize
  if ptr = null then
    pure targ.fail
  else
    let fill : Byte := BitVec.ofNat 8 (id &&& 0xFF)
    Client.memset ptr fill smallSize
    let newPtr ← Client.realloc ptr largeSize
    if newPtr = null then
      Client.free ptr
      pure targ.fail
    else
      let targ ← do
        match ← firstMismatch newPtr fill 0 smallSize with
        | none => pure targ
        | some (i, c) => pure (targ.fail.print (.reallocCorruption id i fill c))
      Client.free newPtr
      pure targ

/-! ## `test_multithreading` -/

/-- The sum of the threads' errors, which decides between PASS and FAIL (`test_bonus.c:116-121`,
`131-136`). -/
def totalErrors (args : List ThreadArg) : Nat :=
  args.foldl (fun total targ => total + targ.errors) 0

end FtMalloc
