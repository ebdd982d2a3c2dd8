import FtMalloc.Source.Printf

/-!
# The debug lines (`src/malloc.h:19-25`, `bonus/src/malloc_bonus.h:19-25`)

`DEBUG` is 1 in both headers, so `DBG(fmt, ...)` is `ft_printf("[DEBUG] " fmt "\n", ...)`: a line on
the standard output. A `DebugCall` is one of these calls, with the type of each argument where the
source makes it. The preprocessor joins the three literals of a format.
-/

namespace FtMalloc

open Lib Printf

/-- The type of an argument of a debug call. -/
inductive CType
  | int
  | uchar
  | size
  | pointer
  deriving DecidableEq, Repr

/-- A call `DBG(format, ...)`, and the types of the arguments after the format. -/
structure DebugCall where
  format : String
  types : List CType

/-- The bytes of a string literal. -/
def literal (s : String) : List Byte := s.toUTF8.data.toList.map UInt8.toBitVec

/-- What every debug line begins with. -/
theorem literal_tag : literal "[DEBUG] " = ascii ['[', 'D', 'E', 'B', 'U', 'G', ']', ' '] := rfl

/-- The format after the preprocessor, which joins the three literals of `DBG` (`malloc.h:22`). -/
def DebugCall.bytes (d : DebugCall) : List Byte :=
  literal "[DEBUG] " ++ literal d.format ++ [chr '\n']

/-- The same as a string, which ends at the first NUL. -/
def DebugCall.string (d : DebugCall) : CString where
  bytes := d.bytes.takeWhile (· ≠ 0#8)
  noNul h := absurd (List.mem_takeWhile_imp h) (by simp)

variable (k : Kernel)

/-- `DBG(format, ...)`. -/
def DebugCall.run (d : DebugCall) (args : List Arg) : Exec Fault (List Byte) Int := fun written =>
  (ftPrintf k d.string ⟨args, written⟩).map fun r => (r.1, r.2.written)

/-- Debug calls with their arguments, one after another. -/
def debugAll : List (DebugCall × List Arg) → Exec Fault (List Byte) Unit
  | [] => pure ()
  | x :: calls => do
    let _ ← x.1.run k x.2
    debugAll calls

/-- The call of `calculate_zone_block_address`. -/
def addressCall : DebugCall :=
  ⟨"calculate_memory_address zone=%p block_number=%d addr=%p", [.pointer, .int, .pointer]⟩

/-- The calls of `list.c`, in their order; `list_bonus.c` has the same. -/
def listCalls : List DebugCall := [
  ⟨"lst_add_back invalid args head=%p new_lst=%p", [.pointer, .pointer]⟩,
  ⟨"lst_add_back creating new head %p", [.pointer]⟩,
  ⟨"lst_add_back appending %p after %p", [.pointer, .pointer]⟩,
  ⟨"block_add_back invalid args head=%p new_block=%p", [.pointer, .pointer]⟩,
  ⟨"block_add_back creating new head %p", [.pointer]⟩,
  ⟨"block_add_back appending %p after %p", [.pointer, .pointer]⟩,
  ⟨"lst_detach invalid args head=%p lst=%p", [.pointer, .pointer]⟩,
  ⟨"lst_detach removed %p from list head now %p", [.pointer, .pointer]⟩,
  ⟨"block_detach invalid args head=%p block=%p", [.pointer, .pointer]⟩,
  ⟨"block_detach removed %p from list head now %p", [.pointer, .pointer]⟩]

/-- The calls that `malloc.c` and `malloc_bonus.c` have in common. -/
def commonCalls : List DebugCall := [
  ⟨"creating new zone with block_size=%zu", [.size]⟩,
  ⟨"inserting new TINY zone %p n_blocks=%d total_size=%zu", [.pointer, .int, .size]⟩,
  ⟨"inserting new SMALL zone %p n_blocks=%d total_size=%zu", [.pointer, .int, .size]⟩,
  ⟨"create_block block_size=%zu", [.size]⟩,
  ⟨"setup_global_heap start", []⟩,
  ⟨"setup_global_heap done initialized=%d tiny=%p small=%p", [.int, .pointer, .pointer]⟩,
  ⟨"find_set_bit called with NULL zone", []⟩,
  ⟨"find_set_bit found bit %d in byte %d", [.int, .int]⟩,
  ⟨"find_set_bit no free block found", []⟩,
  addressCall,
  ⟨"find_free_block called with NULL zone", []⟩,
  ⟨"find_free_block zone=%p set_bit=%d free_count=%d bitmap_byte[%d]=0x%02x",
    [.pointer, .int, .int, .int, .uchar]⟩,
  ⟨"find_free_block moving zone %p to full list", [.pointer]⟩,
  ⟨"find_free_large_block reusing free block %p size=%zu for request=%zu",
    [.pointer, .size, .size]⟩,
  ⟨"find_free_large_block create_block failed size=%zu", [.size]⟩,
  ⟨"find_free_large_block created block %p size=%zu", [.pointer, .size]⟩,
  ⟨"alloc_block request size=%zu", [.size]⟩,
  ⟨"alloc_block request large size=%zu, delegating to find_free_large_block", [.size]⟩,
  ⟨"alloc_block failed to allocate large block size=%zu", [.size]⟩,
  ⟨"alloc_block request too large size=%zu", [.size]⟩,
  ⟨"malloc size=%zu rejected", [.size]⟩,
  ⟨"malloc size=%zu initialized=%d", [.size, .int]⟩,
  ⟨"setup_global_heap failed", []⟩,
  ⟨"free called with NULL pointer", []⟩,
  ⟨"free called with ptr=%p", [.pointer]⟩,
  ⟨"realloc called with NULL pointer, delegating to malloc size=%zu", [.size]⟩,
  ⟨"realloc called with ptr=%p size=%zu", [.pointer, .size]⟩,
  ⟨"realloc failed to allocate new block for size=%zu", [.size]⟩]

/-- The others of `malloc.c`, where a call of the bonus file differs in its text or its
arguments. -/
def mallocCalls : List DebugCall := [
  ⟨"system page size=%zu", [.size]⟩,
  ⟨"malloc returning block for size=%zu", [.size]⟩,
  ⟨"free freeing block in zone %p block_number=%d", [.pointer, .int]⟩,
  ⟨"free updated bitmap byte[%d]=0x%02x free_count=%d", [.int, .uchar, .int]⟩,
  ⟨"free zone %p fully empty, reclaiming", [.pointer]⟩,
  ⟨"free moving zone %p back to free list", [.pointer]⟩,
  ⟨"realloc size %zu fits in zone block_size %zu, returning same pointer", [.size, .size]⟩,
  ⟨"realloc size %zu fits in large block size %zu, returning same pointer", [.size, .size]⟩,
  ⟨"realloc new block %p for size=%zu, old ptr=%p", [.pointer, .size, .pointer]⟩]

/-- The others of `malloc_bonus.c`. -/
def bonusCalls : List DebugCall := [
  ⟨"malloc returning ptr=%p for size=%zu", [.pointer, .size]⟩,
  ⟨"free_ptr zone=%p block_number=%d", [.pointer, .int]⟩,
  ⟨"free_ptr bitmap[%d]=0x%02x free_count=%d", [.int, .uchar, .int]⟩,
  ⟨"free_ptr zone %p fully empty, reclaiming", [.pointer]⟩,
  ⟨"free_ptr munmap failed", []⟩,
  ⟨"free_ptr moving zone %p back to free list", [.pointer]⟩,
  ⟨"free_ptr large block %p size=%zu", [.pointer, .size]⟩,
  ⟨"free: not our allocation ptr=%p meta=%p, skipping", [.pointer, .pointer]⟩,
  ⟨"free: invalid type %d for ptr=%p, skipping", [.int, .pointer]⟩,
  ⟨"realloc size %zu fits in zone block_size %zu, returning same ptr", [.size, .size]⟩,
  ⟨"realloc size %zu fits in large block size %zu, returning same ptr", [.size, .size]⟩,
  ⟨"realloc new=%p size=%zu old=%p", [.pointer, .size, .pointer]⟩]

/-- All debug lines of both allocators. -/
def debugCalls : List DebugCall := listCalls ++ commonCalls ++ mallocCalls ++ bonusCalls

end FtMalloc
