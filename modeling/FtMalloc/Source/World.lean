import FtMalloc.Lib.Prog
import FtMalloc.Lib.ByteMem
import FtMalloc.Source.Layout

/-!
# The machine the allocators run on

The state of a C program that manages its own memory: the `global_heap` variable (`malloc.c:3`),
a flat byte memory, and the operating system's view of the address space.

* **Memory accesses fault outside the mapped regions** (`load`, `store`): the program is `none`.
* **`mmap`** is decided by the environment. `answers` lists what the kernel proposes for the
  coming calls, a base address or a refusal. A proposal is granted when it is a fresh region:
  4096-aligned, not NULL, below `2 ^ 64`, disjoint from every region still mapped; any other
  proposal is a failure, and so is a missing one. A granted region is zero-filled
  (`MAP_ANONYMOUS`). Quantifying over `answers` therefore ranges over every legal behaviour of
  `mmap`, failures included, and needs no side condition.
* **`munmap`** takes back one whole mapping. The kernel also accepts other ranges; such a call
  is a fault here, so a program that never faults names exactly what it mapped.
* **`perror`** and the outcome of an `munmap` are parameters (`Platform`), with what the allocators
  rely on as named hypotheses.
* Whole pages are mapped: the region of a call of length `len` extends to `roundUp len`.
* `log` records the system calls, latest first.

The `DBG` lines of the allocators print and leave the machine as it is, so the functions here go
without them; what they print is in `Source/Debug.lean`.
-/

namespace FtMalloc

open Lib

/-! ## The operating system -/

/-- A mapping, with the length passed to `mmap`, which need not be whole pages. -/
structure Region where
  base : Nat
  len : Nat
  deriving DecidableEq, Repr

/-- A system call and its outcome. -/
inductive SysCall
  | mmap (len : Nat) (result : Option Nat)
  | munmap (addr len : Nat)
  deriving DecidableEq, Repr

/-- `len` rounded up to whole pages. -/
def roundUp (pageSize len : Nat) : Nat := (len + pageSize - 1) / pageSize * pageSize

/-- The operating system's state: its mappings, the calls made so far, and where it would place the
mappings to come. Of these proposals it is free to make any. -/
structure Os where
  pageSize : Nat
  regions : List Region
  answers : List (Option Nat)
  log : List SysCall

namespace Os

/-- The end of a region's last page, up to which its bytes can be used. -/
def limit (os : Os) (r : Region) : Nat := r.base + roundUp os.pageSize r.len

/-- All `n` bytes at `a` lie in one mapped region. -/
def Mapped (os : Os) (a n : Nat) : Prop := ∃ r ∈ os.regions, r.base ≤ a ∧ a + n ≤ os.limit r

instance (os : Os) (a n : Nat) : Decidable (os.Mapped a n) :=
  inferInstanceAs (Decidable (∃ r ∈ os.regions, r.base ≤ a ∧ a + n ≤ os.limit r))

/-- The proposal `b` for a mapping of `len` bytes is a fresh region, as `mmap` guarantees: aligned,
inside the address space, and apart from every mapping there is. -/
def Grants (os : Os) (len b : Nat) : Prop :=
  0 < len ∧ b ≠ 0 ∧ b % 4096 = 0 ∧ os.limit ⟨b, len⟩ ≤ 2 ^ 64 ∧
    ∀ r ∈ os.regions, os.limit ⟨b, len⟩ ≤ r.base ∨ os.limit r ≤ b

instance (os : Os) (len b : Nat) : Decidable (os.Grants len b) :=
  inferInstanceAs (Decidable (0 < len ∧ b ≠ 0 ∧ b % 4096 = 0 ∧ os.limit ⟨b, len⟩ ≤ 2 ^ 64 ∧
    ∀ r ∈ os.regions, os.limit ⟨b, len⟩ ≤ r.base ∨ os.limit r ≤ b))

/-- The outcome of the next `mmap` call, of length `len`: a proposal that is no fresh region is a
refusal. -/
def reply (os : Os) (len : Nat) : Option Nat :=
  match os.answers with
  | some b :: _ => if os.Grants len b then some b else none
  | _ => none

/-- The state after an `mmap` call of length `len`. -/
def mmap (os : Os) (len : Nat) : Os where
  pageSize := os.pageSize
  regions := match os.reply len with
    | some b => ⟨b, len⟩ :: os.regions
    | none => os.regions
  answers := os.answers.tail
  log := .mmap len (os.reply len) :: os.log

/-- The state after an `munmap` of a whole region that was carried out. -/
def munmap (os : Os) (r : Region) : Os where
  pageSize := os.pageSize
  regions := os.regions.erase r
  answers := os.answers
  log := .munmap r.base r.len :: os.log

end Os

/-! ## What a system state keeps -/

namespace Os

/-- The mappings a history of calls leaves in place: those mapped and not unmapped since. -/
def outstanding : List SysCall → List Region
  | [] => []
  | .mmap len (some b) :: log => ⟨b, len⟩ :: outstanding log
  | .mmap _ none :: log => outstanding log
  | .munmap addr len :: log => (outstanding log).erase ⟨addr, len⟩

/-- The regions are those the history left, and they are what `mmap` grants: nonempty, aligned,
below `2 ^ 64` and apart from each other. -/
structure Ok (os : Os) : Prop where
  page : 1 ≤ os.pageSize
  logged : os.regions = outstanding os.log
  nodup : os.regions.Nodup
  legal : ∀ r ∈ os.regions, 0 < r.len ∧ r.base ≠ 0 ∧ r.base % 4096 = 0 ∧ os.limit r ≤ 2 ^ 64
  apart : ∀ r ∈ os.regions, ∀ s ∈ os.regions, r ≠ s → os.limit r ≤ s.base ∨ os.limit s ≤ r.base

variable {os : Os} {n b : Nat} {r : Region}

theorem le_roundUp {P len : Nat} (hP : 1 ≤ P) : len ≤ roundUp P len := by
  unfold roundUp
  have h1 := Nat.div_add_mod (len + P - 1) P
  have h2 := Nat.mod_lt (len + P - 1) hP
  rw [Nat.mul_comm] at h1
  omega

theorem Ok.le_limit (ok : os.Ok) (r : Region) : r.base + r.len ≤ os.limit r :=
  Nat.add_le_add_left (le_roundUp ok.page) _

theorem reply_grants (h : os.reply n = some b) : os.Grants n b := by
  unfold reply at h
  split at h
  · split at h
    · cases h
      assumption
    · cases h
  · cases h

theorem mmap_granted (h : os.reply n = some b) : (os.mmap n).regions = ⟨b, n⟩ :: os.regions := by
  simp only [mmap, h]

theorem mmap_refused (h : os.reply n = none) : (os.mmap n).regions = os.regions := by
  simp only [mmap, h]

/-- A mapping never takes a region away. -/
theorem mem_mmap {s : Region} (hs : s ∈ os.regions) : s ∈ (os.mmap n).regions := by
  cases h : os.reply n with
  | none => rwa [mmap_refused h]
  | some b =>
    rw [mmap_granted h]
    exact List.mem_cons_of_mem _ hs

/-- A region is mapped from any of its bytes to any other. -/
theorem mapped_of_region {a k : Nat} (hr : r ∈ os.regions) (h1 : r.base ≤ a)
    (h2 : a + k ≤ os.limit r) : os.Mapped a k :=
  ⟨r, hr, h1, h2⟩

/-- A granted region is none of those already mapped. -/
theorem Ok.not_mem (ok : os.Ok) (h : os.reply n = some b) : ∀ r ∈ os.regions, r.base ≠ b := by
  intro r hr e
  obtain ⟨hpos, -, -, -, hap⟩ := reply_grants h
  have h1 := ok.le_limit r
  have h2 := ok.le_limit ⟨b, n⟩
  have h3 := (ok.legal r hr).1
  simp only at h2
  rcases hap r hr with h | h <;> omega

theorem Ok.mmap (ok : os.Ok) : (os.mmap n).Ok := by
  cases h : os.reply n with
  | none =>
    have hr := mmap_refused h
    refine ⟨ok.page, ?_, ?_, ?_, ?_⟩
    · rw [hr, ok.logged]
      simp only [Os.mmap, h, outstanding]
    · rw [hr]
      exact ok.nodup
    · rw [hr]
      exact ok.legal
    · rw [hr]
      exact ok.apart
  | some b =>
    have hr := mmap_granted h
    obtain ⟨hpos, hb0, hal, hlim, hap⟩ := reply_grants h
    refine ⟨ok.page, ?_, ?_, ?_, ?_⟩
    · rw [hr, ok.logged]
      simp only [Os.mmap, h, outstanding]
    · rw [hr]
      refine List.nodup_cons.mpr ⟨fun hm => ?_, ok.nodup⟩
      exact ok.not_mem h _ hm rfl
    · rw [hr]
      intro s hs
      rcases List.mem_cons.mp hs with rfl | hs
      · exact ⟨hpos, hb0, hal, hlim⟩
      · exact ok.legal s hs
    · rw [hr]
      intro s hs t ht hne
      rcases List.mem_cons.mp hs with rfl | hs <;> rcases List.mem_cons.mp ht with rfl | ht
      · exact absurd rfl hne
      · exact hap t ht
      · exact (hap s hs).symm
      · exact ok.apart s hs t ht hne

theorem Ok.munmap (ok : os.Ok) : (os.munmap r).Ok where
  page := ok.page
  logged := congrArg (List.erase · r) ok.logged
  nodup := ok.nodup.erase r
  legal := fun s hs => ok.legal s (List.mem_of_mem_erase hs)
  apart := fun s hs t ht => ok.apart s (List.mem_of_mem_erase hs) t (List.mem_of_mem_erase ht)

/-- Unmapping one region leaves the others. -/
theorem Ok.mem_munmap (ok : os.Ok) {s : Region} :
    s ∈ (os.munmap r).regions ↔ s ≠ r ∧ s ∈ os.regions :=
  ok.nodup.mem_erase_iff

end Os

/-! ## The heap variable -/

/-- `heap_t` (`malloc.h:66-75`). -/
structure Heap where
  initialized : Int
  freeTinyZones : Nat
  freeSmallZones : Nat
  fullTinyZones : Nat
  fullSmallZones : Nat
  freeLargeBlocks : Nat
  fullLargeBlocks : Nat
  deriving DecidableEq, Repr

/-- The six list heads of `global_heap`: what a `zone_t **` or `block_t **` argument points at. -/
inductive Head
  | freeTinyZones
  | freeSmallZones
  | fullTinyZones
  | fullSmallZones
  | freeLargeBlocks
  | fullLargeBlocks
  deriving DecidableEq, Repr

namespace Heap

/-- `*head`, the first node of the list or NULL. -/
def get (h : Heap) : Head → Nat
  | .freeTinyZones => h.freeTinyZones
  | .freeSmallZones => h.freeSmallZones
  | .fullTinyZones => h.fullTinyZones
  | .fullSmallZones => h.fullSmallZones
  | .freeLargeBlocks => h.freeLargeBlocks
  | .fullLargeBlocks => h.fullLargeBlocks

/-- `*head = v`. -/
def set (h : Heap) (x : Head) (v : Nat) : Heap :=
  match x with
  | .freeTinyZones => { h with freeTinyZones := v }
  | .freeSmallZones => { h with freeSmallZones := v }
  | .fullTinyZones => { h with fullTinyZones := v }
  | .fullSmallZones => { h with fullSmallZones := v }
  | .freeLargeBlocks => { h with freeLargeBlocks := v }
  | .fullLargeBlocks => { h with fullLargeBlocks := v }

theorem get_set (h : Heap) (x y : Head) (v : Nat) :
    (h.set x v).get y = if y = x then v else h.get y := by
  cases x <;> cases y <;> rfl

@[simp] theorem initialized_set (h : Heap) (x : Head) (v : Nat) :
    (h.set x v).initialized = h.initialized := by
  cases x <;> rfl

end Heap

/-! ## The machine -/

/-- A machine state: the bytes, the variable `global_heap` and the operating system. -/
structure World where
  heap : Heap
  mem : Mem
  os : Os

/-- A C function: what it returns and leaves, or nothing when it touches memory that is not
mapped. -/
abbrev C (α : Type) := Prog World α

/-- The `int` at `a`, four bytes in two's complement. -/
def ldInt (m : Mem) (a : Nat) : Int := castInt (ld m 4 a)

/-- Store an `int`. -/
def stInt (m : Mem) (a : Nat) (i : Int) : Mem := st m 4 a (i % 2 ^ 32).toNat

/-- Load an `n`-byte unsigned number, all of whose bytes have to be mapped. -/
def load (n a : Nat) : C Nat := fun w =>
  if w.os.Mapped a n then some (ld w.mem n a, w) else none

/-- Store an `n`-byte unsigned number, likewise. -/
def store (n a v : Nat) : C Unit := fun w =>
  if w.os.Mapped a n then some ((), { w with mem := st w.mem n a v }) else none

/-- Load an `int`. -/
def loadInt (a : Nat) : C Int := fun w =>
  if w.os.Mapped a 4 then some (ldInt w.mem a, w) else none

/-- Store an `int`. -/
def storeInt (a : Nat) (i : Int) : C Unit := fun w =>
  if w.os.Mapped a 4 then some ((), { w with mem := stInt w.mem a i }) else none

/-- Load an `unsigned char`. -/
def loadByte (a : Nat) : C Byte := fun w =>
  if w.os.Mapped a 1 then some (w.mem a, w) else none

/-- Store an `unsigned char`. -/
def storeByte (a : Nat) (b : Byte) : C Unit := fun w =>
  if w.os.Mapped a 1 then some ((), { w with mem := put w.mem a b }) else none

/-- Read a list head. -/
def readHead (x : Head) : C Nat := fun w => some (w.heap.get x, w)

/-- Assign a list head. -/
def writeHead (x : Head) (v : Nat) : C Unit := fun w =>
  some ((), { w with heap := w.heap.set x v })

/-- `getpagesize()`. -/
def getpagesize : C Nat := fun w => some (w.os.pageSize, w)

/-- `mmap(NULL, len, ...)` of anonymous memory, which is zeroed. -/
def mmap (len : Nat) : C Nat := fun w =>
  match w.os.reply len with
  | some b => some (b, { w with
      mem := fill w.mem b (roundUp w.os.pageSize len) 0
      os := w.os.mmap len })
  | none => some (mapFailed, { w with os := w.os.mmap len })

/-- What the allocators call and the repository does not contain, as far as they can notice it:
`perror` of the C library, which `create_block` calls when its `mmap` fails (`malloc.c:80`,
`malloc_bonus.c:94`), and whether the kernel carries out an `munmap` (`malloc.c:249, 266`,
`malloc_bonus.c:267, 285`). The code relies on two things:

* `perror_quiet`: `perror` prints and returns. It makes no call of the allocator and leaves the heap
  variable, the program's memory and its mappings as they are. A C library whose `perror` allocates
  is none of these platforms; there the bonus allocator would enter `malloc` again under
  `large_lock`.
* `unmaps_whole`: unmapping one whole mapping of one's own succeeds. -/
class Platform where
  perror : C Unit
  unmaps : Os → Region → Bool
  perror_quiet : ∀ w, perror w = some ((), w)
  unmaps_whole : ∀ os r, r ∈ os.regions → unmaps os r = true

/-- The platform on which the examples run: `perror` prints to a stream nobody reads back, and every
`munmap` is carried out. -/
instance : Platform where
  perror := pure ()
  unmaps := fun _ _ => true
  perror_quiet := fun _ => rfl
  unmaps_whole := fun _ _ _ => rfl

/-- `munmap(addr, len)`: 0, or -1 and nothing is unmapped. -/
def munmap [Platform] (addr len : Nat) : C Int := fun w =>
  if ⟨addr, len⟩ ∈ w.os.regions then
    if Platform.unmaps w.os ⟨addr, len⟩ then
      some (0, { w with os := w.os.munmap ⟨addr, len⟩ })
    else
      some (-1, w)
  else
    none

/-- The world with its memory replaced. -/
def World.setMem (w : World) (m : Mem) : World := { w with mem := m }

/-! ## Runs of the primitives -/

section Runs

variable {w : World} {n a v : Nat} {m m' : Mem} {i : Int} {b : Byte}

@[simp] theorem World.setMem_mem : (w.setMem m).mem = m := rfl
@[simp] theorem World.setMem_os : (w.setMem m).os = w.os := rfl

theorem load_of (h : w.os.Mapped a n) : load n a w = some (ld w.mem n a, w) := if_pos h

theorem store_of (h : w.os.Mapped a n) :
    store n a v w = some ((), w.setMem (st w.mem n a v)) := if_pos h

theorem loadInt_of (h : w.os.Mapped a 4) : loadInt a w = some (ldInt w.mem a, w) := if_pos h

theorem storeInt_of (h : w.os.Mapped a 4) :
    storeInt a i w = some ((), w.setMem (stInt w.mem a i)) := if_pos h

theorem loadByte_of (h : w.os.Mapped a 1) : loadByte a w = some (w.mem a, w) := if_pos h

theorem storeByte_of (h : w.os.Mapped a 1) :
    storeByte a b w = some ((), w.setMem (put w.mem a b)) := if_pos h

theorem mmap_of {p : Nat} (h : w.os.reply n = some p) :
    mmap n w = some (p, { w with
      mem := fill w.mem p (roundUp w.os.pageSize n) 0, os := w.os.mmap n }) := by
  simp only [mmap, h]

theorem mmap_fail (h : w.os.reply n = none) :
    mmap n w = some (mapFailed, { w with os := w.os.mmap n }) := by
  simp only [mmap, h]

theorem munmap_of [Platform] (h : ⟨a, n⟩ ∈ w.os.regions) :
    munmap a n w = some (0, { w with os := w.os.munmap ⟨a, n⟩ }) := by
  unfold munmap
  rw [if_pos h, if_pos (Platform.unmaps_whole w.os _ h)]

/-- A load of an `int` sees the store of one, -/
theorem ldInt_stInt_wrap : ldInt (stInt m a i) a = wrapInt i := by
  have hlt : (i % 2 ^ 32).toNat < 256 ^ 4 := by
    have h4 : 256 ^ 4 = 2 ^ 32 := by decide
    rw [h4]
    omega
  unfold ldInt stInt castInt
  rw [ld_st_same hlt, Int.toNat_of_nonneg (Int.emod_nonneg _ (by decide))]
  exact Int.emod_bmod i (2 ^ 32)

/-- unchanged when it is in range. -/
theorem ldInt_stInt (h : -2 ^ 31 ≤ i) (h' : i < 2 ^ 31) : ldInt (stInt m a i) a = i :=
  ldInt_stInt_wrap.trans (wrapInt_small h h')

theorem ldInt_congr (h : ∀ x, a ≤ x → x < a + 4 → m' x = m x) : ldInt m' a = ldInt m a := by
  unfold ldInt
  rw [ld_congr h]

end Runs

end FtMalloc
