import FtMalloc.Source.Malloc

/-!
# Client runs

A client calls an allocator and writes to what it was given. `Step` is one call of a client that
keeps the rules: `free` and `realloc` get NULL or a live pointer, and writes stay inside the
requested ranges. `Run` is a finite sequence of steps, with the result of each. The allocator is
an `Api`, so that both allocators of the repository have the same runs.

Which `mmap` calls fail, and where the others map, is the list of answers the first state starts
with: it is arbitrary, so runs range over every behaviour of the kernel.

* A `realloc` that returns NULL leaves the block it was given alone, with the size it was last
  given. A block resized in place has the new size.
* `zeroFrees`: in the bonus allocator `realloc(p, 0)` releases `p` (`malloc_bonus.c:329-332`).
-/

namespace FtMalloc

open Lib

/-- A live allocation: the pointer and the size last requested for it, which a `realloc` changes
even when it returns the same pointer. -/
structure Alloc where
  ptr : Nat
  size : Nat
  deriving DecidableEq, Repr

/-- What a client asks for: one of the three calls, or to write a byte into memory it was given. -/
inductive Op
  | malloc (size : Nat)
  | free (ptr : Nat)
  | realloc (ptr size : Nat)
  | write (addr : Nat) (byte : Byte)
  deriving DecidableEq, Repr

/-- The entry points of an allocator over the state `σ`. -/
structure Api (σ : Type) where
  malloc : Nat → Prog σ Nat
  free : Nat → Prog σ Unit
  realloc : Nat → Nat → Prog σ Nat
  write : Nat → Byte → Prog σ Unit
  zeroFrees : Bool

/-- A call and what it returns, NULL for the calls without a result, so that all of them can stand
in one trace. -/
def Api.call {σ : Type} (api : Api σ) : Op → Prog σ Nat
  | .malloc s => api.malloc s
  | .free p => do
    api.free p
    pure null
  | .realloc p s => api.realloc p s
  | .write a b => do
    api.write a b
    pure null

/-- The client's rules: sizes are those of a `size_t`, it passes NULL or a pointer it owns, and it
writes to its own bytes only. -/
def Op.Valid (live : List Alloc) : Op → Prop
  | malloc s => s < 2 ^ 64
  | free p => p = null ∨ ∃ x ∈ live, x.ptr = p
  | realloc p s => s < 2 ^ 64 ∧ (p = null ∨ ∃ x ∈ live, x.ptr = p)
  | write a _ => ∃ x ∈ live, x.ptr ≤ a ∧ a < x.ptr + x.size

/-- Resizings are to `PTRDIFF_MAX` bytes at most. `malloc` refuses more (`malloc.c:207`,
`malloc_bonus.c:222`), the bonus `realloc` does not (`malloc_bonus.c:352-354`). -/
def Op.Limited (op : Op) : Prop := ∀ p s, op = .realloc p s → s ≤ ptrdiffMax

theorem valid_malloc {live : List Alloc} {s : Nat} (h : s < 2 ^ 64) : (Op.malloc s).Valid live := h

/-- The allocations without `p`, after `p` was released or moved. -/
def drop (live : List Alloc) (p : Nat) : List Alloc := live.filter fun x => x.ptr ≠ p

/-- The live allocations after a call that returned `q`; a resizing that returns NULL leaves the old
one, but for size 0 where that frees. -/
def Op.after (zeroFrees : Bool) (live : List Alloc) (q : Nat) : Op → List Alloc
  | malloc s => if q = null then live else ⟨q, s⟩ :: live
  | free p => drop live p
  | realloc p s =>
    if q ≠ null then ⟨q, s⟩ :: drop live p
    else if zeroFrees ∧ s = 0 then drop live p
    else live
  | write _ _ => live

/-- An allocator's state and the client's allocations, which the allocator knows nothing of. -/
structure Config (σ : Type) where
  state : σ
  live : List Alloc

variable {σ : Type}

/-- One call of a client that keeps the rules, on its own from the first instruction to the last. -/
structure Step (api : Api σ) (c : Config σ) (op : Op) (q : Nat) (c' : Config σ) : Prop where
  valid : op.Valid c.live
  run : api.call op c.state = some (q, c'.state)
  live : c'.live = op.after api.zeroFrees c.live q

/-- A run whose steps all satisfy `G`, a condition on the state before the call and the call, with
the calls and their results, oldest first. -/
inductive RunIn (api : Api σ) (G : Config σ → Op → Prop) (c : Config σ) :
    List (Op × Nat) → Config σ → Prop
  | nil : RunIn api G c [] c
  | snoc {t : List (Op × Nat)} {c₁ c₂ : Config σ} {op : Op} {q : Nat} :
      RunIn api G c t c₁ → G c₁ op → Step api c₁ op q c₂ → RunIn api G c (t ++ [(op, q)]) c₂

/-- A run of a client that keeps the rules, and of which nothing else is asked. -/
abbrev Run (api : Api σ) : Config σ → List (Op × Nat) → Config σ → Prop :=
  RunIn api fun _ _ => True

/-- **What every step keeps holds along every run**, by induction on the run; the results about
whole runs go through this rule. -/
theorem RunIn.invariant {api : Api σ} {G : Config σ → Op → Prop} {I : Config σ → Prop}
    {c c' : Config σ} {t : List (Op × Nat)}
    (step : ∀ {c op q c'}, I c → G c op → Step api c op q c' → I c') (hr : RunIn api G c t c')
    (h0 : I c) : I c' := by
  induction hr with
  | nil => exact h0
  | snoc _ hg hs ih => exact step ih hg hs

theorem RunIn.append {api : Api σ} {G : Config σ → Op → Prop} {c c₁ c₂ : Config σ}
    {t t' : List (Op × Nat)} (h1 : RunIn api G c t c₁) (h2 : RunIn api G c₁ t' c₂) :
    RunIn api G c (t ++ t') c₂ := by
  induction h2 with
  | nil => rwa [List.append_nil]
  | snoc _ hg hs ih =>
    rw [← List.append_assoc]
    exact .snoc ih hg hs

/-! ## Runs that are evaluated -/

instance (live : List Alloc) : (op : Op) → Decidable (op.Valid live)
  | .malloc s => inferInstanceAs (Decidable (s < 2 ^ 64))
  | .free p => inferInstanceAs (Decidable (p = null ∨ ∃ x ∈ live, x.ptr = p))
  | .realloc p s =>
    inferInstanceAs (Decidable (s < 2 ^ 64 ∧ (p = null ∨ ∃ x ∈ live, x.ptr = p)))
  | .write a _ => inferInstanceAs (Decidable (∃ x ∈ live, x.ptr ≤ a ∧ a < x.ptr + x.size))

/-- The calls `ops` of a client that keeps the rules, one after the other, as long as `check`
accepts each: what they return, and the configuration then. -/
def Api.eval (api : Api σ) (check : Config σ → Op → Bool) :
    List Op → Config σ → Option (List (Op × Nat) × Config σ)
  | [], c => some ([], c)
  | op :: ops, c =>
    if op.Valid c.live ∧ check c op then
      (api.call op c.state).bind fun r =>
        (api.eval check ops ⟨r.2, op.after api.zeroFrees c.live r.1⟩).map fun e =>
          ((op, r.1) :: e.1, e.2)
    else
      none

/-- **What is evaluated is a run**: the test of the rules is the rules. -/
theorem Api.eval_run {api : Api σ} {check : Config σ → Op → Bool} {G : Config σ → Op → Prop}
    {ops : List Op} {c c' : Config σ} {t : List (Op × Nat)}
    (hcheck : ∀ c op, check c op → G c op) (h : api.eval check ops c = some (t, c')) :
    RunIn api G c t c' := by
  induction ops generalizing c t with
  | nil =>
    obtain ⟨rfl, rfl⟩ := Prod.mk.inj (Option.some.inj h)
    exact .nil
  | cons op ops ih =>
    unfold Api.eval at h
    split at h
    · rename_i hop
      obtain ⟨⟨q, s⟩, hcall, h⟩ := Option.bind_eq_some_iff.mp h
      obtain ⟨⟨t, c₁⟩, hrest, he⟩ := Option.map_eq_some_iff.mp h
      obtain ⟨rfl, rfl⟩ := Prod.mk.inj he
      have hfirst : RunIn api G c [(op, q)] ⟨s, op.after api.zeroFrees c.live q⟩ :=
        .snoc .nil (hcheck c op hop.2) ⟨hop.1, hcall, rfl⟩
      exact hfirst.append (ih hrest)
    · cases h

/-! ## The live allocations -/

theorem mem_drop {live : List Alloc} {p : Nat} {x : Alloc} :
    x ∈ drop live p ↔ x ∈ live ∧ x.ptr ≠ p := by
  unfold drop
  rw [List.mem_filter, decide_eq_true_eq]

theorem drop_cons_of_ne {live : List Alloc} {p : Nat} {x : Alloc} (h : x.ptr ≠ p) :
    drop (x :: live) p = x :: drop live p := by
  unfold drop
  rw [List.filter_cons, if_pos (decide_eq_true h)]

/-- Forgetting a pointer that is not live changes nothing, NULL for one. -/
theorem drop_of_not_mem {live : List Alloc} {p : Nat} (h : ∀ x ∈ live, x.ptr ≠ p) :
    drop live p = live :=
  List.filter_eq_self.mpr fun x hx => decide_eq_true (h x hx)

/-! ## The mandatory allocator -/

/-- The entry points of `malloc.c`, whose `realloc(p, 0)` returns `p` and releases nothing
(`malloc.c:287-296`). -/
def mandatory [Platform] : Api World where
  malloc := malloc
  free := free
  realloc := realloc
  write := storeByte
  zeroFrees := false

/-- `heap_t global_heap = {0, NULL, ...}` (`malloc.c:3`). -/
def Heap.init : Heap := ⟨0, null, null, null, null, null, null⟩

/-- The system before the first call: nothing is mapped, and `answers` are the kernel's
proposals. -/
def Os.init (pageSize : Nat) (answers : List (Option Nat)) : Os := ⟨pageSize, [], answers, []⟩

/-- The machine before the first call, with anything in memory. -/
def World.init (pageSize : Nat) (m : Mem) (answers : List (Option Nat)) : World :=
  ⟨Heap.init, m, Os.init pageSize answers⟩

end FtMalloc
