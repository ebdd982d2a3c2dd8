import FtMalloc.Lib.DList
import FtMalloc.Source.World

/-!
# The intrusive lists (`src/list.c`, `bonus/src/list_bonus.c`)

`lst_add_back` and `block_add_back` are the same function on two structs, and so are `lst_detach`
and `block_detach`; the bonus file repeats the four of them. `addBack` and `detach` take the
struct's layout, and each source function is one of them at its own layout.

`lst_add_back` walks to the last node. A node of an allocator list is the start of its own
mapping, so a walk over more nodes than there are regions is on a cycle and never returns: that
is what running out of fuel models. `addBackWithin` has the fuel as a parameter, for lists whose
nodes may lie anywhere.

Results: `addBackWithin_nil_run`, `addBackWithin_run` and `detach_run` say which memory and which
head each function leaves, as `NodeLayout.linkOnly`, `linkBack` and `unlink`.
-/

namespace FtMalloc

open Lib

/-- Where a `zone_t` has its `next` and its `prev`. -/
def zoneNode : NodeLayout where
  size := ZoneT.sizeof
  next := ZoneT.next
  prev := ZoneT.prev
  next_le := by decide
  prev_le := by decide
  apart := by decide

/-- Where a `block_t` has them. -/
def blockNode : NodeLayout where
  size := BlockT.sizeof
  next := BlockT.next
  prev := BlockT.prev
  next_le := by decide
  prev_le := by decide
  apart := by decide

/-- `while (last->next) last = last->next;` (`list.c:15-17`), over as many nodes as the first
argument allows. -/
def lastOf (L : NodeLayout) : Nat → Nat → C Nat
  | 0, _ => Prog.fault
  | fuel + 1, last => do
    let next ← load 8 (last + L.next)
    if next = null then pure last else lastOf L fuel next

/-- `lst_add_back` and `block_add_back` (`list.c:3-41`), whose bodies differ in the type of the node
only. -/
def addBack (L : NodeLayout) (head : Head) (x : Nat) : C Unit := do
  if x = null then
    pure ()
  else
    store 8 (x + L.next) null
    let first ← readHead head
    if first = null then
      store 8 (x + L.prev) null
      writeHead head x
    else
      let w ← Prog.get
      let last ← lastOf L w.os.regions.length first
      store 8 (last + L.next) x
      store 8 (x + L.prev) last

/-- `lst_add_back` / `block_add_back`, with a walk over at most `fuel` nodes. -/
def addBackWithin (L : NodeLayout) (fuel : Nat) (head : Head) (x : Nat) : C Unit := do
  if x = null then
    pure ()
  else
    store 8 (x + L.next) null
    let first ← readHead head
    if first = null then
      store 8 (x + L.prev) null
      writeHead head x
    else
      let last ← lastOf L fuel first
      store 8 (last + L.next) x
      store 8 (x + L.prev) last

/-- `if (lst->prev) lst->prev->next = lst->next; else *head = lst->next;` (`list.c:48-51`). -/
def detachForward (L : NodeLayout) (head : Head) (x : Nat) : C Unit := do
  let prev ← load 8 (x + L.prev)
  let next ← load 8 (x + L.next)
  if prev = null then writeHead head next else store 8 (prev + L.next) next

/-- `if (lst->next) lst->next->prev = lst->prev;` (`list.c:52-53`), after the links of the neighbour
before were changed. -/
def detachBackward (L : NodeLayout) (x : Nat) : C Unit := do
  let next ← load 8 (x + L.next)
  let prev ← load 8 (x + L.prev)
  if next = null then pure () else store 8 (next + L.prev) prev

/-- `lst_detach` and `block_detach` (`list.c:43-73`). The node's own links are cleared, NULL is
ignored, and whether the node is on the list of `head` is not asked. -/
def detach (L : NodeLayout) (head : Head) (x : Nat) : C Unit := do
  if x = null then
    pure ()
  else
    detachForward L head x
    detachBackward L x
    store 8 (x + L.next) null
    store 8 (x + L.prev) null

/-- `lst_add_back` (`list.c:3-21`). -/
def lstAddBack : Head → Nat → C Unit := addBack zoneNode

/-- `lst_detach` (`list.c:43-57`). -/
def lstDetach : Head → Nat → C Unit := detach zoneNode

/-- `block_add_back` (`list.c:23-41`). -/
def blockAddBack : Head → Nat → C Unit := addBack blockNode

/-- `block_detach` (`list.c:59-73`). -/
def blockDetach : Head → Nat → C Unit := detach blockNode

/-! ## Runs -/

section Runs

variable {L : NodeLayout} {w : World} {head : Head} {x p h q fuel : Nat} {xs : List Nat}

/-- The walk stops at the last node. -/
theorem lastOf_run : ∀ {xs : List Nat} {p h fuel : Nat}, L.Seg w.mem p h xs q 0 → xs ≠ [] →
    xs.length ≤ fuel → (∀ y ∈ xs, w.os.Mapped (y + L.next) 8) →
    lastOf L fuel h w = some (q, w)
  | [], _, _, _, _, hne, _, _ => absurd rfl hne
  | x :: xs, _, _, fuel + 1, hs, _, hf, hm => by
    obtain ⟨rfl, -, -, hr⟩ := hs
    have hx : load 8 (_ + L.next) w = some (L.nextOf w.mem _, w) :=
      load_of (hm _ List.mem_cons_self)
    rw [lastOf, Prog.bind_of hx, Prog.ite_run]
    cases xs with
    | nil =>
      obtain ⟨rfl, h0⟩ := hr
      rw [if_pos h0.symm]
      rfl
    | cons y ys =>
      obtain ⟨e, h0, -⟩ := id hr
      rw [if_neg (by rw [e]; exact h0)]
      exact lastOf_run hr (List.cons_ne_nil _ _) (by simpa using hf)
        fun z hz => hm z (List.mem_cons_of_mem _ hz)

/-- `addBack` allows as many nodes as there are regions. -/
theorem addBack_within : addBack L head x w = addBackWithin L w.os.regions.length head x w := by
  unfold addBack addBackWithin
  rw [Prog.ite_run, Prog.ite_run]
  by_cases hx : x = null
  · rw [if_pos hx, if_pos hx]
  · rw [if_neg hx, if_neg hx]
    by_cases hm : w.os.Mapped (x + L.next) 8
    · have hread : readHead head (w.setMem (L.setNext w.mem x 0)) =
          some (w.heap.get head, w.setMem (L.setNext w.mem x 0)) := rfl
      rw [Prog.bind_of (store_of hm), Prog.bind_of (store_of hm)]
      refine (Prog.bind_of hread).trans (Eq.symm ((Prog.bind_of hread).trans ?_))
      rw [Prog.ite_run, Prog.ite_run]
      rfl
    · have hfault : store 8 (x + L.next) null w = none := if_neg hm
      rw [Prog.bind_run, Prog.bind_run, hfault]
      rfl

/-- Appending to an empty list. -/
theorem addBackWithin_nil_run (hx : x ≠ 0) (hn : w.os.Mapped (x + L.next) 8)
    (hp : w.os.Mapped (x + L.prev) 8) (h0 : w.heap.get head = 0) :
    addBackWithin L fuel head x w = some ((),
      { w with mem := L.linkOnly w.mem x, heap := w.heap.set head x }) := by
  refine Prog.if_false_run hx (Prog.bind_to (store_of hn) ?_)
  refine Prog.bind_to rfl (Prog.if_true_run h0 ?_)
  exact Prog.bind_to (store_of hp) rfl

/-- Appending after the last node. -/
theorem addBackWithin_run (hx : x ≠ 0) (hn : w.os.Mapped (x + L.next) 8)
    (hp : w.os.Mapped (x + L.prev) 8) (hs : L.Seg w.mem 0 (w.heap.get head) xs q 0)
    (hne : xs ≠ []) (hlen : xs.length ≤ fuel)
    (hm : ∀ y ∈ xs, w.os.Mapped (y + L.next) 8) (hap : ∀ y ∈ xs, L.Apart x y) :
    addBackWithin L fuel head x w = some ((), w.setMem (L.linkBack w.mem q x)) := by
  have h0 : w.heap.get head ≠ 0 := fun e => by
    cases xs with
    | nil => exact hne rfl
    | cons y ys => exact hs.2.1 (hs.1.symm.trans e)
  have hs' : L.Seg (L.setNext w.mem x 0) 0 (w.heap.get head) xs q 0 := hs.setNext_outside hap
  have hq := hm q (hs.last hne).1
  refine Prog.if_false_run hx (Prog.bind_to (store_of hn) ?_)
  refine Prog.bind_to rfl (Prog.if_false_run h0 ?_)
  refine Prog.bind_to (lastOf_run (w := w.setMem (L.setNext w.mem x 0)) hs' hne hlen hm) ?_
  exact Prog.bind_to (store_of hq) (store_of hp)

theorem detachForward_run (hn : w.os.Mapped (x + L.next) 8) (hp : w.os.Mapped (x + L.prev) 8)
    (hpm : L.prevOf w.mem x ≠ 0 → w.os.Mapped (L.prevOf w.mem x + L.next) 8) :
    detachForward L head x w = some ((), {
      w with
      mem := L.skipNext w.mem (L.prevOf w.mem x) (L.nextOf w.mem x)
      heap := if L.prevOf w.mem x = 0 then w.heap.set head (L.nextOf w.mem x) else w.heap }) := by
  have h1 : load 8 (x + L.prev) w = some (L.prevOf w.mem x, w) := load_of hp
  have h2 : load 8 (x + L.next) w = some (L.nextOf w.mem x, w) := load_of hn
  rw [detachForward, Prog.bind_of h1, Prog.bind_of h2, Prog.ite_run, NodeLayout.skipNext]
  by_cases h0 : L.prevOf w.mem x = 0
  · simp only [h0, if_true]
    rfl
  · simp only [h0, if_false]
    exact store_of (hpm h0)

theorem detachBackward_run (hn : w.os.Mapped (x + L.next) 8) (hp : w.os.Mapped (x + L.prev) 8)
    (hnm : L.nextOf w.mem x ≠ 0 → w.os.Mapped (L.nextOf w.mem x + L.prev) 8) :
    detachBackward L x w =
      some ((), w.setMem (L.skipPrev w.mem (L.nextOf w.mem x) (L.prevOf w.mem x))) := by
  have h1 : load 8 (x + L.next) w = some (L.nextOf w.mem x, w) := load_of hn
  have h2 : load 8 (x + L.prev) w = some (L.prevOf w.mem x, w) := load_of hp
  rw [detachBackward, Prog.bind_of h1, Prog.bind_of h2, Prog.ite_run, NodeLayout.skipPrev]
  by_cases h0 : L.nextOf w.mem x = 0
  · simp only [h0, if_true]
    rfl
  · simp only [h0, if_false]
    exact store_of (hnm h0)

/-- Taking a node out. -/
theorem detach_run (hx : x ≠ 0) (hn : w.os.Mapped (x + L.next) 8)
    (hp : w.os.Mapped (x + L.prev) 8)
    (hpm : L.prevOf w.mem x ≠ 0 → w.os.Mapped (L.prevOf w.mem x + L.next) 8 ∧
      L.Apart (L.prevOf w.mem x) x)
    (hnm : L.nextOf w.mem x ≠ 0 → w.os.Mapped (L.nextOf w.mem x + L.prev) 8) :
    detach L head x w = some ((), {
      w with
      mem := L.unlink w.mem x
      heap := if L.prevOf w.mem x = 0 then w.heap.set head (L.nextOf w.mem x) else w.heap }) := by
  rw [detach, Prog.ite_run, if_neg hx,
    Prog.bind_of (detachForward_run hn hp fun h => (hpm h).1)]
  -- the store to the predecessor left the links of `x` alone
  have hkeep : L.nextOf (L.skipNext w.mem (L.prevOf w.mem x) (L.nextOf w.mem x)) x =
        L.nextOf w.mem x ∧
      L.prevOf (L.skipNext w.mem (L.prevOf w.mem x) (L.nextOf w.mem x)) x = L.prevOf w.mem x := by
    unfold NodeLayout.skipNext
    split
    · exact ⟨rfl, rfl⟩
    · rename_i h0
      exact ⟨NodeLayout.nextOf_setNext_apart (hpm h0).2,
        NodeLayout.prevOf_setNext (Or.inr (hpm h0).2)⟩
  obtain ⟨en, ep⟩ := hkeep
  refine Prog.bind_to (detachBackward_run hn hp fun h => ?_) ?_
  · rw [en] at h ⊢
    exact hnm h
  · rw [en, ep]
    exact Prog.bind_to (store_of hn) (store_of hp)

end Runs

end FtMalloc
