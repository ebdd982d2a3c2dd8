import FtMalloc.Lib.ByteMem
import Mathlib.Data.List.Basic

/-!
# Intrusive doubly linked lists in flat memory

A node is an address; its `next` and `prev` words lie at fixed offsets inside a header of fixed
size (`NodeLayout`, whose fields carry the proof that they do). Address `0` is NULL.

* `Seg m p h xs q t`: the nodes `xs` are chained both ways. `p` is the predecessor of the first
  one, `h` the pointer that reaches it, `q` the last node (`p` when there is none) and `t` the
  `next` word of the last one (`h` when there is none).
* `IsList m h xs`: a whole NULL-terminated list from the head pointer `h`.

Results:
* `seg_append` cuts a segment anywhere.
* `isList_linkBack`: the stores that append a node represent `xs ++ [x]`.
* `isList_unlink`: the stores that take a node out represent the list without it.
* `linkBack_agrees`, `unlink_agrees`: both change link words of the nodes involved only.
* `walk_eq`: following `next` from the head enumerates the list.
-/

namespace FtMalloc.Lib

/-- Where a node keeps its two links, which lie inside the node and do not overlap. -/
structure NodeLayout where
  size : Nat
  next : Nat
  prev : Nat
  next_le : next + 8 ≤ size
  prev_le : prev + 8 ≤ size
  apart : next + 8 ≤ prev ∨ prev + 8 ≤ next

namespace NodeLayout

variable (L : NodeLayout)

/-- The `next` word of `x`. -/
def nextOf (m : Mem) (x : Nat) : Nat := ld m 8 (x + L.next)

/-- The `prev` word of `x`. -/
def prevOf (m : Mem) (x : Nat) : Nat := ld m 8 (x + L.prev)

/-- `x->next = v`. -/
def setNext (m : Mem) (x v : Nat) : Mem := st m 8 (x + L.next) v

/-- `x->prev = v`. -/
def setPrev (m : Mem) (x v : Nat) : Mem := st m 8 (x + L.prev) v

/-- The headers at `x` and `y` do not overlap. -/
def Apart (x y : Nat) : Prop := x + L.size ≤ y ∨ y + L.size ≤ x

/-- `a` is a byte of a link word of `x`. -/
def LinkByte (x a : Nat) : Prop :=
  x + L.next ≤ a ∧ a < x + L.next + 8 ∨ x + L.prev ≤ a ∧ a < x + L.prev + 8

/-- A doubly linked segment: from `h`, whose predecessor is `p`, over the nodes `xs` to the last
one, `q`, whose successor is `t`. -/
def Seg (m : Mem) : Nat → Nat → List Nat → Nat → Nat → Prop
  | p, h, [], q, t => q = p ∧ t = h
  | p, h, x :: xs, q, t => h = x ∧ x ≠ 0 ∧ L.prevOf m x = p ∧ Seg m x (L.nextOf m x) xs q t

/-- A NULL-terminated doubly linked list with the head pointer `h`. -/
def IsList (m : Mem) (h : Nat) (xs : List Nat) : Prop := ∃ q, L.Seg m 0 h xs q 0

/-- Follow `next` from `h` for at most `fuel` nodes. -/
def walk (m : Mem) : Nat → Nat → List Nat
  | 0, _ => []
  | fuel + 1, h => if h = 0 then [] else h :: walk m fuel (L.nextOf m h)

/-- Append `x` after the last node `q`: `x->next = 0; q->next = x; x->prev = q`. -/
def linkBack (m : Mem) (q x : Nat) : Mem :=
  L.setPrev (L.setNext (L.setNext m x 0) q x) x q

/-- Make `x` the only node: `x->next = 0; x->prev = 0`. -/
def linkOnly (m : Mem) (x : Nat) : Mem := L.setPrev (L.setNext m x 0) x 0

/-- `if (p) p->next = n`. -/
def skipNext (m : Mem) (p n : Nat) : Mem := if p = 0 then m else L.setNext m p n

/-- `if (n) n->prev = p`. -/
def skipPrev (m : Mem) (n p : Nat) : Mem := if n = 0 then m else L.setPrev m n p

/-- The stores that bypass `x`: its two neighbours become each other's. -/
def bypass (m : Mem) (x : Nat) : Mem :=
  L.skipPrev (L.skipNext m (L.prevOf m x) (L.nextOf m x)) (L.nextOf m x) (L.prevOf m x)

/-- The stores that take `x` out of its list and clear its links. -/
def unlink (m : Mem) (x : Nat) : Mem := L.linkOnly (L.bypass m x) x

variable {L} {m m' : Mem} {p h q t x y v : Nat} {xs ys zs : List Nat}

/-! ## Reading links past a store -/

theorem Apart.symm (h : L.Apart x y) : L.Apart y x := Or.symm h

theorem nextOf_lt : L.nextOf m x < 256 ^ 8 := ld_lt _ _ _

theorem prevOf_lt : L.prevOf m x < 256 ^ 8 := ld_lt _ _ _

theorem nextOf_setNext (hv : v < 256 ^ 8) : L.nextOf (L.setNext m x v) x = v := ld_st_same hv

theorem prevOf_setPrev (hv : v < 256 ^ 8) : L.prevOf (L.setPrev m x v) x = v := ld_st_same hv

theorem nextOf_setNext_apart (hxy : L.Apart x y) :
    L.nextOf (L.setNext m x v) y = L.nextOf m y := by
  have := L.next_le
  rcases hxy with hxy | hxy <;> exact ld_st_apart (by omega)

theorem prevOf_setPrev_apart (hxy : L.Apart x y) :
    L.prevOf (L.setPrev m x v) y = L.prevOf m y := by
  have := L.prev_le
  rcases hxy with hxy | hxy <;> exact ld_st_apart (by omega)

theorem prevOf_setNext (hxy : x = y ∨ L.Apart x y) :
    L.prevOf (L.setNext m x v) y = L.prevOf m y := by
  have h1 := L.next_le
  have h2 := L.prev_le
  have h3 := L.apart
  rcases hxy with rfl | hxy | hxy <;> exact ld_st_apart (by omega)

theorem nextOf_setPrev (hxy : x = y ∨ L.Apart x y) :
    L.nextOf (L.setPrev m x v) y = L.nextOf m y := by
  have h1 := L.next_le
  have h2 := L.prev_le
  have h3 := L.apart
  rcases hxy with rfl | hxy | hxy <;> exact ld_st_apart (by omega)

theorem setNext_agrees : Agrees m (L.setNext m x v) fun a => ¬L.LinkByte x a := by
  intro a ha
  refine st_out ?_
  unfold LinkByte at ha
  omega

theorem setPrev_agrees : Agrees m (L.setPrev m x v) fun a => ¬L.LinkByte x a := by
  intro a ha
  refine st_out ?_
  unfold LinkByte at ha
  omega

theorem nextOf_congr (h : ∀ a, L.LinkByte x a → m' a = m a) : L.nextOf m' x = L.nextOf m x :=
  ld_congr fun a h1 h2 => h a (Or.inl ⟨h1, h2⟩)

theorem prevOf_congr (h : ∀ a, L.LinkByte x a → m' a = m a) : L.prevOf m' x = L.prevOf m x :=
  ld_congr fun a h1 h2 => h a (Or.inr ⟨h1, h2⟩)

/-! ## Segments -/

theorem Seg.congr (hs : L.Seg m p h xs q t)
    (he : ∀ x ∈ xs, L.nextOf m' x = L.nextOf m x ∧ L.prevOf m' x = L.prevOf m x) :
    L.Seg m' p h xs q t := by
  induction xs generalizing p h with
  | nil => exact hs
  | cons x xs ih =>
    obtain ⟨rfl, h0, hp, hr⟩ := hs
    obtain ⟨en, ep⟩ := he h List.mem_cons_self
    refine ⟨rfl, h0, ep.trans hp, ?_⟩
    rw [en]
    exact ih hr fun y hy => he y (List.mem_cons_of_mem _ hy)

/-- **A segment can be cut anywhere**, and two that meet make one. -/
theorem seg_append : L.Seg m p h (xs ++ ys) q t ↔
    ∃ q' t', L.Seg m p h xs q' t' ∧ L.Seg m q' t' ys q t := by
  induction xs generalizing p h with
  | nil =>
    constructor
    · intro hs
      exact ⟨p, h, ⟨rfl, rfl⟩, hs⟩
    · rintro ⟨q', t', ⟨rfl, rfl⟩, hs⟩
      exact hs
  | cons x xs ih =>
    simp only [List.cons_append, Seg, ih]
    constructor
    · rintro ⟨e, h0, hp, q', t', h1, h2⟩
      exact ⟨q', t', ⟨e, h0, hp, h1⟩, h2⟩
    · rintro ⟨q', t', ⟨e, h0, hp, h1⟩, h2⟩
      exact ⟨e, h0, hp, q', t', h1, h2⟩

/-- The last node of a nonempty segment. -/
theorem Seg.last (hs : L.Seg m p h xs q t) (hne : xs ≠ []) :
    q ∈ xs ∧ q ≠ 0 ∧ L.nextOf m q = t := by
  induction xs generalizing p h with
  | nil => exact absurd rfl hne
  | cons x xs ih =>
    obtain ⟨rfl, h0, hp, hr⟩ := hs
    cases xs with
    | nil =>
      obtain ⟨rfl, rfl⟩ := hr
      exact ⟨List.mem_cons_self, h0, rfl⟩
    | cons y ys =>
      obtain ⟨hq, hq0, hn⟩ := ih hr (List.cons_ne_nil _ _)
      exact ⟨List.mem_cons_of_mem _ hq, hq0, hn⟩

theorem Seg.ne_zero (hs : L.Seg m p h xs q t) : ∀ x ∈ xs, x ≠ 0 := by
  induction xs generalizing p h with
  | nil => simp
  | cons x xs ih =>
    obtain ⟨rfl, h0, -, hr⟩ := hs
    intro y hy
    rcases List.mem_cons.mp hy with rfl | hy
    · exact h0
    · exact ih hr y hy

/-- Redirecting the last node redirects the segment. -/
theorem Seg.setNext_last (hs : L.Seg m p h xs q t) (hne : xs ≠ []) (hsep : xs.Pairwise L.Apart)
    (hv : v < 256 ^ 8) : L.Seg (L.setNext m q v) p h xs q v := by
  induction xs generalizing p h with
  | nil => exact absurd rfl hne
  | cons x xs ih =>
    obtain ⟨rfl, h0, hp, hr⟩ := hs
    obtain ⟨hx, hsep'⟩ := List.pairwise_cons.mp hsep
    cases xs with
    | nil =>
      obtain ⟨rfl, rfl⟩ := hr
      exact ⟨rfl, h0, (prevOf_setNext (Or.inl rfl)).trans hp, rfl, (nextOf_setNext hv).symm⟩
    | cons y ys =>
      have hqx : L.Apart q h := (hx q (hr.last (List.cons_ne_nil _ _)).1).symm
      refine ⟨rfl, h0, (prevOf_setNext (Or.inr hqx)).trans hp, ?_⟩
      rw [nextOf_setNext_apart hqx]
      exact ih hr (List.cons_ne_nil _ _) hsep'

/-- Re-rooting the first node changes the segment's predecessor. -/
theorem Seg.setPrev_first (hs : L.Seg m p h (x :: xs) q t) (hsep : (x :: xs).Pairwise L.Apart)
    (hv : v < 256 ^ 8) : L.Seg (L.setPrev m x v) v h (x :: xs) q t := by
  obtain ⟨rfl, h0, -, hr⟩ := hs
  obtain ⟨hx, -⟩ := List.pairwise_cons.mp hsep
  refine ⟨rfl, h0, prevOf_setPrev hv, ?_⟩
  rw [nextOf_setPrev (Or.inl rfl)]
  exact hr.congr fun y hy =>
    ⟨nextOf_setPrev (Or.inr (hx y hy)), prevOf_setPrev_apart (hx y hy)⟩

/-- Stores to a node outside a segment leave the segment alone, since nodes do not overlap. -/
theorem Seg.setNext_outside (hs : L.Seg m p h xs q t) (hx : ∀ y ∈ xs, L.Apart x y) :
    L.Seg (L.setNext m x v) p h xs q t :=
  hs.congr fun y hy => ⟨nextOf_setNext_apart (hx y hy), prevOf_setNext (Or.inr (hx y hy))⟩

theorem Seg.setPrev_outside (hs : L.Seg m p h xs q t) (hx : ∀ y ∈ xs, L.Apart x y) :
    L.Seg (L.setPrev m x v) p h xs q t :=
  hs.congr fun y hy => ⟨nextOf_setPrev (Or.inr (hx y hy)), prevOf_setPrev_apart (hx y hy)⟩

theorem Seg.linkOnly_outside (hs : L.Seg m p h xs q t) (hx : ∀ y ∈ xs, L.Apart x y) :
    L.Seg (L.linkOnly m x) p h xs q t :=
  (hs.setNext_outside hx).setPrev_outside hx

/-! ## Whole lists -/

theorem isList_nil : L.IsList m h [] ↔ h = 0 := by
  constructor
  · rintro ⟨q, rfl, h0⟩
    exact h0.symm
  · rintro rfl
    exact ⟨0, rfl, rfl⟩

theorem IsList.head_eq_zero_iff (hl : L.IsList m h xs) : h = 0 ↔ xs = [] := by
  obtain ⟨q, hs⟩ := hl
  cases xs with
  | nil => simp [hs.2.symm]
  | cons x xs =>
    obtain ⟨rfl, h0, -⟩ := hs
    simp [h0]

theorem IsList.head_cons (hl : L.IsList m h (x :: xs)) : h = x := by
  obtain ⟨q, hs⟩ := hl
  exact hs.1

theorem IsList.ne_zero (hl : L.IsList m h xs) : ∀ x ∈ xs, x ≠ 0 := by
  obtain ⟨q, hs⟩ := hl
  exact hs.ne_zero

theorem IsList.congr (hl : L.IsList m h xs)
    (he : ∀ x ∈ xs, L.nextOf m' x = L.nextOf m x ∧ L.prevOf m' x = L.prevOf m x) :
    L.IsList m' h xs := by
  obtain ⟨q, hs⟩ := hl
  exact ⟨q, hs.congr he⟩

/-- A list survives any change outside its nodes' link words. -/
theorem IsList.frame (hl : L.IsList m h xs) (he : ∀ x ∈ xs, ∀ a, L.LinkByte x a → m' a = m a) :
    L.IsList m' h xs :=
  hl.congr fun x hx => ⟨nextOf_congr (he x hx), prevOf_congr (he x hx)⟩

/-- A node of a list: what its two links say about its place. -/
theorem IsList.split (hl : L.IsList m h (ys ++ x :: zs)) :
    ∃ q, L.Seg m 0 h ys (L.prevOf m x) x ∧ L.Seg m x (L.nextOf m x) zs q 0 ∧ x ≠ 0 := by
  obtain ⟨q, hs⟩ := hl
  obtain ⟨q', t', h1, rfl, h0, rfl, h2⟩ := seg_append.mp hs
  exact ⟨q, h1, h2, h0⟩

theorem IsList.prevOf_eq_zero_iff (hl : L.IsList m h (ys ++ x :: zs)) :
    L.prevOf m x = 0 ↔ ys = [] := by
  obtain ⟨q, h1, -, -⟩ := hl.split
  cases ys with
  | nil => simp [h1.1]
  | cons y ys => simp [(h1.last (List.cons_ne_nil _ _)).2.1]

theorem IsList.nextOf_eq_zero_iff (hl : L.IsList m h (ys ++ x :: zs)) :
    L.nextOf m x = 0 ↔ zs = [] := by
  obtain ⟨q, -, h2, -⟩ := hl.split
  cases zs with
  | nil => simp [h2.2.symm]
  | cons z zs =>
    obtain ⟨e, h0, -⟩ := h2
    simp [e, h0]

theorem IsList.prevOf_mem (hl : L.IsList m h (ys ++ x :: zs)) (hp : L.prevOf m x ≠ 0) :
    L.prevOf m x ∈ ys := by
  obtain ⟨q, h1, -, -⟩ := hl.split
  exact (h1.last fun e => hp (hl.prevOf_eq_zero_iff.mpr e)).1

theorem IsList.nextOf_mem (hl : L.IsList m h (ys ++ x :: zs)) (hn : L.nextOf m x ≠ 0) :
    L.nextOf m x ∈ zs := by
  obtain ⟨q, -, h2, -⟩ := hl.split
  cases zs with
  | nil => exact absurd h2.2.symm hn
  | cons z zs =>
    rw [h2.1]
    exact List.mem_cons_self

/-- **Following `next` enumerates the list**, given fuel for its nodes. -/
theorem walk_eq : ∀ {xs : List Nat} {p h q fuel : Nat}, L.Seg m p h xs q 0 →
    xs.length ≤ fuel → L.walk m fuel h = xs
  | [], _, _, _, 0, _, _ => rfl
  | [], _, _, _, _ + 1, hs, _ => by
    rw [walk, if_pos hs.2.symm]
  | x :: xs, _, _, _, fuel + 1, hs, hf => by
    obtain ⟨rfl, h0, -, hr⟩ := hs
    rw [walk, if_neg h0, walk_eq hr (by simpa using hf)]

/-! ## Appending -/

theorem linkOnly_agrees : Agrees m (L.linkOnly m x) fun a => ¬L.LinkByte x a :=
  setNext_agrees.trans setPrev_agrees

theorem isList_linkOnly (hx : x ≠ 0) : L.IsList (L.linkOnly m x) x [x] := by
  refine ⟨x, rfl, hx, prevOf_setPrev (by decide), rfl, ?_⟩
  unfold linkOnly
  rw [nextOf_setPrev (Or.inl rfl), nextOf_setNext (by decide)]

theorem linkBack_agrees :
    Agrees m (L.linkBack m q x) fun a => ¬L.LinkByte x a ∧ ¬L.LinkByte q a :=
  ((setNext_agrees.mono fun _ ha => ha.1).trans (setNext_agrees.mono fun _ ha => ha.2)).trans
    (setPrev_agrees.mono fun _ ha => ha.1)

/-- **Appending a node** to a nonempty list whose last node is `q`. -/
theorem isList_linkBack (hs : L.Seg m 0 h xs q 0) (hne : xs ≠ []) (hsep : xs.Pairwise L.Apart)
    (hx : ∀ y ∈ xs, L.Apart x y) (hx0 : x ≠ 0) (hxv : x < 256 ^ 8) (hqv : q < 256 ^ 8) :
    L.IsList (L.linkBack m q x) h (xs ++ [x]) := by
  obtain ⟨hq, -, -⟩ := hs.last hne
  have hxq : L.Apart x q := hx q hq
  refine ⟨x, seg_append.mpr ⟨q, x, ?_, rfl, hx0, prevOf_setPrev hqv, rfl, ?_⟩⟩
  · exact ((hs.setNext_outside hx).setNext_last hne hsep hxv).setPrev_outside hx
  · unfold linkBack
    rw [nextOf_setPrev (Or.inl rfl), nextOf_setNext_apart hxq.symm, nextOf_setNext (by decide)]

/-! ## Taking a node out -/

theorem skipNext_agrees {n : Nat} :
    Agrees m (L.skipNext m p n) fun a => p ≠ 0 → ¬L.LinkByte p a := by
  intro a ha
  unfold skipNext
  split
  · rfl
  · rename_i hp
    exact setNext_agrees a (ha hp)

theorem skipPrev_agrees {n : Nat} :
    Agrees m (L.skipPrev m n p) fun a => n ≠ 0 → ¬L.LinkByte n a := by
  intro a ha
  unfold skipPrev
  split
  · rfl
  · rename_i hn
    exact setPrev_agrees a (ha hn)

/-- `unlink` changes the link words of `x` and of its two neighbours only. -/
theorem unlink_agrees :
    Agrees m (L.unlink m x) fun a => ¬L.LinkByte x a ∧
      (L.prevOf m x ≠ 0 → ¬L.LinkByte (L.prevOf m x) a) ∧
      (L.nextOf m x ≠ 0 → ¬L.LinkByte (L.nextOf m x) a) :=
  ((skipNext_agrees.mono fun _ ha => ha.2.1).trans (skipPrev_agrees.mono fun _ ha => ha.2.2)).trans
    (linkOnly_agrees.mono fun _ ha => ha.1)

/-- **Taking a node out** of a list leaves the other nodes, in order. -/
theorem isList_unlink (hl : L.IsList m h (ys ++ x :: zs))
    (hsep : (ys ++ x :: zs).Pairwise L.Apart) :
    L.IsList (L.unlink m x) (if L.prevOf m x = 0 then L.nextOf m x else h) (ys ++ zs) := by
  obtain ⟨q, h1, h2, hx0⟩ := hl.split
  obtain ⟨hys, hxzs, hcross⟩ := List.pairwise_append.mp hsep
  obtain ⟨hxz, hzs⟩ := List.pairwise_cons.mp hxzs
  have hxy : ∀ y ∈ ys, L.Apart x y := fun y hy => (hcross y hy x List.mem_cons_self).symm
  have hyz : ∀ y ∈ ys, ∀ z ∈ zs, L.Apart y z :=
    fun y hy z hz => hcross y hy z (List.mem_cons_of_mem _ hz)
  have hp0 := hl.prevOf_eq_zero_iff
  have hn0 := hl.nextOf_eq_zero_iff
  have hpm := hl.prevOf_mem
  have hnm := hl.nextOf_mem
  have hpv : L.prevOf m x < 256 ^ 8 := prevOf_lt
  have hnv : L.nextOf m x < 256 ^ 8 := nextOf_lt
  unfold unlink bypass
  generalize L.prevOf m x = p at *
  generalize L.nextOf m x = n at *
  -- the part before `x`, redirected to `n`
  have hfront : L.Seg (L.skipNext m p n) 0 (if p = 0 then n else h) ys p n := by
    unfold skipNext
    by_cases hp : p = 0
    · obtain rfl := hp0.mp hp
      simp only [hp, if_true]
      exact ⟨rfl, rfl⟩
    · simp only [hp, if_false]
      exact h1.setNext_last (fun e => hp (hp0.mpr e)) hys hnv
  -- the part after `x` is not touched by that store
  have hback : L.Seg (L.skipNext m p n) x n zs q 0 := by
    unfold skipNext
    split
    · exact h2
    · rename_i hp
      exact h2.setNext_outside fun z hz => hyz p (hpm hp) z hz
  generalize L.skipNext m p n = m₁ at hfront hback
  unfold skipPrev
  cases zs with
  | nil =>
    have hn : n = 0 := hn0.mpr rfl
    rw [if_pos hn, List.append_nil]
    rw [hn] at hfront ⊢
    exact ⟨p, hfront.linkOnly_outside hxy⟩
  | cons z zs =>
    have hn : n ≠ 0 := fun e => List.cons_ne_nil _ _ (hn0.mp e)
    obtain rfl : n = z := hback.1
    rw [if_neg hn]
    refine ⟨q, seg_append.mpr ⟨p, n, ?_, ?_⟩⟩
    · refine (hfront.setPrev_outside fun y hy => ?_).linkOnly_outside hxy
      exact (hyz y hy n List.mem_cons_self).symm
    · exact (hback.setPrev_first hzs hpv).linkOnly_outside hxz

end NodeLayout

end FtMalloc.Lib
