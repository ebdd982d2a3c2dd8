import FtMalloc.Lib.DList
import Mathlib.Data.List.Nodup
import Mathlib.Data.Set.Defs
import Mathlib.Logic.Function.Basic

/-!
# Several intrusive lists in one memory

* `Nodes S`: the addresses in `S` are those of nodes that do not overlap.
* `Lists m S heads nodes`: a family of NULL-terminated lists of such nodes, indexed by any type,
  in which no node is in two lists.

Results:
* `Seg.nodup`: a NULL-terminated list has no node twice. So the family needs no condition for
  this, and a walk along one of its lists ends.
* `Lists.append`, `Lists.appendFirst`, `Lists.remove`: the stores that append a node to one list
  of the family, or take one out, leave a family in which only that list differs.
-/

namespace FtMalloc.Lib

namespace NodeLayout

variable {L : NodeLayout} {m m' : Mem} {p h q t x y v : Nat} {xs ys zs : List Nat}

/-! ## Acyclicity -/

/-- NULL-terminated lists from one pointer are one list. -/
theorem Seg.unique {p' q' : Nat} (hs : L.Seg m p h xs q 0) (hs' : L.Seg m p' h ys q' 0) :
    xs = ys :=
  (walk_eq hs (Nat.le_max_left xs.length ys.length)).symm.trans
    (walk_eq hs' (Nat.le_max_right xs.length ys.length))

/-- **A NULL-terminated list does not run into itself**: from one node the way on is always the
same. -/
theorem Seg.nodup (hs : L.Seg m p h xs q 0) : xs.Nodup := by
  induction xs generalizing p h with
  | nil => exact List.nodup_nil
  | cons x xs ih =>
    obtain ⟨-, -, -, hr⟩ := id hs
    refine List.nodup_cons.mpr ⟨fun hx => ?_, ih hr⟩
    -- from the second occurrence on, the list would be its own proper suffix
    obtain ⟨ys, zs, rfl⟩ := List.append_of_mem hx
    obtain ⟨q', t', -, hsuffix⟩ := seg_append.mp hr
    have heq := hs.unique (h := h) (by rw [hs.1, ← hsuffix.1]; exact hsuffix)
    have hlen := congrArg List.length heq
    simp only [List.length_cons, List.length_append] at hlen
    omega

theorem IsList.nodup (hl : L.IsList m h xs) : xs.Nodup := by
  obtain ⟨q, hs⟩ := hl
  exact hs.nodup

/-- A node is not among those before it. -/
theorem IsList.not_mem_front (hl : L.IsList m h (ys ++ x :: zs)) : x ∉ ys := fun hx =>
  (List.nodup_append.mp hl.nodup).2.2 x hx x List.mem_cons_self rfl

/-! ## Several lists in one memory -/

variable (L)

/-- Addresses of nodes: pointers to headers that do not overlap. -/
structure Nodes (S : Set Nat) : Prop where
  ne_zero : ∀ x ∈ S, x ≠ 0
  word : ∀ x ∈ S, x < 256 ^ 8
  apart : ∀ x ∈ S, ∀ y ∈ S, x ≠ y → L.Apart x y

/-- Lists of nodes of `S`, no two of them with a node in common. -/
structure Lists {ι : Type*} (m : Mem) (S : Set Nat) (heads : ι → Nat) (nodes : ι → List Nat) :
    Prop where
  isList : ∀ i, L.IsList m (heads i) (nodes i)
  mem : ∀ i, ∀ x ∈ nodes i, x ∈ S
  disjoint : ∀ i j, i ≠ j → (nodes i).Disjoint (nodes j)

variable {L} {ι : Type*} {S : Set Nat} {heads : ι → Nat} {nodes : ι → List Nat} {l : ι}

theorem Nodes.pairwise (hS : L.Nodes S) (hnd : xs.Nodup) (hmem : ∀ x ∈ xs, x ∈ S) :
    xs.Pairwise L.Apart :=
  hnd.pairwise_of_forall_ne fun x hx y hy hne => hS.apart x (hmem x hx) y (hmem y hy) hne

theorem LinkByte.header {a : Nat} (h : L.LinkByte x a) : x ≤ a ∧ a < x + L.size := by
  have hn := L.next_le
  have hp := L.prev_le
  unfold LinkByte at h
  omega

/-- A byte of one node is no link byte of another. -/
theorem Nodes.not_linkByte {a : Nat} (hS : L.Nodes S) (hx : x ∈ S) (hy : y ∈ S) (hne : x ≠ y)
    (ha : x ≤ a ∧ a < x + L.size) : ¬L.LinkByte y a := by
  intro hb
  have hbytes := hb.header
  rcases hS.apart x hx y hy hne with h | h <;> omega

theorem Lists.pairwise (hl : L.Lists m S heads nodes) (hS : L.Nodes S) (l : ι) :
    (nodes l).Pairwise L.Apart :=
  hS.pairwise (hl.isList l).nodup (hl.mem l)

/-- One list of the family replaced, by a change of link words of its old nodes and of `x`. -/
theorem Lists.replace [DecidableEq ι] (hl : L.Lists m S heads nodes) (hS : L.Nodes S)
    (hx : x ∈ S) (hout : ∀ i, i ≠ l → x ∉ nodes i) (hnew : L.IsList m' h xs)
    (hxs : ∀ y ∈ xs, y = x ∨ y ∈ nodes l)
    (he : Agrees m m' fun a => ∀ y ∈ x :: nodes l, ¬L.LinkByte y a) :
    L.Lists m' S (Function.update heads l h) (Function.update nodes l xs) := by
  have hcases : ∀ i y, y ∈ Function.update nodes l xs i →
      i = l ∧ (y = x ∨ y ∈ nodes l) ∨ i ≠ l ∧ y ∈ nodes i := by
    intro i y hy
    by_cases hi : i = l
    · subst hi
      rw [Function.update_self] at hy
      exact .inl ⟨rfl, hxs y hy⟩
    · rw [Function.update_of_ne hi] at hy
      exact .inr ⟨hi, hy⟩
  -- what leaves the family, or enters it, is in no other list
  have happ : ∀ i y z, i ≠ l → y ∈ nodes i → z ∈ x :: nodes l → y ≠ z := by
    rintro i y z hi hy hz rfl
    rcases List.mem_cons.mp hz with rfl | hz
    · exact hout i hi hy
    · exact hl.disjoint i l hi hy hz
  have hmem : ∀ z ∈ x :: nodes l, z ∈ S := by
    intro z hz
    rcases List.mem_cons.mp hz with rfl | hz
    · exact hx
    · exact hl.mem l z hz
  refine ⟨fun i => ?_, fun i y hy => ?_, fun i j hij y hi hj => ?_⟩
  · by_cases hi : i = l
    · subst hi
      rwa [Function.update_self, Function.update_self]
    · rw [Function.update_of_ne hi, Function.update_of_ne hi]
      refine (hl.isList i).frame fun y hy a ha => he a fun z hz => ?_
      exact hS.not_linkByte (hl.mem i y hy) (hmem z hz) (happ i y z hi hy hz) ha.header
  · rcases hcases i y hy with ⟨-, h⟩ | ⟨-, h⟩
    · exact hmem y (by simpa using h)
    · exact hl.mem i y h
  · rcases hcases i y hi with ⟨rfl, h⟩ | ⟨hil, h⟩
    · rcases hcases j y hj with ⟨rfl, -⟩ | ⟨hjl, h'⟩
      · exact hij rfl
      · exact happ j y y hjl h' (by simpa using h) rfl
    · rcases hcases j y hj with ⟨rfl, h'⟩ | ⟨-, h'⟩
      · exact happ i y y hil h (by simpa using h') rfl
      · exact hl.disjoint i j hij h h'

/-- **Appending a node that is in no list** leaves every other list of the family as it was. -/
theorem Lists.append [DecidableEq ι] (hl : L.Lists m S heads nodes) (hS : L.Nodes S)
    (hx : x ∈ S) (hout : ∀ i, x ∉ nodes i) (hs : L.Seg m 0 (heads l) (nodes l) q 0)
    (hne : nodes l ≠ []) :
    L.Lists (L.linkBack m q x) S (Function.update heads l (heads l))
      (Function.update nodes l (nodes l ++ [x])) := by
  have hq := (hs.last hne).1
  have hnew : L.IsList (L.linkBack m q x) (heads l) (nodes l ++ [x]) := by
    refine isList_linkBack hs hne (hl.pairwise hS l) (fun y hy => ?_) (hS.ne_zero x hx)
      (hS.word x hx) (hS.word q (hl.mem l q hq))
    exact hS.apart x hx y (hl.mem l y hy) fun e => hout l (e ▸ hy)
  refine hl.replace hS hx (fun i _ => hout i) hnew (fun y hy => ?_) (linkBack_agrees.mono ?_)
  · simpa [or_comm] using hy
  · exact fun a ha => ⟨ha x List.mem_cons_self, ha q (List.mem_cons_of_mem _ hq)⟩

/-- The first node of a list. -/
theorem Lists.appendFirst [DecidableEq ι] (hl : L.Lists m S heads nodes) (hS : L.Nodes S)
    (hx : x ∈ S) (hout : ∀ i, x ∉ nodes i) :
    L.Lists (L.linkOnly m x) S (Function.update heads l x) (Function.update nodes l [x]) := by
  refine hl.replace hS hx (fun i _ => hout i) (isList_linkOnly (hS.ne_zero x hx))
    (fun y hy => .inl (by simpa using hy)) (linkOnly_agrees.mono fun a ha => ?_)
  exact ha x List.mem_cons_self

/-- The links of a node of a list lead to nodes of the list. -/
theorem IsList.prevOf_mem_of (hl : L.IsList m h xs) (hx : x ∈ xs) (hp : L.prevOf m x ≠ 0) :
    L.prevOf m x ∈ xs := by
  obtain ⟨ys, zs, rfl⟩ := List.append_of_mem hx
  exact List.mem_append_left _ (hl.prevOf_mem hp)

/-- No node is its own predecessor. -/
theorem IsList.prevOf_ne (hl : L.IsList m h xs) (hx : x ∈ xs) (hp : L.prevOf m x ≠ 0) :
    L.prevOf m x ≠ x := by
  obtain ⟨ys, zs, rfl⟩ := List.append_of_mem hx
  intro e
  have hmem := hl.prevOf_mem hp
  rw [e] at hmem
  exact hl.not_mem_front hmem

theorem IsList.nextOf_mem_of (hl : L.IsList m h xs) (hx : x ∈ xs) (hn : L.nextOf m x ≠ 0) :
    L.nextOf m x ∈ xs := by
  obtain ⟨ys, zs, rfl⟩ := List.append_of_mem hx
  exact List.mem_append_right _ (List.mem_cons_of_mem _ (hl.nextOf_mem hn))

theorem IsList.unlink_agrees (hl : L.IsList m h xs) (hx : x ∈ xs) :
    Agrees m (L.unlink m x) fun a => ∀ y ∈ x :: xs, ¬L.LinkByte y a :=
  NodeLayout.unlink_agrees.mono fun _ ha => ⟨ha x List.mem_cons_self,
    fun hp => ha _ (List.mem_cons_of_mem _ (hl.prevOf_mem_of hx hp)),
    fun hn => ha _ (List.mem_cons_of_mem _ (hl.nextOf_mem_of hx hn))⟩

/-- **Taking a node out of its list** leaves every other list of the family as it was. -/
theorem Lists.remove [DecidableEq ι] (hl : L.Lists m S heads nodes) (hS : L.Nodes S)
    (hx : x ∈ nodes l) :
    L.Lists (L.unlink m x) S
      (Function.update heads l (if L.prevOf m x = 0 then L.nextOf m x else heads l))
      (Function.update nodes l ((nodes l).erase x)) := by
  have hnew : L.IsList (L.unlink m x) (if L.prevOf m x = 0 then L.nextOf m x else heads l)
      ((nodes l).erase x) := by
    have hlist := hl.isList l
    have hpair := hl.pairwise hS l
    obtain ⟨ys, zs, hsplit⟩ := List.append_of_mem hx
    rw [hsplit] at hlist hpair
    rw [hsplit, List.erase_append_right _ hlist.not_mem_front, List.erase_cons_head]
    exact isList_unlink hlist hpair
  refine hl.replace hS (hl.mem l x hx) (fun i hi h => hl.disjoint i l hi h hx) hnew
    (fun y hy => .inr (List.mem_of_mem_erase hy)) ((hl.isList l).unlink_agrees hx)

theorem nextOf_unlink : L.nextOf (L.unlink m x) x = 0 := by
  unfold unlink linkOnly
  rw [nextOf_setPrev (Or.inl rfl), nextOf_setNext (by decide)]

theorem prevOf_unlink : L.prevOf (L.unlink m x) x = 0 := prevOf_setPrev (by decide)

end NodeLayout

end FtMalloc.Lib
