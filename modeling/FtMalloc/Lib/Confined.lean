import FtMalloc.Lib.DList

/-!
# Confined changes of a flat memory

A change of memory is a function `f : Mem → Mem`. It is `Confined O G f` when it reads and writes
bytes of `O` at most, and besides overwrites every byte of `G` whatever was there.

Results:
* `Confined.comp`: changes compose, the second one may read what the first one overwrote.
* `Confined.agrees`: memories that agree on what is read stay as equal as they were, and become
  equal on `G`.
* `Confined.comm`: changes with nothing in common commute.
* The stores and the list operations are confined. Appending a node to a list whose nodes are
  known (`join`), and taking one out (`cut`), read nothing.
-/

namespace FtMalloc.Lib

/-- `a` is one of the `n` bytes at `b`. -/
def Within (b n a : Nat) : Prop := b ≤ a ∧ a < b + n

/-- No address. -/
def Nowhere (_ : Nat) : Prop := False

/-- `f` reads and writes bytes of `O` at most, and overwrites `G`: what it leaves outside of both is
what was there, and what it leaves inside depends on the bytes of `O` alone. -/
structure Confined (O G : Nat → Prop) (f : Mem → Mem) : Prop where
  frame : ∀ {m a}, ¬O a → ¬G a → f m a = m a
  det : ∀ {m m'}, Agrees m m' O → ∀ {a}, O a ∨ G a → f m' a = f m a

variable {O O' G G' T : Nat → Prop} {f g : Mem → Mem} {m m' : Mem} {a b n v : Nat}

theorem Confined.id : Confined O Nowhere fun m => m :=
  ⟨fun _ _ => rfl, fun h _ ha => h _ (ha.resolve_right fun hn => hn)⟩

/-- A change may be given more to read and write than it needs. -/
theorem Confined.mono (h : Confined O G f) (hO : ∀ a, O a → O' a) : Confined O' G f where
  frame := fun h1 h2 => h.frame (fun ho => h1 (hO _ ho)) h2
  det := by
    intro m m' he a ha
    by_cases hin : O a ∨ G a
    · exact h.det (he.mono hO) hin
    · rw [not_or] at hin
      rw [h.frame hin.1 hin.2, h.frame hin.1 hin.2]
      exact he a (ha.resolve_right hin.2)

/-- **Changes compose.** -/
theorem Confined.comp (h : Confined O G f) (h' : Confined O' G' g) (hO : ∀ a, O' a → O a ∨ G a) :
    Confined O (fun a => G a ∨ G' a) fun m => g (f m) where
  frame := by
    intro m a h1 h2
    rw [not_or] at h2
    have hnot : ¬O' a := fun ho => (hO a ho).elim h1 h2.1
    rw [h'.frame hnot h2.2, h.frame h1 h2.1]
  det := by
    intro m m' he a ha
    have hf : ∀ {x}, O x ∨ G x → f m' x = f m x := fun hx => h.det he hx
    by_cases hin : O' a ∨ G' a
    · exact h'.det (fun x hx => hf (hO x hx)) hin
    · rw [not_or] at hin
      rw [h'.frame hin.1 hin.2, h'.frame hin.1 hin.2]
      rcases ha with ha | ha | ha
      · exact hf (Or.inl ha)
      · exact hf (Or.inr ha)
      · exact absurd ha hin.2

/-- A further change that overwrites nothing. -/
theorem Confined.then (h : Confined O G f) (h' : Confined O' Nowhere g)
    (hO : ∀ a, O' a → O a ∨ G a) : Confined O G fun m => g (f m) where
  frame := fun h1 h2 => (h.comp h' hO).frame h1 fun hg => hg.elim h2 fun hn => hn
  det := fun he _ ha => (h.comp h' hO).det he (ha.imp_right Or.inl)

/-- **Equal bytes stay equal**, and what is overwritten becomes equal, whatever differs
elsewhere. -/
theorem Confined.agrees (h : Confined O G f) (hO : ∀ a, O a → T a) (he : Agrees m m' T) :
    Agrees (f m) (f m') fun a => T a ∨ G a := by
  intro a ha
  by_cases hin : O a ∨ G a
  · exact h.det (he.mono hO) hin
  · rw [not_or] at hin
    rw [h.frame hin.1 hin.2, h.frame hin.1 hin.2]
    exact he a (ha.resolve_right hin.2)

/-- **Changes that have nothing in common commute**: neither reads nor writes what the other one
writes. -/
theorem Confined.comm (h : Confined O G f) (h' : Confined O' G' g)
    (hd : ∀ a, O a ∨ G a → ¬(O' a ∨ G' a)) (m : Mem) : g (f m) = f (g m) := by
  have hf : Agrees m (f m) O' := fun a ha =>
    h.frame (fun ho => hd a (Or.inl ho) (Or.inl ha)) fun hg => hd a (Or.inr hg) (Or.inl ha)
  have hg : Agrees m (g m) O := fun a ha =>
    h'.frame (fun ho => hd a (Or.inl ha) (Or.inl ho)) fun hg => hd a (Or.inl ha) (Or.inr hg)
  funext a
  by_cases hin : O a ∨ G a
  · have hout := hd a hin
    rw [not_or] at hout
    rw [h'.frame hout.1 hout.2, h.det hg hin]
  · rw [not_or] at hin
    rw [h.frame hin.1 hin.2]
    by_cases hin' : O' a ∨ G' a
    · exact h'.det hf hin'
    · rw [not_or] at hin'
      rw [h'.frame hin'.1 hin'.2, h'.frame hin'.1 hin'.2, h.frame hin.1 hin.2]

/-! ## Stores -/

/-- A number that is computed from what was there. -/
theorem Confined.update {g : Mem → Nat}
    (hg : ∀ {m m'}, Agrees m m' (Within a n) → g m' = g m) :
    Confined (Within a n) Nowhere fun m => Lib.st m n a (g m) where
  frame := fun h1 _ => st_out (by unfold Within at h1; omega)
  det := by
    intro m m' he x hx
    obtain ⟨h1, h2⟩ := hx.resolve_right fun hn => hn
    rw [st_in h1 h2, st_in h1 h2, hg he]

theorem Confined.st : Confined (Within a n) Nowhere fun m => Lib.st m n a v :=
  Confined.update fun _ => rfl

/-- A byte that is computed from what was there. -/
theorem Confined.modify {c : Byte → Byte} :
    Confined (Within a 1) Nowhere fun m => Lib.put m a (c (m a)) where
  frame := fun h1 _ => put_out (by unfold Within at h1; omega)
  det := by
    intro m m' he x hx
    obtain ⟨h1, h2⟩ := hx.resolve_right fun hn => hn
    obtain rfl : x = a := by omega
    rw [put_same, put_same, he x ⟨h1, h2⟩]

theorem Confined.put {c : Byte} : Confined (Within a 1) Nowhere fun m => Lib.put m a c :=
  Confined.modify (c := fun _ => c)

/-- Filling overwrites. -/
theorem Confined.fill {c : Byte} : Confined Nowhere (Within b n) fun m => Lib.fill m b n c where
  frame := fun _ h2 => fill_out (by unfold Within at h2; omega)
  det := by
    intro m m' _ x hx
    obtain ⟨h1, h2⟩ := hx.resolve_left fun hn => hn
    rw [fill_in h1 h2, fill_in h1 h2]

/-! ## Lists -/

namespace NodeLayout

variable (L : NodeLayout)

/-- The stores that take `x` out of a list in which it stands between `p` and `q`. -/
def excise (p q x : Nat) (m : Mem) : Mem :=
  L.linkOnly (L.skipPrev (L.skipNext m p q) q p) x

/-- The stores that take `x` out of the list `xs`. -/
def cut (xs : List Nat) (x : Nat) : Mem → Mem :=
  L.excise ((xs.takeWhile (· ≠ x)).getLastD 0) ((xs.dropWhile (· ≠ x)).tail.headD 0) x

/-- The stores that append `x` to the list `xs`. -/
def join (xs : List Nat) (x : Nat) (m : Mem) : Mem :=
  match xs.getLast? with
  | none => L.linkOnly m x
  | some q => L.linkBack m q x

variable {L} {xs ys zs : List Nat} {h p q t x : Nat}

theorem unlink_eq : L.unlink m x = L.excise (L.prevOf m x) (L.nextOf m x) x m := rfl

/-- The last node of a segment, its predecessor when there is none. -/
theorem Seg.last_eq (hs : L.Seg m p h xs q t) : q = xs.getLastD p := by
  induction xs generalizing p h with
  | nil => exact hs.1
  | cons x xs ih =>
    obtain ⟨rfl, -, -, hr⟩ := hs
    rw [List.getLastD_cons]
    exact ih hr

/-- The first node of a segment that ends in NULL. -/
theorem Seg.head_eq (hs : L.Seg m p h xs q 0) : h = xs.headD 0 := by
  cases xs with
  | nil => exact hs.2.symm
  | cons x xs => exact hs.1

/-- **Taking a node out** of a represented list. -/
theorem IsList.unlink_eq_cut (hl : L.IsList m h xs) (hx : x ∈ xs) (hnd : xs.Nodup) :
    L.unlink m x = L.cut xs x m := by
  obtain ⟨ys, zs, rfl⟩ := List.append_of_mem hx
  have hnot : ∀ y ∈ ys, y ≠ x := fun y hy e =>
    (List.nodup_append.mp hnd).2.2 y hy x List.mem_cons_self e
  obtain ⟨q, h1, h2, -⟩ := hl.split
  have hbefore : (ys ++ x :: zs).takeWhile (· ≠ x) = ys := by
    rw [List.takeWhile_append_of_pos (by simpa using hnot)]
    simp
  have hafter : (ys ++ x :: zs).dropWhile (· ≠ x) = x :: zs := by
    rw [List.dropWhile_append_of_pos (by simpa using hnot)]
    simp
  unfold cut
  rw [unlink_eq, hbefore, hafter, h1.last_eq, h2.head_eq, List.tail_cons]

theorem linkBack_eq_join {hs : Nat} (hl : L.Seg m 0 hs xs q 0) (hne : xs ≠ []) :
    L.linkBack m q x = L.join xs x m := by
  have hq := hl.last_eq
  obtain ⟨ys, y, rfl⟩ := List.eq_nil_or_concat' xs |>.resolve_left hne
  rw [List.getLastD_concat] at hq
  unfold join
  rw [List.getLast?_concat, hq]

/-- The link words of the nodes of a list. -/
def LinkBytes (L : NodeLayout) (xs : List Nat) (a : Nat) : Prop := ∃ x ∈ xs, L.LinkByte x a

theorem setNext_confined : Confined (L.LinkByte x) Nowhere fun m => L.setNext m x v :=
  Confined.st.mono fun _ ha => Or.inl ha

theorem setPrev_confined : Confined (L.LinkByte x) Nowhere fun m => L.setPrev m x v :=
  Confined.st.mono fun _ ha => Or.inr ha

theorem linkOnly_confined : Confined (L.LinkByte x) Nowhere fun m => L.linkOnly m x :=
  setNext_confined.then setPrev_confined fun _ ha => Or.inl ha

theorem skipNext_confined (hp : p ≠ 0 → p ∈ xs) :
    Confined (L.LinkBytes xs) Nowhere fun m => L.skipNext m p v := by
  unfold skipNext
  by_cases h0 : p = 0
  · simp only [h0, if_true]
    exact Confined.id
  · simp only [h0, if_false]
    exact setNext_confined.mono fun _ ha => ⟨p, hp h0, ha⟩

theorem skipPrev_confined (hp : p ≠ 0 → p ∈ xs) :
    Confined (L.LinkBytes xs) Nowhere fun m => L.skipPrev m p v := by
  unfold skipPrev
  by_cases h0 : p = 0
  · simp only [h0, if_true]
    exact Confined.id
  · simp only [h0, if_false]
    exact setPrev_confined.mono fun _ ha => ⟨p, hp h0, ha⟩

theorem getLastD_mem (hne : xs.getLastD 0 ≠ 0) : xs.getLastD 0 ∈ xs := by
  rcases List.eq_nil_or_concat' xs with rfl | ⟨ys, y, rfl⟩
  · exact absurd rfl hne
  · simp

theorem headD_mem (hne : xs.headD 0 ≠ 0) : xs.headD 0 ∈ xs := by
  cases xs with
  | nil => exact absurd rfl hne
  | cons x xs => exact List.mem_cons_self

/-- Taking a node out changes links of the list. -/
theorem cut_confined (hx : x ∈ xs) : Confined (L.LinkBytes xs) Nowhere (L.cut xs x) := by
  have hp := fun h0 => (List.takeWhile_subset (p := (· ≠ x)) (l := xs)) (getLastD_mem h0)
  have hq := fun h0 => (List.dropWhile_subset (p := (· ≠ x)) (l := xs))
    (List.mem_of_mem_tail (headD_mem h0))
  refine ((skipNext_confined hp).then (skipPrev_confined hq) fun _ ha => Or.inl ha).then
    linkOnly_confined fun a ha => Or.inl ⟨x, hx, ha⟩

/-- Appending a node changes links of the list and of the node. -/
theorem join_confined : Confined (L.LinkBytes (xs ++ [x])) Nowhere (L.join xs x) := by
  have hx : ∀ a, L.LinkByte x a → L.LinkBytes (xs ++ [x]) a := fun a ha => ⟨x, by simp, ha⟩
  rcases List.eq_nil_or_concat' xs with rfl | ⟨ys, y, rfl⟩
  · exact linkOnly_confined.mono hx
  · unfold join
    simp only [List.getLast?_concat]
    have hy : ∀ a, L.LinkByte y a → L.LinkBytes (ys ++ [y] ++ [x]) a :=
      fun a ha => ⟨y, by simp, ha⟩
    exact ((setNext_confined.mono hx).then (setNext_confined.mono hy) fun _ ha => Or.inl ha).then
      (setPrev_confined.mono hx) fun _ ha => Or.inl ha

end NodeLayout

end FtMalloc.Lib
