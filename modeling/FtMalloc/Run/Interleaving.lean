import FtMalloc.Run.Steps

/-!
# Interleavings of the bonus allocator

Each atomic step of a call, from a state the other threads may have left, is an `Advance`, by what
it does (`Activity.Did`). `realloc` returns the bytes the old block had when it was called
(`Activity.Kept`).

Results:
* `exec_advances`: the next step of a call runs, and is an `Advance`.
* `threads_keep`, `threads_inv`: the invariant holds in every state that some interleaving reaches.
* `threads_total`: no thread gets stuck.
-/

namespace FtMalloc

open Lib Bonus

variable {P : Nat} {A A' : AHeap} {W W' : BonusWorld} {live : List Alloc} {k k' : Cell}
  {p q s : Nat} {op : Op} {before : Mem} {a : Activity} {o : Next} {t t' : Thread}

/-! ## The steps -/

variable [Platform]

/-- A step advances its thread, and a `realloc` that returns has kept the bytes. -/
def Activity.Advances (P : Nat) (A : AHeap) (W : BonusWorld) (live : List Alloc) (a : Activity)
    (o : Next) (A' : AHeap) (W' : BonusWorld) : Prop :=
  Advance P A W ⟨live, some a⟩ A' W' (.settle live a.op a.before o) ∧ a.Kept P A o W'.world.mem

omit [Platform] in
theorem ThreadInv.idle (ho : Owned P A live) : ThreadInv P A W ⟨live, none⟩ :=
  ⟨ho, fun _ h => by cases h⟩

omit [Platform] in
theorem ThreadInv.going (ho : Owned P A (a.pc.pending ++ live))
    (hs : Standing P A W.world.mem live a) : ThreadInv P A W ⟨live, some a⟩ :=
  ⟨ho, fun _ h => by cases h; exact hs⟩

omit [Platform] in
/-- What the thread owns after an allocation was its own or nobody's, so no other thread loses a
pointer. -/
theorem fresh_of_alloc (live : List Alloc) (s : Nat)
    (hnew : q = null ∨ ∀ k, A.Holds k → k.addr P ≠ q) :
    ∀ x ∈ if q = null then live else ⟨q, s⟩ :: live,
      (∃ y ∈ live, y.ptr = x.ptr) ∨ ∀ k, A.Holds k → k.addr P ≠ x.ptr := by
  intro x hx
  by_cases h0 : q = null
  · rw [if_pos h0] at hx
    exact Or.inl ⟨x, hx, rfl⟩
  · rw [if_neg h0] at hx
    rcases List.mem_cons.mp hx with rfl | hx
    · exact Or.inr (hnew.resolve_left h0)
    · exact Or.inl ⟨x, hx, rfl⟩

theorem StoreDone.advances {b : Nat} {c : Byte} (hs : StoreDone P A W live b c W')
    (ho : Owned P A live) :
    Activity.Advances P A W live ⟨.write b c, before, .store b c⟩ (.done null) A W' := by
  obtain ⟨p, hp, hun⟩ := hs.disturbs
  exact ⟨⟨hs.heap, ThreadInv.idle ho, ⟨p, Or.inr hp, hun⟩, fun x hx => Or.inl ⟨x, hx, rfl⟩⟩,
    Activity.Kept.null⟩

theorem check_advances {pc : Pc} (hI : HeapInv P A W) (ho : Owned P A live) (hm : op.Mallocs s)
    (hpc : pc = .setup s ∨ pc = .alloc s ∧ A.initialized = true) :
    Activity.Advances P A W live ⟨op, before, .check s⟩ (.go pc) A W := by
  rcases hpc with rfl | ⟨rfl, hi⟩
  · exact ⟨Advance.still hI (ThreadInv.going ho (.setup hm)) fun x hx => ⟨x, hx, rfl⟩,
      Activity.Kept.go⟩
  · exact ⟨Advance.still hI (ThreadInv.going ho (.alloc hm hi)) fun x hx => ⟨x, hx, rfl⟩,
      Activity.Kept.go⟩

omit [Platform] in
theorem SetupDone.owned {e : Int} (hs : SetupDone P A W e A' W') (hI : HeapInv P A W)
    (ho : Owned P A live) : Owned P A' live :=
  ho.mono fun hk => ⟨hs.grows.held hk, hs.grows.cap (hI.ok.toWf.hasCell hk)⟩

theorem SetupDone.advances (hs : SetupDone P A W 0 A' W') (hI : HeapInv P A W)
    (ho : Owned P A live) (hm : op.Mallocs s) :
    Activity.Advances P A W live ⟨op, before, .setup s⟩ (.go (.alloc s)) A' W' :=
  ⟨⟨hs.heap, ThreadInv.going (hs.owned hI ho) (.alloc hm (hs.ready rfl)),
    ⟨null, Or.inl rfl, hs.undisturbed⟩, fun x hx => Or.inl ⟨x, hx, rfl⟩⟩, Activity.Kept.go⟩

theorem SetupDone.fails {e : Int} (hs : SetupDone P A W e A' W') (hP : ValidPage P)
    (hI : HeapInv P A W) (ho : Owned P A live) (hm : op.Mallocs s) :
    Activity.Advances P A W live ⟨op, before, .setup s⟩ (.done null) A' W' := by
  have hafter : op.after bonus.zeroFrees live null = live :=
    after_mallocs hm (ho.ptr_ne_null hP hI.rep)
  refine ⟨⟨hs.heap, ?_, ⟨null, Or.inl rfl, hs.undisturbed⟩, ?_⟩, Activity.Kept.null⟩
  · rw [Thread.settle, hafter]
    exact ThreadInv.idle (hs.owned hI ho)
  · rw [Thread.settle, hafter]
    exact fun x hx => Or.inl ⟨x, hx, rfl⟩

theorem AllocDone.advances (hs : AllocDone P A W live s q A' W') (hP : ValidPage P)
    (hI : HeapInv P A W) (ho : Owned P A live) (hm : op.Mallocs s) :
    Activity.Advances P A W live ⟨op, before, .alloc s⟩ (.done q) A' W' := by
  have hafter := after_mallocs (q := q) hm (ho.ptr_ne_null hP hI.rep)
  have hnobody : q = null ∨ ∀ k₀, A.Holds k₀ → k₀.addr P ≠ q := by
    rcases hs.new with h0 | ⟨k, -, -, -, h⟩
    · exact Or.inl h0
    · exact Or.inr h
  refine ⟨⟨hs.heap, ?_, ⟨null, Or.inl rfl, hs.undisturbed⟩, ?_⟩, Activity.Kept.mallocs hm⟩
  · rw [Thread.settle, hafter]
    exact ThreadInv.idle hs.owned
  · rw [Thread.settle, hafter]
    exact fresh_of_alloc live s hnobody

theorem skip_advances (hI : HeapInv P A W) (ho : Owned P A live) :
    Activity.Advances P A W live ⟨.free (k.addr P), before, .freeHeader (k.addr P)⟩ (.done null)
      A W := by
  have hdrop : Owned P A (drop live (k.addr P)) := ho.release fun _ hk' => ⟨hk', rfl⟩
  exact ⟨Advance.still hI (ThreadInv.idle hdrop) fun x hx => ⟨x, (mem_drop.mp hx).1, rfl⟩,
    Activity.Kept.null⟩

theorem FreeDone.advances (hs : FreeDone P A W k A' W') (ho : Owned P A live)
    (hm : k.OwnedIn P live) :
    Activity.Advances P A W live ⟨.free (k.addr P), before, .freeBlock (k.addr P) k.type⟩
      (.done null) A' W' :=
  ⟨⟨hs.heap, ThreadInv.idle (ho.release hs.keeps), ⟨_, Or.inr hm, hs.undisturbed⟩,
    fun x hx => Or.inl ⟨x, (mem_drop.mp hx).1, rfl⟩⟩, Activity.Kept.null⟩

/-- The block stays where it is (`malloc_bonus.c:338-341, 345-348`), with the size it is asked to
have from now on. -/
theorem fits_advances (hP : ValidPage P) (hI : HeapInv P A W) (ho : Owned P A live)
    (hr : Resizing P A W.world.mem live k s before) (hfit : s ≤ A.cap k) :
    Activity.Advances P A W live ⟨.realloc (k.addr P) s, before, .header (k.addr P) s⟩
      (.done (k.addr P)) A W := by
  have h0 := hI.rep.addr_ne_zero hP (hI.rep.wf.hasCell hr.held)
  have hafter : (Op.realloc (k.addr P) s).after bonus.zeroFrees live (k.addr P) =
      ⟨k.addr P, s⟩ :: drop live (k.addr P) := (after_realloc hr.range.1).trans (if_neg h0)
  have hdrop : Owned P A (drop live (k.addr P)) := ho.release fun _ hk' => ⟨hk', rfl⟩
  refine ⟨Advance.still hI ?_ fun x hx => ?_, ?_⟩
  · rw [Thread.settle, hafter]
    exact ThreadInv.idle (hdrop.add hr.held hfit fun x hx => (mem_drop.mp hx).2)
  · rw [Thread.settle, hafter] at hx
    rcases List.mem_cons.mp hx with rfl | hx
    · exact hr.mine
    · exact ⟨x, (mem_drop.mp hx).1, rfl⟩
  · rintro q p s' he - hop -
    cases he
    cases hop
    exact ⟨k, hr.held, rfl, fun j hj => hr.bytes j (by omega)⟩

theorem AllocDone.growFails (hs : AllocDone P A W live s null A' W')
    (hr : Resizing P A W.world.mem live k s before) :
    Activity.Advances P A W live
      ⟨.realloc (k.addr P) s, before, .grow (k.addr P) s k.type (A.cap k)⟩ (.done null) A' W' := by
  have hafter : (Op.realloc (k.addr P) s).after bonus.zeroFrees live null = live :=
    after_realloc hr.range.1
  have ho' := hs.owned
  rw [if_pos rfl] at ho'
  refine ⟨⟨hs.heap, ?_, ⟨null, Or.inl rfl, hs.undisturbed⟩, ?_⟩, Activity.Kept.null⟩
  · rw [Thread.settle, hafter]
    exact ThreadInv.idle ho'
  · rw [Thread.settle, hafter]
    exact fun x hx => Or.inl ⟨x, hx, rfl⟩

/-- There is a larger block to move to (`malloc_bonus.c:352-359`); until the call returns it is its
thread's too. -/
theorem AllocDone.grows (hs : AllocDone P A W live s (k'.addr P) A' W') (hP : ValidPage P)
    (hI : HeapInv P A W) (ho : Owned P A live)
    (hr : Resizing P A W.world.mem live k s before) (hlt : A.cap k < s) (hheld : A'.Holds k')
    (hsize : s ≤ A'.cap k') (hnobody : ∀ k₀, A.Holds k₀ → k₀.addr P ≠ k'.addr P) :
    Activity.Advances P A W live
      ⟨.realloc (k.addr P) s, before, .grow (k.addr P) s k.type (A.cap k)⟩
      (.go (.copy (k.addr P) s k.type (A.cap k) (k'.addr P))) A' W' := by
  have h0 := hs.heap.rep.addr_ne_zero hP (hs.heap.rep.wf.hasCell hheld)
  obtain ⟨hr', hcap⟩ := hr.undisturbed hs.undisturbed (ho.ptr_ne_null hP hI.rep)
  have hne : k' ≠ k := by
    rintro rfl
    exact hnobody _ hr.held rfl
  have hstand : Standing P A' W'.world.mem live ⟨.realloc (k.addr P) s, before,
      .copy (k.addr P) s k.type (A'.cap k) (k'.addr P)⟩ :=
    .copy ⟨hr', hcap ▸ hlt, hheld, hne, hsize⟩
  have ho' := hs.owned
  have hfresh := fresh_of_alloc live s (Or.inr hnobody)
  rw [if_neg h0] at ho' hfresh
  rw [hcap] at hstand
  exact ⟨⟨hs.heap, ThreadInv.going ho' hstand, ⟨null, Or.inl rfl, hs.undisturbed⟩, hfresh⟩,
    Activity.Kept.go⟩

theorem CopyDone.advances (hs : CopyDone P A W k k' W') (ho : Owned P A (⟨k'.addr P, s⟩ :: live))
    (hv : Moving P A W.world.mem live k k' s before) :
    Activity.Advances P A W live
      ⟨.realloc (k.addr P) s, before, .copy (k.addr P) s k.type (A.cap k) (k'.addr P)⟩
      (.go (.release (k.addr P) s k.type (k'.addr P))) A W' := by
  have hother : ∀ x ∈ live, x.ptr ≠ k'.addr P := fun x hx he =>
    (List.nodup_cons.mp ho.nodup).1 (List.mem_map.mpr ⟨x, hx, he⟩)
  obtain ⟨hr', -⟩ := hv.toResizing.undisturbed hs.undisturbed hother
  have hstand := Standing.release ⟨hr', hv.grows, hv.target, hv.ne, hv.fits⟩
    fun j hj => (hs.copied j hj).trans (hv.bytes j hj)
  exact ⟨⟨hs.heap, ThreadInv.going ho hstand, ⟨_, Or.inr ⟨_, List.mem_cons_self, rfl⟩,
    hs.undisturbed⟩, fun x hx => Or.inl ⟨x, hx, rfl⟩⟩, Activity.Kept.go⟩

/-- The old block goes, and the call returns the new one (`malloc_bonus.c:361-364`). -/
theorem FreeDone.moves (hs : FreeDone P A W k A' W') (hP : ValidPage P) (hI : HeapInv P A W)
    (ho : Owned P A (⟨k'.addr P, s⟩ :: live)) (hv : Moving P A W.world.mem live k k' s before)
    (hbytes : ∀ j, j < A.cap k → W.world.mem (k'.addr P + j) = before (k.addr P + j)) :
    Activity.Advances P A W live
      ⟨.realloc (k.addr P) s, before, .release (k.addr P) s k.type (k'.addr P)⟩
      (.done (k'.addr P)) A' W' := by
  have hne : k'.addr P ≠ k.addr P := fun e => hv.ne (hI.sound.addr_inj hP hv.target hv.held e)
  have h0 := hI.rep.addr_ne_zero hP (hI.rep.wf.hasCell hv.target)
  have hafter : (Op.realloc (k.addr P) s).after bonus.zeroFrees live (k'.addr P) =
      drop (⟨k'.addr P, s⟩ :: live) (k.addr P) := by
    rw [after_realloc hv.range.1, if_neg h0, drop_cons_of_ne hne]
  refine ⟨⟨hs.heap, ?_, ⟨_, Or.inr ?_, hs.undisturbed⟩, fun x hx => ?_⟩, ?_⟩
  · rw [Thread.settle, hafter]
    exact ThreadInv.idle (ho.release hs.keeps)
  · obtain ⟨x, hx, hxk⟩ := hv.mine
    exact ⟨x, List.mem_cons_of_mem _ hx, hxk⟩
  · rw [Thread.settle, hafter] at hx
    exact Or.inl ⟨x, (mem_drop.mp hx).1, rfl⟩
  · rintro q p s' he - hop -
    cases he
    cases hop
    refine ⟨k, hv.held, rfl, fun j hj => ?_⟩
    have hgrows := hv.grows
    have hfits := hv.fits
    exact ((hs.undisturbed.cell hv.target hne).2.2 j (by omega)).trans (hbytes j (by omega))

/-- **Every step of a call advances its thread**, by the cases of `Activity.Did`. -/
theorem Activity.Did.advances (hP : ValidPage P) (hI : HeapInv P A W)
    (ho : Owned P A (a.pc.pending ++ live)) (hd : a.Did P A W live o A' W') :
    a.Advances P A W live o A' W' := by
  cases hd with
  | store _ hs => exact hs.advances ho
  | check hm hpc => exact check_advances hI ho hm hpc
  | setup hm hs => exact hs.advances hI ho hm
  | setupFailed hm hs => exact hs.fails hP hI ho hm
  | alloc hm _ hs => exact hs.advances hP hI ho hm
  | skip => exact skip_advances hI ho
  | freeHeader hk hm =>
    exact ⟨Advance.still hI (ThreadInv.going ho (.freeBlock hk hm)) fun x hx => ⟨x, hx, rfl⟩,
      Activity.Kept.go⟩
  | freeBlock _ hm hs => exact hs.advances ho hm
  | fits hr hfit => exact fits_advances hP hI ho hr hfit
  | header hr hlt =>
    exact ⟨Advance.still hI (ThreadInv.going ho (.grow hr hlt)) fun x hx => ⟨x, hx, rfl⟩,
      Activity.Kept.go⟩
  | growFailed hr _ hs => exact hs.growFails hr
  | grow hr hlt hs hheld hsize hnew => exact hs.grows hP hI ho hr hlt hheld hsize hnew
  | copy hv hs => exact hs.advances ho hv
  | release hv hbytes hs => exact hs.moves hP hI ho hv hbytes

/-- The next step of a call runs, and advances its thread; no step waits, since sections are whole
steps here. -/
theorem exec_advances (hP : ValidPage P) (hI : HeapInv P A W)
    (ht : ThreadInv P A W ⟨live, some a⟩) :
    ∃ o W' A', a.pc.exec W = some (o, W') ∧ a.Advances P A W live o A' W' := by
  obtain ⟨o, A', W', hrun, hd⟩ := exec_does hP hI ht
  exact ⟨o, W', A', hrun, hd.advances hP hI ht.owned⟩

/-- **A call begins** with its local variables right: its pointer is a cell of the thread's, its
size within the bounds. -/
theorem start_advances (hP : ValidPage P) (hI : HeapInv P A W) (ho : Owned P A live)
    (hv : op.Valid live) (hr : op.InBounds) :
    Advance P A W ⟨live, none⟩ A W (.settle live op W.world.mem op.start) := by
  have hgo : ∀ {pc : Pc}, op.start = .go pc → pc.pending = [] →
      Standing P A W.world.mem live ⟨op, W.world.mem, pc⟩ →
      Advance P A W ⟨live, none⟩ A W (.settle live op W.world.mem op.start) := by
    intro pc hstart hnone hs
    have howned : Thread.owned ⟨live, some ⟨op, W.world.mem, pc⟩⟩ = live := by
      rw [Thread.owned_of_call rfl, hnone]
      rfl
    rw [hstart]
    refine Advance.still hI ⟨howned.symm ▸ ho, fun a ha => ?_⟩ fun x hx => ⟨x, howned ▸ hx, rfl⟩
    cases ha
    exact hs
  have hcell : ∀ {p}, (∃ x ∈ live, x.ptr = p) → p ≠ null ∧ ∃ k, A.Holds k ∧ k.addr P = p := by
    rintro p ⟨x, hx, rfl⟩
    obtain ⟨k, hk, haddr, -⟩ := ho.cell x hx
    exact ⟨ho.ptr_ne_null hP hI.rep x hx, k, hk, haddr⟩
  have hmallocs : ∀ {s}, 1 ≤ s → s ≤ ptrdiffMax → startMalloc s = .go (.check s) := fun h1 h2 =>
    if_neg (by omega)
  cases op with
  | malloc s => exact hgo (hmallocs hr.1 hr.2) rfl (.check ⟨Or.inl rfl, hr⟩)
  | free p =>
    rcases hv with rfl | hx
    · have hdrop : drop live null = live := drop_of_not_mem (ho.ptr_ne_null hP hI.rep)
      have hafter : (Op.free null).after bonus.zeroFrees live null = live := hdrop
      have hstart : (Op.free null).start = .done null := rfl
      rw [hstart, Thread.settle, hafter]
      exact Advance.still hI (ThreadInv.idle ho) fun x hx => ⟨x, hx, rfl⟩
    · obtain ⟨h0, k, hk, rfl⟩ := hcell hx
      exact hgo (if_neg h0) rfl (.freeHeader hk hx)
  | realloc p s =>
    rcases hv.2 with rfl | hx
    · have hstart : (Op.realloc null s).start = startMalloc s := rfl
      exact hgo (hstart.trans (hmallocs hr.1 (hr.2.2 rfl))) rfl
        (.check ⟨Or.inr rfl, hr.1, hr.2.2 rfl⟩)
    · obtain ⟨h0, k, hk, rfl⟩ := hcell hx
      have hs : s ≠ 0 := by
        have := hr.1
        omega
      exact hgo ((if_neg h0).trans (if_neg hs)) rfl
        (.header ⟨hk, hx, ⟨hr.1, hr.2.1⟩, fun _ _ => rfl⟩)
  | write a b => exact hgo rfl rfl (.store hv)

/-! ## Interleavings -/

/-- **One step of one thread**, a call that begins or the next step of one. -/
theorem ThreadStep.advance (hP : ValidPage P) (hI : HeapInv P A W) (ht : ThreadInv P A W t)
    (hs : ThreadStep W t W' t') : ∃ A', Advance P A W t A' W' t' := by
  cases hs with
  | call hv hr => exact ⟨A, start_advances hP hI ht.owned hv hr⟩
  | exec hrun =>
    obtain ⟨o, W₁, A', hrun', hadv, -⟩ := exec_advances hP hI ht
    obtain ⟨rfl, rfl⟩ := Prod.mk.inj (Option.some.inj (hrun.symm.trans hrun'))
    exact ⟨A', hadv⟩

/-- **Every step of every thread keeps the invariant**, its own and that of every thread that shares
no pointer with it: the premise of `Keeps.reach`. -/
theorem threads_keep (hP : ValidPage P) :
    Sys.Keeps ThreadStep (HeapInv P) (ThreadInv P) Thread.Disjoint where
  symm := fun hd x hx y hy he => hd y hy x hx he.symm
  step := by
    intro A W t W' t' hI ht hs
    obtain ⟨A', hadv⟩ := hs.advance hP hI ht
    exact ⟨A', hadv.heap, hadv.own, fun u hd hu => hadv.others hP hI hd hu⟩

variable {ι : Type} [DecidableEq ι] {S : Sys ι BonusWorld Thread}

/-- **The invariant holds in every reachable state**: the heap is represented, every thread keeps
its own, and no two own one pointer. -/
theorem threads_inv (hS : Threads.Reachable P S) :
    ∃ A, Sys.Holds (HeapInv P) (ThreadInv P) Thread.Disjoint A S := by
  obtain ⟨hP, m, answers, hreach⟩ := hS
  have hI : BonusInv P ⟨BonusWorld.init P m answers, []⟩ AHeap.empty := Bonus.init_inv hP
  refine (threads_keep hP).reach (g := AHeap.empty) ⟨⟨hI.inv.rep, hI.inv.ok, hI.free⟩, fun i => ?_,
    fun _ x hx => absurd hx List.not_mem_nil⟩ hreach
  exact ThreadInv.idle hI.inv.owned

/-- **No thread gets stuck**: the next step of its call runs, whatever the others did before. -/
theorem threads_total (hS : Threads.Reachable P S) {i : ι} (hc : (S.thread i).call = some a) :
    ∃ o W', a.pc.exec S.shared = some (o, W') := by
  obtain ⟨A, hh⟩ := threads_inv hS
  have ht := hh.own i
  have heta : S.thread i = ⟨(S.thread i).live, some a⟩ := by
    rw [← hc]
  rw [heta] at ht
  obtain ⟨o, W', A', hrun, -⟩ := exec_advances hS.1 hh.shared ht
  exact ⟨o, W', hrun⟩

end FtMalloc
