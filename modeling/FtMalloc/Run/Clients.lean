import FtMalloc.Abstract.Private
import FtMalloc.Results.Threads

/-!
# Client programs among the threads of the bonus allocator

A thread now runs a program (`Client`), which calls the allocator and reads its own memory; the
atomic steps of its calls are those of `ThreadStep`. What it has been given is its view of the
heap (`view`): the steps of the others leave it alone, and a call of its own that returns changes
it as the contract of a private heap says. So a program that is right over a private heap is right
among any number of others, whatever the interleaving.

Results:
* `exec_shows`: what a step of a call does to its thread's view.
* `clients_inv`: in every state reached, each program meets its contract from there.
* `clients_progress`: and it has ended as it should, or can take a step.
-/

namespace FtMalloc

open Lib Dialogue Bonus

variable {P : Nat} {A A' : AHeap} {W W' : BonusWorld} {m m' : Mem} {live : List Alloc} {k k' : Cell}
  {p q s : Nat} {op : Op} {before : Mem} {a : Activity} {o : Next} {x : Alloc}

/-! ## Views -/

/-- An allocation with what is in it. -/
def Alloc.block (m : Mem) (x : Alloc) : Block :=
  ⟨x.ptr, (List.range x.size).map fun j => m (x.ptr + j)⟩

/-- What the owner of the allocations sees: their addresses, sizes and bytes, and nothing else of
the heap. -/
def view (m : Mem) (live : List Alloc) : List Block := live.map (Alloc.block m)

@[simp] theorem Alloc.block_ptr : (x.block m).ptr = x.ptr := rfl

@[simp] theorem Alloc.block_length : (x.block m).bytes.length = x.size := by
  simp [Alloc.block]

@[simp] theorem view_cons : view m (x :: live) = x.block m :: view m live := rfl

theorem Alloc.block_byte {j : Nat} (h : j < x.size) :
    (x.block m).bytes[j]? = some (m (x.ptr + j)) := by
  simp [Alloc.block, h]

theorem Alloc.block_congr (h : ∀ j, j < x.size → m' (x.ptr + j) = m (x.ptr + j)) :
    x.block m' = x.block m :=
  congrArg (Block.mk x.ptr) (List.map_congr_left fun j hj => h j (List.mem_range.mp hj))

theorem view_drop : view m (drop live p) = Block.drop (view m live) p := by
  unfold view drop Block.drop
  rw [List.filter_map]
  rfl

/-- A write to memory writes to the block that has the address, if any, and leaves the others. -/
theorem Alloc.block_put {b : Nat} {c : Byte} :
    x.block (put m b c) = (x.block m).write b c := by
  unfold Block.write
  rw [Alloc.block_ptr]
  split
  case isTrue h =>
    refine congrArg (Block.mk x.ptr) (List.ext_getElem (by simp) fun j h1 h2 => ?_)
    simp only [List.getElem_set, List.getElem_map, List.getElem_range, Alloc.block, put]
    congr 1
    exact propext (by omega)
  case isFalse h => exact Alloc.block_congr fun j _ => put_out (by omega)

theorem view_put {b : Nat} {c : Byte} :
    view (put m b c) live = (view m live).map (Block.write b c) := by
  unfold view
  rw [List.map_map]
  exact List.map_congr_left fun x _ => Alloc.block_put

theorem mem_view {b : Block} : b ∈ view m live ↔ ∃ x ∈ live, x.block m = b := List.mem_map

/-- What a step of others leaves of a view: all of it, if the pointer they disturb is not in it. -/
theorem Undisturbed.view (hu : Undisturbed P p A m A' m') (ho : Owned P A live)
    (hp : ∀ x ∈ live, x.ptr ≠ p) : view m' live = view m live := by
  refine List.map_congr_left fun x hx => Alloc.block_congr fun j hj => ?_
  obtain ⟨k, hk, haddr, hsize⟩ := ho.cell x hx
  rw [← haddr]
  exact (hu.cell hk (haddr ▸ hp x hx)).2.2 j (by omega)

/-- The blocks of an owner are apart, as a private heap says of its blocks. -/
theorem HeapInv.separate (hP : ValidPage P) (hI : HeapInv P A W) (ho : Owned P A live) :
    (view m live).Pairwise Block.Apart := by
  refine List.pairwise_map.mpr ((List.pairwise_map.mp ho.nodup).imp_of_mem fun hx hy hne => ?_)
  have hap := hI.apart hP ho ho hx hy hne
  unfold Alloc.Apart at hap
  unfold Block.Apart
  simp only [Alloc.block_ptr, Alloc.block_length]
  exact ⟨hne, hap⟩

/-- An owned allocation is one a private heap can grant: apart from the blocks that are there, with
any bytes in it. -/
theorem HeapInv.grant (hP : ValidPage P) (hI : HeapInv P A W) (ho : Owned P A (⟨q, s⟩ :: live)) :
    Private.Grant (FtMalloc.view m live) s q (Alloc.block m ⟨q, s⟩).bytes := by
  have hsep := List.pairwise_cons.mp (hI.separate (m := m) hP ho)
  exact ⟨ho.ptr_ne_null hP hI.rep _ List.mem_cons_self, Alloc.block_length,
    fun b hb => symm (hsep.1 b hb)⟩

theorem Owned.tail (ho : Owned P A (x :: live)) : Owned P A live :=
  ⟨fun y hy => ho.cell y (List.mem_cons_of_mem _ hy), (List.nodup_cons.mp ho.nodup).2⟩

theorem Thread.live_owned {t : Thread} (hx : x ∈ t.live) : x ∈ t.owned := by
  unfold Thread.owned
  split
  · exact List.mem_append_right _ hx
  · exact hx

theorem ThreadInv.owned_live {t : Thread} (ht : ThreadInv P A W t) : Owned P A t.live := by
  have ho := ht.owned
  unfold Thread.owned at ho
  split at ho
  · exact ⟨fun x hx => ho.cell x (List.mem_append_right _ hx), by
      have := ho.nodup
      rw [List.map_append] at this
      exact (List.nodup_append.mp this).2.1⟩
  · exact ho

/-! ## The steps of a call -/

/-- What a step of a call does to the view of its thread: nothing until it returns. -/
def Activity.Shows [Platform] (live : List Alloc) (a : Activity) (m : Mem) (m' : Mem) : Next → Prop
  | .go _ => view m' live = view m live
  | .done q => Private.Call (view m live) a.op q (view m' (a.op.after bonus.zeroFrees live q))

theorem Activity.shows_done [Platform] {live' : List Alloc}
    (hafter : a.op.after bonus.zeroFrees live q = live')
    (hcall : Private.Call (view m live) a.op q (view m' live')) : a.Shows live m m' (.done q) := by
  subst hafter
  exact hcall

theorem call_write {b : Nat} {c : Byte} :
    Private.Call (view m live) (.write b c) null (view (put m b c) live) := by
  rw [view_put]
  exact .write

theorem call_refused (hr : op.refused null = true) (hv : view m' live = view m live) :
    Private.Call (view m live) op null (view m' live) := by
  rw [hv]
  exact .refused hr

theorem call_free (hv : view m' (drop live p) = view m (drop live p)) :
    Private.Call (view m live) (.free p) null (view m' (drop live p)) := by
  rw [hv, view_drop]
  exact .free

/-- A request that returned, with a block or with NULL, as a call of the private heap. -/
theorem Op.Mallocs.call [Platform] (hm : op.Mallocs s) (hP : ValidPage P) (hI : HeapInv P A W)
    (hv : view W.world.mem live = view m live)
    (ho : Owned P A (if q = null then live else ⟨q, s⟩ :: live))
    (hnull : ∀ x ∈ live, x.ptr ≠ null) :
    Private.Call (view m live) op q (view W.world.mem (op.after bonus.zeroFrees live q)) := by
  rw [after_mallocs hm hnull]
  by_cases h0 : q = null
  · subst h0
    rw [if_pos rfl, hv]
    refine .refused ?_
    rcases hm.1 with rfl | rfl <;> rfl
  · rw [if_neg h0] at ho ⊢
    have hg := hI.grant (m := W.world.mem) hP ho
    rw [view_cons, hv]
    rw [hv] at hg
    rcases hm.1 with rfl | rfl
    · exact .malloc hg
    · exact .renew hg

/-- A block that was resized, as a call of the private heap: the old block is gone and the new one
begins with its bytes. -/
theorem resize_call (hP : ValidPage P) (hI : HeapInv P A W) (hx : x ∈ live) (hx0 : x.ptr ≠ null)
    (hv : view W.world.mem (drop live x.ptr) = view m (drop live x.ptr))
    (ho : Owned P A (⟨q, s⟩ :: drop live x.ptr))
    (hbytes : ∀ j, j < min x.size s → W.world.mem (q + j) = m (x.ptr + j)) :
    Private.Call (view m live) (.realloc x.ptr s) q
      (view W.world.mem (⟨q, s⟩ :: drop live x.ptr)) := by
  have hg := hI.grant (m := W.world.mem) hP ho
  rw [hv, view_drop] at hg
  rw [view_cons, hv, view_drop]
  refine .resize (b := x.block m) (mem_view.mpr ⟨x, hx, rfl⟩) hx0 hg ?_
  refine List.ext_getElem (by simp [Nat.min_comm]) fun j h1 h2 => ?_
  simp only [List.length_take, Alloc.block_length] at h1 h2
  simp only [List.getElem_take, Alloc.block, List.getElem_map, List.getElem_range]
  exact hbytes j (by omega)

theorem AllocDone.view [Platform] (hs : AllocDone P A W live s q A' W') (hP : ValidPage P)
    (hI : HeapInv P A W) (ho : Owned P A live) :
    FtMalloc.view W'.world.mem live = FtMalloc.view W.world.mem live :=
  hs.undisturbed.view ho (ho.ptr_ne_null hP hI.rep)

theorem StoreDone.shows [Platform] {b : Nat} {c : Byte} (hs : StoreDone P A W live b c W') :
    Activity.Shows live ⟨.write b c, before, .store b c⟩ W.world.mem W'.world.mem (.done null) := by
  refine Activity.shows_done rfl ?_
  rw [hs.mem]
  exact call_write

/-- The setup has failed: the request is refused, and the program's blocks are as they were. -/
theorem SetupDone.shows [Platform] {e : Int} (hs : SetupDone P A W e A' W') (hP : ValidPage P)
    (hI : HeapInv P A W) (ho : Owned P A live) (hm : op.Mallocs s) :
    Activity.Shows live ⟨op, before, .setup s⟩ W.world.mem W'.world.mem (.done null) := by
  have hnull := ho.ptr_ne_null hP hI.rep
  refine hm.call hP hs.heap (hs.undisturbed.view ho hnull) ?_ hnull
  rw [if_pos rfl]
  exact hs.owned hI ho

theorem FreeDone.shows [Platform] (hs : FreeDone P A W k A' W') (ho : Owned P A live) :
    Activity.Shows live ⟨.free (k.addr P), before, .freeBlock (k.addr P) k.type⟩ W.world.mem
      W'.world.mem (.done null) := by
  have hdrop : Owned P A (drop live (k.addr P)) := ho.release fun _ hk' => ⟨hk', rfl⟩
  exact call_free (hs.undisturbed.view hdrop fun x hx => (mem_drop.mp hx).2)

/-- A block that is resized where it is, with the bytes it has. -/
theorem fits_shows [Platform] (hP : ValidPage P) (hI : HeapInv P A W) (ho : Owned P A live)
    (hr : Resizing P A W.world.mem live k s before) (hfit : s ≤ A.cap k) :
    Activity.Shows live ⟨.realloc (k.addr P) s, before, .header (k.addr P) s⟩ W.world.mem
      W.world.mem (.done (k.addr P)) := by
  obtain ⟨x, hx, hxk⟩ := hr.mine
  have h0 := ho.ptr_ne_null hP hI.rep x hx
  have hdrop : Owned P A (drop live (k.addr P)) := ho.release fun _ hk' => ⟨hk', rfl⟩
  have ho' := hdrop.add hr.held hfit fun x hx => (mem_drop.mp hx).2
  rw [← hxk] at ho'
  have hcall := resize_call hP hI hx h0 rfl ho' fun _ _ => rfl
  rw [hxk] at hcall
  have hafter : (Op.realloc (k.addr P) s).after bonus.zeroFrees live (k.addr P) =
      ⟨k.addr P, s⟩ :: drop live (k.addr P) :=
    (after_realloc hr.range.1).trans (if_neg (hxk ▸ h0))
  exact Activity.shows_done hafter hcall

theorem CopyDone.view (hs : CopyDone P A W k k' W') (ho : Owned P A (⟨k'.addr P, s⟩ :: live)) :
    FtMalloc.view W'.world.mem live = FtMalloc.view W.world.mem live :=
  hs.undisturbed.view (Owned.tail ho) fun x hx he =>
    (List.nodup_cons.mp ho.nodup).1 (List.mem_map.mpr ⟨x, hx, he⟩)

/-- A block that has moved: what is returned has the bytes that the block had when the call
began. -/
theorem FreeDone.shows_moved [Platform] (hs : FreeDone P A W k A' W') (hP : ValidPage P)
    (hI : HeapInv P A W) (ho : Owned P A (⟨k'.addr P, s⟩ :: live))
    (hv : Moving P A W.world.mem live k k' s before)
    (hbytes : ∀ j, j < A.cap k → W.world.mem (k'.addr P + j) = before (k.addr P + j)) :
    Activity.Shows live ⟨.realloc (k.addr P) s, before, .release (k.addr P) s k.type (k'.addr P)⟩
      W.world.mem W'.world.mem (.done (k'.addr P)) := by
  obtain ⟨x, hx, hxk⟩ := hv.mine
  have hx0 := ho.ptr_ne_null hP hI.rep x (List.mem_cons_of_mem _ hx)
  have hne : k'.addr P ≠ k.addr P := fun e => hv.ne (hI.sound.addr_inj hP hv.target hv.held e)
  have h0 := hI.rep.addr_ne_zero hP (hI.rep.wf.hasCell hv.target)
  have hafter : (Op.realloc (k.addr P) s).after bonus.zeroFrees live (k'.addr P) =
      ⟨k'.addr P, s⟩ :: drop live (k.addr P) :=
    (after_realloc hv.range.1).trans (if_neg h0)
  obtain ⟨k₁, hk₁, haddr, hsize⟩ := ho.cell x (List.mem_cons_of_mem _ hx)
  obtain rfl : k₁ = k := hI.sound.addr_inj hP hk₁ hv.held (haddr.trans hxk)
  have ho' : Owned P A' (⟨k'.addr P, s⟩ :: drop live x.ptr) := by
    rw [hxk, ← drop_cons_of_ne hne]
    exact ho.release hs.keeps
  have hlive : Owned P A (drop live x.ptr) :=
    hxk ▸ (Owned.tail ho).release fun _ hk' => ⟨hk', rfl⟩
  have hview := hs.undisturbed.view hlive fun y hy => hxk ▸ (mem_drop.mp hy).2
  have hsame : ∀ j, j < min x.size s → W'.world.mem (k'.addr P + j) = W.world.mem (x.ptr + j) := by
    intro j hj
    have hgrows := hv.grows
    have hfits := hv.fits
    have hmoved := (hs.undisturbed.cell hv.target hne).2.2 j (by omega)
    rw [hxk]
    exact (hmoved.trans (hbytes j (by omega))).trans (hv.bytes j (by omega)).symm
  have hcall := resize_call hP hs.heap hx hx0 hview ho' hsame
  rw [hxk] at hcall
  exact Activity.shows_done hafter hcall

/-- **What a step of a call shows its thread**: nothing while the call goes on, and a call of the
private heap when it returns. -/
theorem exec_shows [Platform]
    (hP : ValidPage P) (hI : HeapInv P A W) (ht : ThreadInv P A W ⟨live, some a⟩)
    (hrun : a.pc.exec W = some (o, W')) : a.Shows live W.world.mem W'.world.mem o := by
  have ho : Owned P A (a.pc.pending ++ live) := ht.owned
  obtain ⟨A', hd⟩ := exec_did hP hI ht hrun
  cases hd with
  | store _ hs => exact hs.shows
  | check | freeHeader | header => rfl
  | setup _ hs => exact hs.undisturbed.view ho (ho.ptr_ne_null hP hI.rep)
  | setupFailed hm hs => exact hs.shows hP hI ho hm
  | alloc hm _ hs =>
    exact hm.call hP hs.heap (hs.view hP hI ho) hs.owned (ho.ptr_ne_null hP hI.rep)
  | skip => exact call_free rfl
  | freeBlock _ _ hs => exact hs.shows ho
  | fits hr hfit => exact fits_shows hP hI ho hr hfit
  | growFailed hr _ hs =>
    exact Activity.shows_done (after_realloc hr.range.1) (call_refused rfl (hs.view hP hI ho))
  | grow _ _ hs => exact hs.view hP hI ho
  | copy _ hs => exact hs.view ho
  | release hv hbytes hs => exact hs.shows_moved hP hI ho hv hbytes

/-- **The others' views stay as they are**: a step disturbs a pointer of its own thread at most. -/
theorem Advance.view {t t' u : Thread} (hP : ValidPage P) (ha : Advance P A W t A' W' t')
    (hI : HeapInv P A W) (hd : t.Disjoint u) (hu : ThreadInv P A W u) :
    view W'.world.mem u.live = view W.world.mem u.live := by
  obtain ⟨p, hp, hun⟩ := ha.disturbs
  have hsub : ∀ x ∈ u.live, x ∈ u.owned := fun x hx => Thread.live_owned hx
  refine hun.view hu.owned_live fun x hx he => ?_
  rcases hp with rfl | ⟨y, hy, rfl⟩
  · exact hu.owned.ptr_ne_null hP hI.rep x (hsub x hx) he
  · exact hd y hy x (hsub x hx) he.symm

/-! ## Programs -/

/-- A thread with the program it runs: what is left of it, and its calls so far. -/
structure Process (ι α : Type) where
  id : ι
  thread : Thread
  client : Client α
  trace : List (Op × Nat)

variable {ι α : Type} {pr pr' : Process ι α} {i : ι} {tr : List (Op × Nat)}
  {Q : ι → α → Private → Prop} {h h' : Private}

namespace Process

/-- The thread after a step of the call `op`: the program goes on with what the call returned. -/
def resume [Platform] (i : ι) (tr : List (Op × Nat)) (live : List Alloc) (op : Op) (before : Mem)
    (k : Nat → Client α) (o : Next) : Process ι α :=
  match o with
  | .go _ => ⟨i, .settle live op before o, .ask (.op op) k, tr⟩
  | .done q => ⟨i, .settle live op before o, k q, tr ++ [(op, q)]⟩

variable {before : Mem} {k : Nat → Client α}

@[simp] theorem resume_id [Platform] : (resume i tr live op before k o).id = i := by
  cases o <;> rfl

@[simp] theorem resume_thread [Platform] :
    (resume i tr live op before k o).thread = .settle live op before o := by
  cases o <;> rfl

theorem mem_resume_trace [Platform]
    {e : Op × Nat} (he : e ∈ (resume i tr live op before k o).trace) :
    e ∈ tr ∨ ∃ q, o = .done q ∧ e = (op, q) := by
  cases o with
  | go pc => exact Or.inl he
  | done q =>
    rcases List.mem_append.mp he with he | he
    · exact Or.inl he
    · exact Or.inr ⟨q, rfl, List.mem_singleton.mp he⟩

end Process

/-- An atomic step: the program calls, its call takes a step, or it reads a byte. -/
inductive ProcessStep [Platform] : BonusWorld → Process ι α → BonusWorld → Process ι α → Prop
  | call {W : BonusWorld} {i : ι} {tr : List (Op × Nat)} {live : List Alloc} {op : Op}
      {k : Nat → Client α} : ProcessStep W ⟨i, ⟨live, none⟩, .ask (.op op) k, tr⟩ W
        (.resume i tr live op W.world.mem k op.start)
  | exec {W W' : BonusWorld} {i : ι} {tr : List (Op × Nat)} {live : List Alloc} {a : Activity}
      {k : Nat → Client α} {o : Next} : a.pc.exec W = some (o, W') →
      ProcessStep W ⟨i, ⟨live, some a⟩, .ask (.op a.op) k, tr⟩ W'
        (.resume i tr live a.op a.before k o)
  | read {W W' : BonusWorld} {i : ι} {tr : List (Op × Nat)} {live : List Alloc} {b : Nat} {c : Byte}
      {k : Byte → Client α} : lift (loadByte b) W = some (c, W') →
      ProcessStep W ⟨i, ⟨live, none⟩, .ask (.read b) k, tr⟩ W' ⟨i, ⟨live, none⟩, k c, tr⟩

/-- A process stays the one it is, so each is compared with its own specification. -/
theorem ProcessStep.id_eq [Platform] (hs : ProcessStep W pr W' pr') : pr'.id = pr.id := by
  cases hs with
  | call => exact Process.resume_id
  | exec => exact Process.resume_id
  | read => rfl

/-- The process is where its program, over a private heap, would be too: from here the program
meets `Q`, whatever its call returns. -/
def Process.Follows (Q : ι → α → Private → Prop) (m : Mem) (pr : Process ι α) : Prop :=
  ∃ h : Private, h.blocks = view m pr.thread.live ∧ h.trace = pr.trace ∧
    match pr.thread.call with
    | none => pr.client.Meets (Q pr.id) h
    | some a => ∃ k, pr.client = .ask (.op a.op) k ∧
      ∀ q h', Private.Post (.op a.op) h q h' → Client.Meets (k q) (Q pr.id) h'

/-- What a process keeps: its call is in order, and the rest of its program is right from what it
sees. -/
def ProcessInv (P : Nat) (Q : ι → α → Private → Prop) (A : AHeap) (W : BonusWorld)
    (pr : Process ι α) : Prop :=
  ThreadInv P A W pr.thread ∧ pr.Follows Q W.world.mem

/-! ## One step -/

/-- What the contract allows is a call of the allocator's rules: pointers of its own, sizes from 1
to `PTRDIFF_MAX`. -/
theorem Private.Pre.valid (hpre : Private.Pre (.op op) h) (hv : h.blocks = view m live) :
    op.Valid live ∧ op.InRange := by
  have hlive : ∀ {p}, (∃ b ∈ h.blocks, b.ptr = p) → ∃ x ∈ live, x.ptr = p := by
    rintro p ⟨b, hb, rfl⟩
    obtain ⟨x, hx, rfl⟩ := mem_view.mp (hv ▸ hb)
    exact ⟨x, hx, rfl⟩
  cases op with
  | malloc s => exact ⟨lt_of_le_ptrdiffMax hpre.2, hpre⟩
  | free p => exact ⟨hpre.imp_right hlive, trivial⟩
  | realloc p s => exact ⟨⟨lt_of_le_ptrdiffMax hpre.2.2, hpre.1.imp_right hlive⟩, hpre.2⟩
  | write a c =>
    obtain ⟨b, hb, h1, h2⟩ := hpre
    obtain ⟨x, hx, rfl⟩ := mem_view.mp (hv ▸ hb)
    rw [Alloc.block_length] at h2
    exact ⟨⟨x, hx, h1, h2⟩, trivial⟩

/-- After a return, the program goes on from a private heap that is what it sees. -/
theorem Process.follows_done {k : Nat → Client α} (hP : ValidPage P) (hI : HeapInv P A W)
    (ho : Owned P A live) (htr : h.trace = tr)
    (hcall : Private.Call h.blocks op q (view W.world.mem live))
    (hk : ∀ q h', Private.Post (.op op) h q h' → Client.Meets (k q) (Q i) h') :
    Process.Follows Q W.world.mem ⟨i, ⟨live, none⟩, k q, tr ++ [(op, q)]⟩ := by
  refine ⟨⟨view W.world.mem live, tr ++ [(op, q)], hI.separate hP ho⟩, rfl, rfl, ?_⟩
  exact hk q _ (.op hcall (by rw [htr]))

/-- A read of a byte of the client's, which is in a block of its view. -/
theorem readBlock_run {b : Nat} (hP : ValidPage P) (hI : HeapInv P A W) (ho : Owned P A live)
    (hv : h.blocks = view W.world.mem live) (hpre : Private.Pre (.read b) h) :
    ∃ x ∈ live, x.ptr ≤ b ∧ b < x.ptr + x.size ∧
      lift (loadByte b) W = some (W.world.mem b, W) := by
  obtain ⟨bl, hbl, h1, h2⟩ := hpre
  obtain ⟨x, hx, rfl⟩ := mem_view.mp (hv ▸ hbl)
  simp only [Alloc.block_ptr, Alloc.block_length] at h1 h2
  obtain ⟨k, hk, haddr, hsize⟩ := ho.cell x hx
  have hm : W.world.os.Mapped b 1 := by
    have := hI.rep.payload_mapped hP (hI.rep.wf.hasCell hk) (i := b - k.addr P) (by omega)
    rwa [show k.addr P + (b - k.addr P) = b by omega] at this
  exact ⟨x, hx, h1, h2, lift_of (loadByte_of hm)⟩

/-- **One step of a process**: its thread advances, and its program is still right. -/
theorem ProcessStep.advance [Platform]
    (hP : ValidPage P) (hI : HeapInv P A W) (hp : ProcessInv P Q A W pr)
    (hs : ProcessStep W pr W' pr') :
    ∃ A', Advance P A W pr.thread A' W' pr'.thread ∧ pr'.Follows Q W'.world.mem := by
  obtain ⟨ht, h, hv, htr, hf⟩ := hp
  cases hs with
  | @call i tr live op k =>
    obtain ⟨hpre, hpost⟩ := hf
    obtain ⟨hvalid, hrange⟩ := hpre.valid hv
    have hadv := start_advances hP hI ht.owned hvalid hrange.inBounds
    refine ⟨A, ?_⟩
    generalize hstart : op.start = o at hadv ⊢
    cases o with
    | go pc => exact ⟨hadv, h, hv, htr, k, rfl, hpost⟩
    | done q =>
      obtain ⟨rfl, rfl⟩ := start_done hrange.inBounds hstart
      exact ⟨hadv, Process.follows_done hP hI hadv.own.owned htr (hv ▸ call_free rfl) hpost⟩
  | @exec _ i tr live a k o hrun =>
    obtain ⟨k', hk', hf⟩ := hf
    cases hk'
    obtain ⟨o', W₁, A', hrun', hadv, -⟩ := exec_advances hP hI ht
    obtain ⟨rfl, rfl⟩ := Prod.mk.inj (Option.some.inj (hrun.symm.trans hrun'))
    have hshow := exec_shows hP hI ht hrun
    refine ⟨A', ?_⟩
    cases o with
    | go pc => exact ⟨hadv, h, hv.trans hshow.symm, htr, k, rfl, hf⟩
    | done q =>
      exact ⟨hadv, Process.follows_done hP hadv.heap hadv.own.owned htr (hv ▸ hshow) hf⟩
  | @read _ i tr live b c k hrun =>
    obtain ⟨hpre, hpost⟩ := hf
    obtain ⟨x, hx, h1, h2, hfetch⟩ := readBlock_run hP hI ht.owned hv hpre
    obtain ⟨rfl, rfl⟩ := Prod.mk.inj (Option.some.inj (hrun.symm.trans hfetch))
    refine ⟨A, Advance.still hI ht fun x hx => ⟨x, hx, rfl⟩, h, hv, htr, hpost _ h ?_⟩
    refine .read (hv ▸ mem_view.mpr ⟨x, hx, rfl⟩) h1 ?_
    rw [Alloc.block_ptr, Alloc.block_byte (by omega), Nat.add_sub_cancel' h1]

/-- **Every step of every process keeps the invariant**, those of the others included: the premise
of `Keeps.reach`. -/
theorem processes_keep [Platform] (hP : ValidPage P) :
    Sys.Keeps ProcessStep (HeapInv P) (ProcessInv P Q) fun t u => t.thread.Disjoint u.thread where
  symm := fun hd x hx y hy he => hd y hy x hx he.symm
  step := by
    intro A W pr W' pr' hI hp hs
    obtain ⟨A', hadv, hf⟩ := hs.advance hP hI hp
    refine ⟨A', hadv.heap, ⟨hadv.own, hf⟩, fun u hd hu => ?_⟩
    obtain ⟨hu, h, hv, htr, hf⟩ := hu
    obtain ⟨hu', hd'⟩ := hadv.others hP hI hd hu
    exact ⟨⟨hu', h, hv.trans (hadv.view hP hI hd hu).symm, htr, hf⟩, hd'⟩

/-- The programs before their first steps, on a heap that is not set up. -/
def Programs.init (P : Nat) (m : Mem) (answers : List (Option Nat)) (programs : ι → Client α) :
    Sys ι BonusWorld (Process ι α) :=
  ⟨BonusWorld.init P m answers, fun i => ⟨i, ⟨[], none⟩, programs i, []⟩⟩

/-- A state that some interleaving of the programs reaches, one atomic step at a time. -/
def Programs.Reachable [Platform] [DecidableEq ι] (P : Nat) (programs : ι → Client α)
    (S : Sys ι BonusWorld (Process ι α)) : Prop :=
  ValidPage P ∧ ∃ m answers, Sys.Reach ProcessStep (Programs.init P m answers programs) S

variable [DecidableEq ι] {programs : ι → Client α} {S : Sys ι BonusWorld (Process ι α)}

theorem Programs.id_eq [Platform]
    (hS : Programs.Reachable P programs S) (i : ι) : (S.thread i).id = i := by
  obtain ⟨-, m, answers, hreach⟩ := hS
  induction hreach with
  | refl => rfl
  | tail _ hs ih =>
    obtain ⟨j, hn⟩ := hs
    by_cases hij : i = j
    · subst hij
      rw [Sys.set_thread]
      exact hn.id_eq.trans ih
    · rwa [Sys.set_thread_ne hij]

/-- **Programs that are right over a private heap**: each still is, in every state reached. -/
theorem programs_inv [Platform] (hS : Programs.Reachable P programs S)
    (hm : ∀ i, (programs i).Meets (Q i) Private.empty) :
    ∃ A, Sys.Holds (HeapInv P) (ProcessInv P Q) (fun t u => t.thread.Disjoint u.thread) A S := by
  obtain ⟨hP, m, answers, hreach⟩ := hS
  have hI : BonusInv P ⟨BonusWorld.init P m answers, []⟩ AHeap.empty := Bonus.init_inv hP
  refine (processes_keep hP).reach (g := AHeap.empty) ⟨⟨hI.inv.rep, hI.inv.ok, hI.free⟩,
    fun i => ⟨ThreadInv.idle hI.inv.owned, Private.empty, rfl, rfl, hm i⟩, fun _ x hx => ?_⟩ hreach
  exact absurd hx List.not_mem_nil

end FtMalloc
