import FtMalloc.Abstract.Calls
import FtMalloc.Run.Threads

/-!
# What the threads of the bonus allocator do to each other

The invariant has three parts. The shared one (`HeapInv`) is that of a sequential run. A thread's
(`ThreadInv`) says that what it owns are held cells and that the local variables of its call are
right (`Standing`). Two threads own different pointers (`Thread.Disjoint`).

A step of a thread leaves every cell but one alone (`Undisturbed`), and that one is its own; what it
gets was nobody's. So it cannot spoil what another thread has read or copied (`Advance.others`).

Results:
* `Standing.undisturbed`: a call stands whatever happens to the pointers of others.
* `setupSection_done`, `allocSection_done`, `freeSection_done`: the sections under a mutex.
* `Advance.others`: a step that is an `Advance` keeps the invariant of every other thread.
-/

namespace FtMalloc

open Lib Bonus

variable {P : Nat} {A A' : AHeap} {W W' : BonusWorld} {m m' : Mem} {live : List Alloc} {k k' : Cell}
  {p q s : Nat} {op : Op} {before : Mem} {a : Activity} {t t' u : Thread} {x : Alloc}

/-! ## The invariant -/

/-- The shared state represents `A`, and every mutex is free: between two atomic steps no section is
under way. -/
structure HeapInv (P : Nat) (A : AHeap) (W : BonusWorld) : Prop where
  rep : Rep P W.world A
  ok : A.Ok P
  free : W.held = unlocked

/-- The call asks `malloc` for `s` bytes, by its own name or as `realloc(NULL, s)`
(`malloc_bonus.c:325-328`). -/
def Op.Mallocs (op : Op) (s : Nat) : Prop :=
  (op = .malloc s ∨ op = .realloc null s) ∧ 1 ≤ s ∧ s ≤ ptrdiffMax

theorem Op.Mallocs.lt {op : Op} {s : Nat} (hm : op.Mallocs s) : 48 + s < 2 ^ 64 :=
  length_lt_of_le_ptrdiffMax hm.2.2

/-- One of the live allocations is the cell's, so no other thread may release it. -/
def Cell.OwnedIn (P : Nat) (live : List Alloc) (k : Cell) : Prop := ∃ x ∈ live, x.ptr = k.addr P

/-- The call resizes the cell `k`, whose bytes are those it had when the call began. -/
structure Resizing (P : Nat) (A : AHeap) (m : Mem) (live : List Alloc) (k : Cell) (s : Nat)
    (before : Mem) : Prop where
  held : A.Holds k
  mine : k.OwnedIn P live
  range : 1 ≤ s ∧ 48 + s < 2 ^ 64
  bytes : ∀ j, j < A.cap k → m (k.addr P + j) = before (k.addr P + j)

/-- The bytes of `k` go to the larger cell `k'`, which the thread holds and nobody else knows of. -/
structure Moving (P : Nat) (A : AHeap) (m : Mem) (live : List Alloc) (k k' : Cell) (s : Nat)
    (before : Mem) : Prop extends Resizing P A m live k s before where
  grows : A.cap k < s
  target : A.Holds k'
  ne : k' ≠ k
  fits : s ≤ A.cap k'

/-- **The local variables of a call are right**: what it has read without a lock is still so, since
only its own thread could change it. -/
inductive Standing (P : Nat) (A : AHeap) (m : Mem) (live : List Alloc) : Activity → Prop
  | store {a : Nat} {b : Byte} {before : Mem} : (Op.write a b).Valid live →
      Standing P A m live ⟨.write a b, before, .store a b⟩
  | check {op : Op} {s : Nat} {before : Mem} : op.Mallocs s →
      Standing P A m live ⟨op, before, .check s⟩
  | setup {op : Op} {s : Nat} {before : Mem} : op.Mallocs s →
      Standing P A m live ⟨op, before, .setup s⟩
  | alloc {op : Op} {s : Nat} {before : Mem} : op.Mallocs s → A.initialized = true →
      Standing P A m live ⟨op, before, .alloc s⟩
  | freeHeader {k : Cell} {before : Mem} : A.Holds k → k.OwnedIn P live →
      Standing P A m live ⟨.free (k.addr P), before, .freeHeader (k.addr P)⟩
  | freeBlock {k : Cell} {before : Mem} : A.Holds k → k.OwnedIn P live →
      Standing P A m live ⟨.free (k.addr P), before, .freeBlock (k.addr P) k.type⟩
  | header {k : Cell} {s : Nat} {before : Mem} : Resizing P A m live k s before →
      Standing P A m live ⟨.realloc (k.addr P) s, before, .header (k.addr P) s⟩
  | grow {k : Cell} {s : Nat} {before : Mem} : Resizing P A m live k s before → A.cap k < s →
      Standing P A m live
        ⟨.realloc (k.addr P) s, before, .grow (k.addr P) s k.type (A.cap k)⟩
  | copy {k k' : Cell} {s : Nat} {before : Mem} : Moving P A m live k k' s before →
      Standing P A m live
        ⟨.realloc (k.addr P) s, before, .copy (k.addr P) s k.type (A.cap k) (k'.addr P)⟩
  | release {k k' : Cell} {s : Nat} {before : Mem} : Moving P A m live k k' s before →
      (∀ j, j < A.cap k → m (k'.addr P + j) = before (k.addr P + j)) → Standing P A m live
        ⟨.realloc (k.addr P) s, before, .release (k.addr P) s k.type (k'.addr P)⟩

/-- What a thread keeps: it owns held cells with room for what was requested, and the local
variables of its call are right. -/
structure ThreadInv (P : Nat) (A : AHeap) (W : BonusWorld) (t : Thread) : Prop where
  owned : Owned P A t.owned
  call : ∀ a, t.call = some a → Standing P A W.world.mem t.live a

/-- No pointer is owned by both, pending blocks included. -/
def Thread.Disjoint (t u : Thread) : Prop := ∀ x ∈ t.owned, ∀ y ∈ u.owned, x.ptr ≠ y.ptr

/-! ## Interference -/

/-- Every held cell but the one of `p` stays held, with its room and its bytes: all that a thread
may rely on when another one takes a step. -/
structure Undisturbed (P p : Nat) (A : AHeap) (m : Mem) (A' : AHeap) (m' : Mem) : Prop where
  initialized : A.initialized = true → A'.initialized = true
  cell : ∀ {k}, A.Holds k → k.addr P ≠ p → A'.Holds k ∧ A'.cap k = A.cap k ∧
    ∀ j, j < A.cap k → m' (k.addr P + j) = m (k.addr P + j)

theorem Undisturbed.refl (P p : Nat) (A : AHeap) (m : Mem) : Undisturbed P p A m A m :=
  ⟨id, fun hk _ => ⟨hk, rfl, fun _ _ => rfl⟩⟩

theorem Resizing.undisturbed (hr : Resizing P A m live k s before)
    (hu : Undisturbed P p A m A' m') (hp : ∀ x ∈ live, x.ptr ≠ p) :
    Resizing P A' m' live k s before ∧ A'.cap k = A.cap k := by
  obtain ⟨x, hx, hxk⟩ := hr.mine
  obtain ⟨hheld, hcap, hbytes⟩ := hu.cell hr.held (hxk ▸ hp x hx)
  refine ⟨⟨hheld, ⟨x, hx, hxk⟩, hr.range, fun j hj => ?_⟩, hcap⟩
  rw [hcap] at hj
  exact (hbytes j hj).trans (hr.bytes j hj)

theorem Moving.undisturbed (hv : Moving P A m live k k' s before)
    (hu : Undisturbed P p A m A' m') (hp : ∀ x ∈ live, x.ptr ≠ p) (hp' : k'.addr P ≠ p) :
    Moving P A' m' live k k' s before ∧ A'.cap k = A.cap k := by
  obtain ⟨hr, hcap⟩ := hv.toResizing.undisturbed hu hp
  obtain ⟨htarget, hcap', -⟩ := hu.cell hv.target hp'
  exact ⟨⟨hr, hcap ▸ hv.grows, htarget, hv.ne, hcap' ▸ hv.fits⟩, hcap⟩

/-- **A call stands whatever happens to the pointers of others**: what it has read and copied so far
is about cells of its own. -/
theorem Standing.undisturbed (hs : Standing P A m live a) (hu : Undisturbed P p A m A' m')
    (hp : ∀ x ∈ a.pc.pending ++ live, x.ptr ≠ p) : Standing P A' m' live a := by
  have hlive : ∀ x ∈ live, x.ptr ≠ p := fun x hx => hp x (List.mem_append_right _ hx)
  have hheld : ∀ {k : Cell}, A.Holds k → k.OwnedIn P live → A'.Holds k := by
    rintro k hk ⟨x, hx, hxk⟩
    exact (hu.cell hk (hxk ▸ hlive x hx)).1
  cases hs with
  | store hv => exact .store hv
  | check hreq => exact .check hreq
  | setup hreq => exact .setup hreq
  | alloc hreq hi => exact .alloc hreq (hu.initialized hi)
  | freeHeader hk hm => exact .freeHeader (hheld hk hm) hm
  | freeBlock hk hm => exact .freeBlock (hheld hk hm) hm
  | header hr => exact .header (hr.undisturbed hu hlive).1
  | grow hr hlt =>
    obtain ⟨hr', hcap⟩ := hr.undisturbed hu hlive
    rw [← hcap] at hlt ⊢
    exact .grow hr' hlt
  | copy hv =>
    obtain ⟨hv', hcap⟩ := hv.undisturbed hu hlive (hp _ List.mem_cons_self)
    rw [← hcap]
    exact .copy hv'
  | release hv hbytes =>
    have hnew := hp _ List.mem_cons_self
    obtain ⟨hv', hcap⟩ := hv.undisturbed hu hlive hnew
    refine .release hv' fun j hj => ?_
    rw [hcap] at hj
    have hlt : j < A.cap _ := Nat.lt_of_lt_of_le (Nat.lt_trans hj hv.grows) hv.fits
    exact ((hu.cell hv.target hnew).2.2 j hlt).trans (hbytes j hj)

/-! ## The sections -/

theorem HeapInv.sound (hI : HeapInv P A W) : A.Sound P W.world.os := ⟨hI.ok, hI.rep.backed⟩

/-- An allocation disturbs nobody, a refused one included. -/
theorem AHeap.Grows.undisturbed (hg : AHeap.Grows P A A') (hw : A.Wf P)
    (hag : Agrees m m' (A.Payload P)) (hi : A.initialized = true → A'.initialized = true) :
    Undisturbed P null A m A' m' := by
  refine ⟨hi, fun {k} hk _ => ⟨hg.held hk, hg.cap (hw.hasCell hk), fun j hj => hag _ ?_⟩⟩
  exact ⟨k, hw.hasCell hk, by omega, by omega⟩

/-- What the section of the setup has done (`malloc_bonus.c:228-236`). -/
structure SetupDone (P : Nat) (A : AHeap) (W : BonusWorld) (e : Int) (A' : AHeap)
    (W' : BonusWorld) : Prop where
  call : ensureSetup W.world = some (e, W'.world)
  effect : (A.ready P W.world.os).2 = (A', W'.world.os)
  heap : HeapInv P A' W'
  grows : AHeap.Grows P A A'
  undisturbed : Undisturbed P null A W.world.mem A' W'.world.mem
  ready : e = 0 → A'.initialized = true

theorem setupSection_done (hP : ValidPage P) (hI : HeapInv P A W) :
    ∃ e A' W', setupSection W = some (e, W') ∧ SetupDone P A W e A' W' := by
  obtain ⟨w', hrun, hos, hr, hag⟩ := ensureSetup_run hP hI.rep
  obtain ⟨hs, hg⟩ := AHeap.ready_sound hP hI.sound
  have hi : A.initialized = true → (A.ready P W.world.os).2.1.initialized = true := by
    intro hi
    rw [AHeap.ready, if_pos hi]
    exact hi
  refine ⟨_, _, _, setupSection_run hI.free hrun, hrun, Prod.ext rfl hos.symm,
    ⟨hr, hs.ok, hI.free⟩, hg, hg.undisturbed hI.ok.toWf hag hi,
    fun he => AHeap.ready_initialized ?_⟩
  by_contra hn
  rw [if_neg hn] at he
  cases he

/-- What the section of an allocation has done (`malloc_bonus.c:240-242`, `:352-354`): what it
returns was nobody's. -/
structure AllocDone [Platform] (P : Nat) (A : AHeap) (W : BonusWorld) (live : List Alloc)
    (s q : Nat) (A' : AHeap) (W' : BonusWorld) : Prop where
  call : Bonus.allocBlock s W.world = some (q, W'.world)
  effect : A.alloc P W.world.os s = (q, A', W'.world.os)
  heap : HeapInv P A' W'
  undisturbed : Undisturbed P null A W.world.mem A' W'.world.mem
  owned : Owned P A' (if q = null then live else ⟨q, s⟩ :: live)
  new : q = null ∨ ∃ k, k.addr P = q ∧ A'.Holds k ∧ s ≤ A'.cap k ∧
    ∀ k₀, A.Holds k₀ → k₀.addr P ≠ q

theorem allocSection_done [Platform] (hP : ValidPage P) (hI : HeapInv P A W) (ho : Owned P A live)
    (hi : A.initialized = true) (hwrap : 48 + s < 2 ^ 64) :
    ∃ q A' W', allocSection s W = some (q, W') ∧ AllocDone P A W live s q A' W' := by
  obtain ⟨w', hrun, hos, hr, hag⟩ := Bonus.allocBlock_run hP hI.rep hI.ok (Or.inl hwrap)
  have hv := AHeap.alloc_serves hP hI.sound hi (Or.inl hwrap)
  have hflag : A.initialized = true → (A.alloc P W.world.os s).2.1.initialized = true := by
    rw [AHeap.alloc_initialized]
    exact id
  generalize heffect : A.alloc P W.world.os s = r at *
  refine ⟨r.1, r.2.1, _, allocSection_run hI.free hrun, hrun,
    heffect.trans (Prod.ext rfl (Prod.ext rfl hos.symm)), ⟨hr, hv.sound.ok, hI.free⟩,
    hv.grows.undisturbed hI.ok.toWf hag hflag, ho.serve hP hI.ok.toWf hv, ?_⟩
  rcases hv.result with h0 | ⟨k, haddr, hnew, hheld, hsize⟩
  · exact Or.inl h0
  · refine Or.inr ⟨k, haddr, hheld, hsize, fun k₀ hk₀ he => hnew ?_⟩
    rwa [← hv.sound.addr_inj hP (hv.grows.held hk₀) hheld (he.trans haddr.symm)]

/-- What the section of a release has done (`malloc_bonus.c:312-314`, `:361-363`): it disturbs the
cell it releases. -/
structure FreeDone [Platform] (P : Nat) (A : AHeap) (W : BonusWorld) (k : Cell) (A' : AHeap)
    (W' : BonusWorld) : Prop where
  call : freePtr (k.addr P) W.world = some ((), W'.world)
  effect : A.free P W.world.os k = (A', W'.world.os)
  heap : HeapInv P A' W'
  keeps : AHeap.KeepsBut k A A'
  undisturbed : Undisturbed P (k.addr P) A W.world.mem A' W'.world.mem

theorem freeSection_done [Platform]
    (hP : ValidPage P) (hI : HeapInv P A W) (hk : A.Holds k) (type : Int) :
    ∃ A' W', freeSection type (k.addr P) W = some ((), W') ∧ FreeDone P A W k A' W' := by
  obtain ⟨w', hrun, hos, hr, hag⟩ := freePtr_run hP hI.rep hI.ok hk
  obtain ⟨hs, hkeep⟩ := AHeap.free_releases hP hI.sound hk
  refine ⟨_, _, freeSection_run hI.free hrun, hrun, Prod.ext rfl hos.symm,
    ⟨hr, hs.ok, hI.free⟩, hkeep, ?_, ?_⟩
  · rw [AHeap.free_initialized]
    exact id
  · intro k₀ hk₀ hne
    obtain ⟨hheld, hcap⟩ := hkeep (fun e => hne (e ▸ rfl)) hk₀
    refine ⟨hheld, hcap, fun j hj => hag _ ⟨k₀, hI.rep.wf.hasCell hk₀, by omega, by omega⟩⟩

/-- Writing to the payload of a held cell disturbs that cell and no other. -/
theorem Undisturbed.payload (hP : ValidPage P) (hI : HeapInv P A W) (hk : A.Holds k)
    (hag : Agrees W.world.mem m' fun a => a < k.addr P ∨ k.addr P + A.cap k ≤ a) :
    Undisturbed P (k.addr P) A W.world.mem A m' := by
  refine ⟨id, fun {k₀} hk₀ hne => ⟨hk₀, rfl, fun j hj => hag _ ?_⟩⟩
  have hw := hI.rep.wf
  have hap := hI.rep.backed.cells_apart hP hw (hw.hasCell hk₀) (hw.hasCell hk)
    fun e => hne (congrArg (Cell.addr P) e)
  omega

/-- The header reads of `free` (`malloc_bonus.c:300-311`): low addresses are left alone, and the
type is one of the three. -/
theorem readFree_run (hP : ValidPage P) (hI : HeapInv P A W) (hk : A.Holds k) :
    readFree (k.addr P) W.world = some (if k.word < 0x100000000 then .done null
      else .go (.freeBlock (k.addr P) k.type), W.world) := by
  have hcell := hI.rep.wf.hasCell hk
  obtain ⟨-, hm, hword⟩ := hI.rep.header hP hcell
  refine Prog.bind_to (load_to hm hword) ?_
  by_cases hlow : k.word < 0x100000000
  · rw [if_pos hlow, if_pos hlow]
    rfl
  · rw [if_neg hlow, if_neg hlow]
    refine Prog.bind_to (headerType_run hP hI.rep hcell) ?_
    rw [if_neg (type_known k)]
    rfl

/-- The header reads of `realloc` (`malloc_bonus.c:334-349`): in place, or on to the section of an
allocation. -/
theorem readRealloc_run (hP : ValidPage P) (hI : HeapInv P A W) (hk : A.Holds k) :
    readRealloc (k.addr P) s W.world = some (if s ≤ A.cap k then .done (k.addr P)
      else .go (.grow (k.addr P) s k.type (A.cap k)), W.world) := by
  have hcell := hI.rep.wf.hasCell hk
  obtain ⟨-, hm, hword⟩ := hI.rep.header hP hcell
  refine Prog.bind_to (load_to hm hword) ?_
  refine Prog.bind_to (headerType_run hP hI.rep hcell) ?_
  exact Prog.bind_to (currentSize_run hP hI.rep hcell) rfl

/-! ## One step -/

/-- **What a step of a thread shows**: the heap and the thread itself are in order, one pointer of
its own is disturbed at most, and what it owns now was its own or nobody's. -/
structure Advance (P : Nat) (A : AHeap) (W : BonusWorld) (t : Thread) (A' : AHeap)
    (W' : BonusWorld) (t' : Thread) : Prop where
  heap : HeapInv P A' W'
  own : ThreadInv P A' W' t'
  disturbs : ∃ p, (p = null ∨ ∃ x ∈ t.owned, x.ptr = p) ∧
    Undisturbed P p A W.world.mem A' W'.world.mem
  fresh : ∀ x ∈ t'.owned, (∃ y ∈ t.owned, y.ptr = x.ptr) ∨ ∀ k, A.Holds k → k.addr P ≠ x.ptr

/-- **The others do not notice**: a step of one thread keeps what holds of every thread that shares
no pointer with it. -/
theorem Advance.others (hP : ValidPage P) (ha : Advance P A W t A' W' t') (hI : HeapInv P A W)
    (hd : t.Disjoint u) (hu : ThreadInv P A W u) : ThreadInv P A' W' u ∧ t'.Disjoint u := by
  obtain ⟨p, hp, hun⟩ := ha.disturbs
  have hne : ∀ x ∈ u.owned, x.ptr ≠ p := by
    intro x hx he
    rcases hp with rfl | ⟨y, hy, rfl⟩
    · exact hu.owned.ptr_ne_null hP hI.rep x hx he
    · exact hd y hy x hx he.symm
  refine ⟨⟨⟨fun x hx => ?_, hu.owned.nodup⟩, fun a hc => ?_⟩, fun x hx y hy he => ?_⟩
  · obtain ⟨k, hk, haddr, hsize⟩ := hu.owned.cell x hx
    obtain ⟨hheld, hcap, -⟩ := hun.cell hk (haddr ▸ hne x hx)
    exact ⟨k, hheld, haddr, hcap ▸ hsize⟩
  · refine (hu.call a hc).undisturbed hun ?_
    rw [← Thread.owned_of_call hc]
    exact hne
  · rcases ha.fresh x hx with ⟨z, hz, hzx⟩ | hnew
    · exact hd z hz y hy (hzx.trans he)
    · obtain ⟨k, hk, haddr, -⟩ := hu.owned.cell y hy
      exact hnew k hk (haddr.trans he.symm)

/-- A step that only reads, or whose section fails, and leaves the heap as it is. -/
theorem Advance.still (hI : HeapInv P A W) (ht : ThreadInv P A W t')
    (hsub : ∀ x ∈ t'.owned, ∃ y ∈ t.owned, y.ptr = x.ptr) : Advance P A W t A W t' :=
  ⟨hI, ht, ⟨null, Or.inl rfl, Undisturbed.refl ..⟩, fun x hx => Or.inl (hsub x hx)⟩

/-- The bytes of the block a `realloc` returns are those the old one had when the call began. -/
def Activity.Kept (P : Nat) (A : AHeap) (a : Activity) (o : Next) (m' : Mem) : Prop :=
  ∀ q p s, o = .done q → q ≠ null → a.op = .realloc p s → p ≠ null →
    ∃ k, A.Holds k ∧ k.addr P = p ∧ ∀ j, j < min (A.cap k) s → m' (q + j) = a.before (p + j)

theorem Activity.Kept.go {pc : Pc} : a.Kept P A (.go pc) m' := fun _ _ _ h => by cases h

theorem Activity.Kept.null : a.Kept P A (.done null) m' := by
  intro q p s h h0
  cases h
  exact absurd rfl h0

theorem Activity.Kept.mallocs {o : Next} (hm : a.op.Mallocs s) : a.Kept P A o m' := by
  rintro q p s' - - hop hp
  rcases hm.1 with h | h
  · rw [hop] at h
    cases h
  · rw [hop] at h
    cases h
    exact absurd rfl hp

/-- What a thread owns after a call of `malloc`, also as `realloc(NULL, s)`. -/
theorem after_mallocs [Platform] (hm : op.Mallocs s) (hnull : ∀ x ∈ live, x.ptr ≠ null) :
    op.after bonus.zeroFrees live q = if q = null then live else ⟨q, s⟩ :: live := by
  obtain ⟨h | h, h1, -⟩ := hm
  · rw [h, Op.after]
  · have h0 : s ≠ 0 := by omega
    rw [h]
    simp only [Op.after, drop_of_not_mem hnull, h0, and_false, if_false, ite_not]

/-- What a thread owns after a `realloc` of one byte or more: the old block until a new one is
returned. -/
theorem after_realloc [Platform] (hs : 1 ≤ s) : (Op.realloc p s).after bonus.zeroFrees live q =
    if q = null then live else ⟨q, s⟩ :: drop live p := by
  have h0 : s ≠ 0 := by omega
  simp only [Op.after, h0, and_false, if_false, ite_not]

end FtMalloc
