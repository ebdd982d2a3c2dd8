import FtMalloc.Abstract.Turns
import FtMalloc.Run.Interference

/-!
# What each step of a call does (`bonus/src/malloc_bonus.c:221-365`)

`Activity.Did` says, once, what the next step of a call can do from a state that the other threads
may have left, by the place of the call and by where the step goes on: the section that has run
(`SetupDone`, `AllocDone`, `FreeDone`), the write of the client, the copy of `realloc`, or nothing.
Whatever is to be shown of the steps is shown by cases of it.

Results:
* `exec_does`: the next step of a call runs, and does one of these things.
* `Activity.Did.turn`: each of them is a section or leaves the abstract heap as it is.
-/

namespace FtMalloc

open Lib Bonus

variable {P : Nat} {A A' : AHeap} {W W' : BonusWorld} {live : List Alloc} {k k' : Cell}
  {q s b : Nat} {c : Byte} {op : Op} {before : Mem} {a : Activity} {o o' : Next}

/-! ## Writes -/

/-- What a write of the client has done: it disturbs the allocation written to. -/
structure StoreDone (P : Nat) (A : AHeap) (W : BonusWorld) (live : List Alloc) (b : Nat) (c : Byte)
    (W' : BonusWorld) : Prop where
  call : storeByte b c W.world = some ((), W'.world)
  heap : HeapInv P A W'
  os : W'.world.os = W.world.os
  mem : W'.world.mem = put W.world.mem b c
  disturbs : ∃ p, (∃ x ∈ live, x.ptr = p) ∧ Undisturbed P p A W.world.mem A W'.world.mem

/-- What the copy of `realloc` has done (`malloc_bonus.c:359`): it disturbs the cell copied to. -/
structure CopyDone (P : Nat) (A : AHeap) (W : BonusWorld) (k k' : Cell) (W' : BonusWorld) :
    Prop where
  call : ftMemcpy (k'.addr P) (k.addr P) (A.cap k) W.world = some ((), W'.world)
  heap : HeapInv P A W'
  os : W'.world.os = W.world.os
  copied : ∀ j, j < A.cap k → W'.world.mem (k'.addr P + j) = W.world.mem (k.addr P + j)
  undisturbed : Undisturbed P (k'.addr P) A W.world.mem A W'.world.mem

theorem store_done (hP : ValidPage P) (hI : HeapInv P A W) (ho : Owned P A live)
    (hv : (Op.write b c).Valid live) :
    ∃ W', lift (storeByte b c) W = some ((), W') ∧ StoreDone P A W live b c W' := by
  obtain ⟨k, hk, hm, h1, h2, hrun, hr⟩ := write_call hP hI.rep ho hv
  have hag : Agrees W.world.mem (put W.world.mem b c)
      fun x => x < k.addr P ∨ k.addr P + A.cap k ≤ x := fun x hx => put_out (by omega)
  exact ⟨_, lift_of hrun, hrun, ⟨hr, hI.ok, hI.free⟩, rfl, rfl, _, hm,
    Undisturbed.payload hP hI hk hag⟩

theorem copy_done (hP : ValidPage P) (hI : HeapInv P A W)
    (hv : Moving P A W.world.mem live k k' s before) :
    ∃ W', lift (ftMemcpy (k'.addr P) (k.addr P) (A.cap k)) W = some ((), W') ∧
      CopyDone P A W k k' W' := by
  have hw := hI.rep.wf
  have hgrows := hv.grows
  have hfits := hv.fits
  obtain ⟨hcopy, hr, hbytes, hag⟩ := copy_run (n := A.cap k) hP hI.rep (hw.hasCell hv.held)
    (hw.hasCell hv.target) hv.ne (by omega) (by omega)
  exact ⟨_, lift_of hcopy, hcopy, ⟨hr, hI.ok, hI.free⟩, rfl, hbytes,
    Undisturbed.payload hP hI hv.target hag⟩

/-! ## The steps -/

variable [Platform]

/-- **What the next step of a call does**, and where the call goes on. -/
inductive Activity.Did (P : Nat) (A : AHeap) (W : BonusWorld) (live : List Alloc) :
    Activity → Next → AHeap → BonusWorld → Prop
  | store {b : Nat} {c : Byte} {before : Mem} {W' : BonusWorld} :
      (Op.write b c).Valid live → StoreDone P A W live b c W' →
      Did P A W live ⟨.write b c, before, .store b c⟩ (.done null) A W'
  | check {op : Op} {s : Nat} {before : Mem} {pc : Pc} :
      op.Mallocs s → (pc = .setup s ∨ pc = .alloc s ∧ A.initialized = true) →
      Did P A W live ⟨op, before, .check s⟩ (.go pc) A W
  | setup {op : Op} {s : Nat} {before : Mem} {A' : AHeap} {W' : BonusWorld} :
      op.Mallocs s → SetupDone P A W 0 A' W' →
      Did P A W live ⟨op, before, .setup s⟩ (.go (.alloc s)) A' W'
  -- `setup_global_heap` has failed, and so has `malloc`
  | setupFailed {op : Op} {s : Nat} {before : Mem} {e : Int} {A' : AHeap} {W' : BonusWorld} :
      op.Mallocs s → SetupDone P A W e A' W' → e ≠ 0 →
      Did P A W live ⟨op, before, .setup s⟩ (.done null) A' W'
  | alloc {op : Op} {s q : Nat} {before : Mem} {A' : AHeap} {W' : BonusWorld} :
      op.Mallocs s → A.initialized = true → AllocDone P A W live s q A' W' →
      Did P A W live ⟨op, before, .alloc s⟩ (.done q) A' W'
  -- `free` takes a block below 4 GiB for one that is not its own
  | skip {k : Cell} {before : Mem} : A.Holds k → k.OwnedIn P live → k.word < 0x100000000 →
      Did P A W live ⟨.free (k.addr P), before, .freeHeader (k.addr P)⟩ (.done null) A W
  | freeHeader {k : Cell} {before : Mem} :
      A.Holds k → k.OwnedIn P live → ¬k.word < 0x100000000 →
      Did P A W live ⟨.free (k.addr P), before, .freeHeader (k.addr P)⟩
        (.go (.freeBlock (k.addr P) k.type)) A W
  | freeBlock {k : Cell} {before : Mem} {A' : AHeap} {W' : BonusWorld} :
      A.Holds k → k.OwnedIn P live → FreeDone P A W k A' W' →
      Did P A W live ⟨.free (k.addr P), before, .freeBlock (k.addr P) k.type⟩ (.done null) A' W'
  -- `realloc` in place
  | fits {k : Cell} {s : Nat} {before : Mem} :
      Resizing P A W.world.mem live k s before → s ≤ A.cap k →
      Did P A W live ⟨.realloc (k.addr P) s, before, .header (k.addr P) s⟩ (.done (k.addr P)) A W
  | header {k : Cell} {s : Nat} {before : Mem} :
      Resizing P A W.world.mem live k s before → A.cap k < s →
      Did P A W live ⟨.realloc (k.addr P) s, before, .header (k.addr P) s⟩
        (.go (.grow (k.addr P) s k.type (A.cap k))) A W
  | growFailed {k : Cell} {s : Nat} {before : Mem} {A' : AHeap} {W' : BonusWorld} :
      Resizing P A W.world.mem live k s before → A.cap k < s → AllocDone P A W live s null A' W' →
      Did P A W live ⟨.realloc (k.addr P) s, before, .grow (k.addr P) s k.type (A.cap k)⟩
        (.done null) A' W'
  | grow {k k' : Cell} {s : Nat} {before : Mem} {A' : AHeap} {W' : BonusWorld} :
      Resizing P A W.world.mem live k s before → A.cap k < s →
      AllocDone P A W live s (k'.addr P) A' W' → A'.Holds k' → s ≤ A'.cap k' →
      (∀ k₀, A.Holds k₀ → k₀.addr P ≠ k'.addr P) →
      Did P A W live ⟨.realloc (k.addr P) s, before, .grow (k.addr P) s k.type (A.cap k)⟩
        (.go (.copy (k.addr P) s k.type (A.cap k) (k'.addr P))) A' W'
  | copy {k k' : Cell} {s : Nat} {before : Mem} {W' : BonusWorld} :
      Moving P A W.world.mem live k k' s before → CopyDone P A W k k' W' →
      Did P A W live
        ⟨.realloc (k.addr P) s, before, .copy (k.addr P) s k.type (A.cap k) (k'.addr P)⟩
        (.go (.release (k.addr P) s k.type (k'.addr P))) A W'
  | release {k k' : Cell} {s : Nat} {before : Mem} {A' : AHeap} {W' : BonusWorld} :
      Moving P A W.world.mem live k k' s before →
      (∀ j, j < A.cap k → W.world.mem (k'.addr P + j) = before (k.addr P + j)) →
      FreeDone P A W k A' W' →
      Did P A W live ⟨.realloc (k.addr P) s, before, .release (k.addr P) s k.type (k'.addr P)⟩
        (.done (k'.addr P)) A' W'

/-- The next step of a call runs, and does one of the things `Activity.Did` lists: this is the one
place where the steps of `Pc.exec` are taken apart. -/
def Activity.Does (P : Nat) (A : AHeap) (W : BonusWorld) (live : List Alloc) (a : Activity) :
    Prop :=
  ∃ o A' W', a.pc.exec W = some (o, W') ∧ a.Did P A W live o A' W'

theorem check_does (hI : HeapInv P A W) (hm : op.Mallocs s) :
    Activity.Does P A W live ⟨op, before, .check s⟩ := by
  refine ⟨_, A, W, Prog.bind_to rfl rfl, .check hm ?_⟩
  split
  · exact Or.inl rfl
  · rename_i hi
    refine Or.inr ⟨rfl, ?_⟩
    by_contra hn
    have hflag := hI.rep.flag
    rw [if_neg hn] at hflag
    exact hi hflag

theorem setup_does (hP : ValidPage P) (hI : HeapInv P A W) (hm : op.Mallocs s) :
    Activity.Does P A W live ⟨op, before, .setup s⟩ := by
  obtain ⟨e, A', W', hrun, hd⟩ := setupSection_done hP hI
  by_cases he : e = 0
  · subst he
    exact ⟨_, A', W', Prog.bind_to hrun rfl, .setup hm hd⟩
  · refine ⟨.done null, A', W', Prog.bind_to hrun ?_, .setupFailed hm hd he⟩
    rw [if_pos he]
    rfl

theorem freeHeader_does (hP : ValidPage P) (hI : HeapInv P A W) (hk : A.Holds k)
    (hm : k.OwnedIn P live) :
    Activity.Does P A W live ⟨.free (k.addr P), before, .freeHeader (k.addr P)⟩ := by
  have hrun := lift_of (w := W) (readFree_run hP hI hk)
  by_cases hlow : k.word < 0x100000000
  · rw [if_pos hlow] at hrun
    exact ⟨_, A, W, hrun, .skip hk hm hlow⟩
  · rw [if_neg hlow] at hrun
    exact ⟨_, A, W, hrun, .freeHeader hk hm hlow⟩

theorem header_does (hP : ValidPage P) (hI : HeapInv P A W)
    (hr : Resizing P A W.world.mem live k s before) :
    Activity.Does P A W live ⟨.realloc (k.addr P) s, before, .header (k.addr P) s⟩ := by
  have hrun := lift_of (w := W) (readRealloc_run (s := s) hP hI hr.held)
  by_cases hfit : s ≤ A.cap k
  · rw [if_pos hfit] at hrun
    exact ⟨_, A, W, hrun, .fits hr hfit⟩
  · rw [if_neg hfit] at hrun
    exact ⟨_, A, W, hrun, .header hr (by omega)⟩

theorem grow_does (hP : ValidPage P) (hI : HeapInv P A W) (ho : Owned P A live)
    (hr : Resizing P A W.world.mem live k s before) (hlt : A.cap k < s) :
    Activity.Does P A W live
      ⟨.realloc (k.addr P) s, before, .grow (k.addr P) s k.type (A.cap k)⟩ := by
  have hi := hI.ok.initialized_of_holds hr.held
  obtain ⟨q, A', W', hrun, hd⟩ := allocSection_done hP hI ho hi hr.range.2
  by_cases h0 : q = null
  · subst h0
    exact ⟨_, A', W', Prog.bind_to hrun rfl, .growFailed hr hlt hd⟩
  · obtain ⟨k', rfl, hheld, hsize, hnobody⟩ := hd.new.resolve_left h0
    refine ⟨.go (.copy (k.addr P) s k.type (A.cap k) (k'.addr P)), A', W', Prog.bind_to hrun ?_,
      .grow hr hlt hd hheld hsize hnobody⟩
    rw [if_neg h0]
    rfl

/-- **The next step of a call runs**, whatever the other threads have done since the last one. -/
theorem exec_does (hP : ValidPage P) (hI : HeapInv P A W)
    (ht : ThreadInv P A W ⟨live, some a⟩) : a.Does P A W live := by
  have ho := ht.owned
  cases ht.call a rfl with
  | store hv =>
    obtain ⟨W', hrun, hd⟩ := store_done hP hI ho hv
    exact ⟨_, A, W', Prog.bind_to hrun rfl, .store hv hd⟩
  | check hm => exact check_does hI hm
  | setup hm => exact setup_does hP hI hm
  | alloc hm hi =>
    obtain ⟨q, A', W', hrun, hd⟩ := allocSection_done hP hI ho hi hm.lt
    exact ⟨_, A', W', Prog.bind_to hrun rfl, .alloc hm hi hd⟩
  | freeHeader hk hm => exact freeHeader_does hP hI hk hm
  | @freeBlock k _ hk hm =>
    obtain ⟨A', W', hrun, hd⟩ := freeSection_done hP hI hk k.type
    exact ⟨_, A', W', Prog.bind_to hrun rfl, .freeBlock hk hm hd⟩
  | header hr => exact header_does hP hI hr
  | grow hr hlt => exact grow_does hP hI ho hr hlt
  | copy hv =>
    obtain ⟨W', hrun, hd⟩ := copy_done hP hI hv
    exact ⟨_, A, W', Prog.bind_to hrun rfl, .copy hv hd⟩
  | @release k k' _ _ hv hbytes =>
    obtain ⟨A', W', hrun, hd⟩ := freeSection_done hP hI hv.held k.type
    exact ⟨_, A', W', Prog.bind_to hrun rfl, .release hv hbytes hd⟩

/-- A step that was taken did one of these things, as a step has one outcome; the results about
steps go by the cases of `Activity.Did`. -/
theorem exec_did (hP : ValidPage P) (hI : HeapInv P A W) (ht : ThreadInv P A W ⟨live, some a⟩)
    (hrun : a.pc.exec W = some (o, W')) : ∃ A', a.Did P A W live o A' W' := by
  obtain ⟨o₁, A', W₁, hrun₁, hd⟩ := exec_does hP hI ht
  obtain ⟨rfl, rfl⟩ := Prod.mk.inj (Option.some.inj (hrun₁.symm.trans hrun))
  exact ⟨A', hd⟩

/-! ## The heap -/

/-- The heap is in order after each step, and every mutex free again: a section locks and unlocks
within its step. -/
theorem Activity.Did.heap (hI : HeapInv P A W) (hd : a.Did P A W live o A' W') :
    HeapInv P A' W' := by
  cases hd with
  | store _ hs => exact hs.heap
  | check | skip | freeHeader | fits | header => exact hI
  | setup _ hs | setupFailed _ hs => exact hs.heap
  | alloc _ _ hs | growFailed _ _ hs | grow _ _ hs => exact hs.heap
  | freeBlock _ _ hs | release _ _ hs => exact hs.heap
  | copy _ hs => exact hs.heap

omit [Platform] in
theorem SetupDone.turn {e : Int} (hs : SetupDone P A W e A' W') :
    A.Turn P W.world.os A' W'.world.os := by
  have ht : A.Turn P W.world.os _ _ := .ready
  rwa [hs.effect] at ht

theorem AllocDone.turn (hs : AllocDone P A W live s q A' W') (hwrap : 48 + s < 2 ^ 64) :
    A.Turn P W.world.os A' W'.world.os := by
  have ht : A.Turn P W.world.os _ _ := .alloc s hwrap
  rwa [hs.effect] at ht

theorem FreeDone.turn (hs : FreeDone P A W k A' W') (hk : A.Holds k) :
    A.Turn P W.world.os A' W'.world.os := by
  have ht : A.Turn P W.world.os _ _ := .free hk
  rwa [hs.effect] at ht

/-- **Each step is a section**, a setup, an allocation or a release, or leaves the abstract heap and
the system as they are. -/
theorem Activity.Did.turn (hd : a.Did P A W live o A' W') :
    A.Turn P W.world.os A' W'.world.os := by
  cases hd with
  | store _ hs =>
    rw [hs.os]
    exact .idle
  | check | skip | freeHeader | fits | header => exact .idle
  | setup _ hs | setupFailed _ hs => exact hs.turn
  | alloc hm _ hs => exact hs.turn hm.lt
  | growFailed hr _ hs | grow hr _ hs => exact hs.turn hr.range.2
  | freeBlock hk _ hs => exact hs.turn hk
  | copy _ hs =>
    rw [hs.os]
    exact .idle
  | release hv _ hs => exact hs.turn hv.held

end FtMalloc
