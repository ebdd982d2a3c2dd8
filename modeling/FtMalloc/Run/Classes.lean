import FtMalloc.Refine.Commute
import FtMalloc.Run.Interleaving
import FtMalloc.Run.Observe

/-!
# The sections of the three classes (`bonus/src/malloc_bonus.c:146-291`, `bonus/src/mutex_bonus.c`)

A `Locked` is `alloc_block` or `free_ptr` between `lock_list` and `unlock_list`. It runs with
`mmap` results of its own (`Locked.run`), so that two of them can be taken in either order with
the same results each.

* `Locked.task_of`: on a heap that keeps the invariant a section is a `Task` of the class of its
  mutex.
* `Locked.run_of`: what it does there.
* `commute_of_tasks`: **two sections of different classes commute**, when the regions their results
  name are fresh and apart from each other.
-/

namespace FtMalloc

open Lib Bonus

/-! ## Sections -/

/-- The system with these answers of `mmap` to come, in place of those it had. -/
def Os.ask (os : Os) (answers : List (Option Nat)) : Os := { os with answers := answers }

/-- The machine with these answers of `mmap` to come. -/
def World.ask (w : World) (answers : List (Option Nat)) : World := { w with os := w.os.ask answers }

/-- A part of a call that runs under the mutex of a class: an allocation with the `mmap` results it
will get, or a release. -/
inductive Locked
  | alloc (size : Nat) (answers : List (Option Nat))
  | free (type : Int) (ptr : Nat)

namespace Locked

/-- The section, its `lock_list` and its `unlock_list` (`malloc_bonus.c:240-242, 312-314`). -/
def code [Platform] : Locked → B Nat
  | alloc size _ => allocSection size
  | free type ptr => do
    freeSection type ptr
    pure null

/-- The mutex it holds, by the type of the size or of the block (`mutex_bonus.c:3-21`). -/
def mutex : Locked → Mutex
  | alloc size _ => mutexOf (typeOf size)
  | free type _ => mutexOf type

/-- Its `mmap` results; a release maps nothing. -/
def answers : Locked → List (Option Nat)
  | alloc _ l => l
  | free _ _ => []

/-- The length of the mapping it asks for, if it does: that of a zone of its class, or of the
block. -/
def length (pageSize : Nat) : Locked → Nat
  | alloc size _ => (Task.alloc size).length pageSize
  | free _ _ => 0

/-- The section runs with its own `mmap` results. Those of the others are left as they were. -/
def run [Platform] (a : Locked) : B Nat := fun W =>
  (a.code { W with world := W.world.ask a.answers }).map fun r =>
    (r.1, { r.2 with world := r.2.world.ask W.world.os.answers })

/-- What a caller may do: the size is a `size_t`, or the pointer is live and the type is the one in
its zone or block. -/
def Valid (W : BonusWorld) (live : Alloc → Prop) : Locked → Prop
  | alloc size _ => size < 2 ^ 64
  | free type ptr => (∃ x, live x ∧ x.ptr = ptr) ∧
      (load 8 (ptr - 8) >>= headerType) W.world = some (type, W.world)

/-- The `mmap` results are failures and fresh regions, as from a kernel that serves the section
first. -/
def Fresh (P : Nat) (W : BonusWorld) (a : Locked) : Prop :=
  ∀ b, some b ∈ a.answers → W.world.os.Grants (a.length P) b

/-- The regions of the one are not those of the other, as from a kernel that serves both. -/
def Apart (P : Nat) (a b : Locked) : Prop :=
  ∀ x y, some x ∈ a.answers → some y ∈ b.answers →
    x + roundUp P (a.length P) ≤ y ∨ y + roundUp P (b.length P) ≤ x

/-- The length of the mapping does not wrap, or it is refused; `realloc` does not reject the sizes
from `2 ^ 64 - 48` on. -/
def Unwrapped (W : BonusWorld) : Locked → Prop
  | alloc size answers =>
    48 + size < 2 ^ 64 ∨ (W.world.os.ask answers).reply (wrap (48 + size)) = none
  | free _ _ => True

end Locked

/-- The same heap: the heap variable, every byte of memory, and the regions that are mapped, in any
order. -/
structure World.SameHeap (w w' : World) : Prop where
  heap : w.heap = w'.heap
  mem : w.mem = w'.mem
  page : w.os.pageSize = w'.os.pageSize
  regions : ∀ r, r ∈ w.os.regions ↔ r ∈ w'.os.regions

/-- Taken in either order, two sections run, return the same and leave the same heap, each with its
own `mmap` results. -/
def Locked.Commute [Platform] (a b : Locked) (W : BonusWorld) : Prop :=
  ∃ p q W₁ W₂,
    (do
      let p ← a.run
      let q ← b.run
      pure (p, q) : B (Nat × Nat)) W = some ((p, q), W₁) ∧
    (do
      let q ← b.run
      let p ← a.run
      pure (p, q) : B (Nat × Nat)) W = some ((p, q), W₂) ∧
    W₁.world.SameHeap W₂.world ∧ W₁.held = W₂.held

variable {P n : Nat} {A A' : AHeap} {os os' o o' : Os} {w : World} {W : BonusWorld} {t u : Task}
  {a b : Locked} {l : List (Option Nat)} {live : Alloc → Prop} {s : Nat} {k : Cell} {r : Region}

/-! ## The system -/

@[simp] theorem Os.ask_regions : (os.ask l).regions = os.regions := rfl
@[simp] theorem Os.ask_pageSize : (os.ask l).pageSize = os.pageSize := rfl

theorem Os.Ok.ask (ok : os.Ok) : (os.ask l).Ok := ⟨ok.page, ok.logged, ok.nodup, ok.legal, ok.apart⟩

theorem AHeap.Backed.ask (hb : A.Backed P os) : A.Backed P (os.ask l) := ⟨hb.system.ask, hb.region⟩

theorem AHeap.Sound.ask (hs : A.Sound P os) : A.Sound P (os.ask l) := ⟨hs.ok, hs.backed.ask⟩

theorem Rep.ask (hP : ValidPage P) (hr : Rep P w A) : Rep P (w.ask l) A :=
  hr.system hP hr.backed.ask hr.page (Agrees.refl _ _)

/-- **What a system call does to the mappings**: some come, some go, in both states the same. -/
theorem Os.Likewise.regions (h : Os.Likewise n os os' o o') (ok : os.Ok) (ok' : os'.Ok) :
    ∃ G U : Region → Prop, (∀ r, r ∈ o.regions ↔ G r ∨ r ∈ os.regions ∧ ¬U r) ∧
      (∀ r, r ∈ o'.regions ↔ G r ∨ r ∈ os'.regions ∧ ¬U r) ∧
      (∀ r, G r → os.reply n = some r.base ∧ r.len = n) ∧ ∀ r, U r → r ∈ os.regions := by
  cases h with
  | none => exact ⟨fun _ => False, fun _ => False, by simp, by simp, by simp, by simp⟩
  | mmap hr =>
    refine ⟨fun r => os.reply n = some r.base ∧ r.len = n, fun _ => False, ?_, ?_, fun _ h => h,
      by simp⟩
    · intro r
      cases hb : os.reply n with
      | none => simp [mmap_refused hb]
      | some b =>
        obtain ⟨base, len⟩ := r
        simp [mmap_granted hb, eq_comm]
    · intro r
      rw [← hr]
      cases hb : os'.reply n with
      | none => simp [mmap_refused hb]
      | some b =>
        obtain ⟨base, len⟩ := r
        simp [mmap_granted hb, eq_comm]
  | @munmap r₀ hm =>
    refine ⟨fun _ => False, fun r => r = r₀, ?_, ?_, by simp, ?_⟩
    · intro r
      simp [ok.mem_munmap, and_comm]
    · intro r
      simp [ok'.mem_munmap, and_comm]
    · rintro r rfl
      exact hm

theorem Os.Likewise.page (h : Os.Likewise n os os' o o') :
    o.pageSize = os.pageSize ∧ o'.pageSize = os'.pageSize := by
  cases h <;> exact ⟨rfl, rfl⟩

/-- **A result that is a fresh region now and is apart from what comes** will be granted later. -/
theorem Os.reply_ask (hp : o.pageSize = os.pageSize) (hfresh : ∀ y, some y ∈ l → os.Grants n y)
    (hapart : ∀ y, some y ∈ l → ∀ r ∈ o.regions, r ∈ os.regions ∨
      os.limit ⟨y, n⟩ ≤ r.base ∨ os.limit r ≤ y) :
    (o.ask l).reply n = (os.ask l).reply n := by
  cases l with
  | nil => rfl
  | cons x l =>
    cases x with
    | none => rfl
    | some y =>
      have hg := hfresh y List.mem_cons_self
      have hg' : (o.ask (some y :: l)).Grants n y := by
        obtain ⟨h1, h2, h3, h4, h5⟩ := hg
        have hlim : ∀ r, (o.ask (some y :: l)).limit r = os.limit r := by
          intro r
          unfold Os.limit
          rw [Os.ask_pageSize, hp]
        refine ⟨h1, h2, h3, ?_, fun r hr => ?_⟩
        · rw [hlim]
          exact h4
        · rw [hlim, hlim]
          rcases hapart y List.mem_cons_self r hr with hr | hr
          · exact h5 r hr
          · exact hr
      exact (if_pos hg').trans (if_pos hg).symm

theorem Os.answer_of_reply {b : Nat} (h : (os.ask l).reply n = some b) : some b ∈ l := by
  unfold Os.reply at h
  split at h
  · rename_i x l' hans
    split at h
    · obtain rfl := Option.some.inj h
      rw [show l = some x :: l' from hans]
      exact List.mem_cons_self
    · cases h
  · cases h

/-! ## Sections as tasks -/

/-- The mutex of a class, `none` being the large blocks. -/
def Mutex.ofClass : Option Cls → Mutex
  | some .tiny => .tiny
  | some .small => .small
  | none => .large

theorem mutexOf_typeOf (s : Nat) : mutexOf (typeOf s) = Mutex.ofClass (Cls.ofSize s) := by
  unfold typeOf Cls.ofSize
  split
  · rfl
  · split
    · rfl
    · rfl

theorem mutexOf_type (k : Cell) : mutexOf k.type = Mutex.ofClass k.cls := by
  cases k with
  | slot c z i => cases c <;> rfl
  | block b => rfl

/-- On a heap whose mutexes are free, the section runs the code of the task. -/
structure Locked.Runs [Platform] (P : Nat) (a : Locked) (t : Task) : Prop where
  length : a.length P = t.length P
  mutex : a.mutex = Mutex.ofClass t.cls
  code : ∀ {W q w'}, W.held = unlocked → t.code P W.world = some (q, w') →
    a.code W = some (q, { W with world := w' })

/-- **A section is a task** of the class of its mutex: an allocation by its size, a release by the
cell of its pointer. -/
theorem Locked.task_of [Platform]
    (hP : ValidPage P) (hI : HeapInv P A W) (hi : A.initialized = true)
    (hlive : ∀ x, live x → ∃ k, A.Holds k ∧ k.addr P = x.ptr) (ha : a.Valid W live)
    (hwrap : a.Unwrapped W) : ∃ t, a.Runs P t ∧ A.Admits (W.world.os.ask a.answers) t := by
  cases a with
  | alloc s l =>
    exact ⟨.alloc s, ⟨rfl, mutexOf_typeOf s, fun hfree hrun => allocSection_run hfree hrun⟩,
      hi, hwrap⟩
  | free type ptr =>
    obtain ⟨⟨x, hx, rfl⟩, hread⟩ := ha
    obtain ⟨k, hk, hkx⟩ := hlive x hx
    rw [← hkx] at hread
    have hcell := hI.rep.wf.hasCell hk
    obtain ⟨-, hm, hword⟩ := hI.rep.header hP hcell
    have htype : (load 8 (k.addr P - 8) >>= headerType) W.world = some (k.type, W.world) :=
      Prog.bind_to (load_to hm hword) (headerType_run hP hI.rep hcell)
    obtain ⟨rfl, -⟩ := Prod.mk.inj (Option.some.inj (hread.symm.trans htype))
    refine ⟨.free k, ⟨rfl, mutexOf_type k, fun {W' q w'} hfree hrun => ?_⟩, hk⟩
    obtain ⟨v, w₁, hrun₁, hrest⟩ := Prog.bind_eq_some.mp hrun
    obtain ⟨rfl, rfl⟩ := Prod.mk.inj (Option.some.inj hrest)
    rw [hkx] at hrun₁
    exact Prog.bind_to (freeSection_run hfree hrun₁) rfl

/-- **What a section does**: its task, with its own `mmap` results. -/
theorem Locked.run_of [Platform] (hP : ValidPage P) (hI : HeapInv P A W) (ha : a.Runs P t)
    (ht : A.Admits (W.world.os.ask a.answers) t) :
    let r := A.serve P (W.world.os.ask a.answers) t
    ∃ W', a.run W = some (r.1, W') ∧ HeapInv P r.2.1 W' ∧
      W'.world.os = r.2.2.ask W.world.os.answers ∧
      W'.world.mem = A.serveMem P (W.world.os.ask a.answers) t W.world.mem := by
  have hs := serve_sound hP (hI.sound.ask (l := a.answers)) ht
  obtain ⟨w', hrun, hos, hr, -, hmem⟩ := serve_writes hP (hI.rep.ask hP) hI.ok ht
  have hcode := ha.code (W := { W with world := W.world.ask a.answers }) hI.free hrun
  refine ⟨{ W with world := w'.ask W.world.os.answers }, ?_, ⟨hr.ask hP, hs.ok, hI.free⟩,
    congrArg (Os.ask · W.world.os.answers) hos, hmem⟩
  unfold Locked.run
  rw [hcode]
  rfl

/-! ## Two sections -/

/-- A task that may run may still run after a task of another class, which leaves its lists and
cells alone. -/
theorem AHeap.Admits.after (ht : A.Admits os t) (hsame : AHeap.SameOn t.cls A A')
    (hi : A'.initialized = A.initialized) (hr : os'.reply (t.length P) = os.reply (t.length P)) :
    A'.Admits os' t := by
  cases t with
  | alloc s =>
    refine ⟨hi.trans ht.1, ?_⟩
    cases hc : Cls.ofSize s with
    | some c =>
      have hle := Cls.ofSize_some hc
      have : c.size ≤ 1024 := by cases c <;> decide
      exact Or.inl (by omega)
    | none =>
      simp only [Task.length, hc] at hr
      rw [hr]
      exact ht.2
  | free k => exact hsame.holds rfl ht

/-- What the system will answer the second section is what it would answer it first, since the first
one's region is apart. -/
theorem reply_second (hI : HeapInv P A W) (hl : a.length P = t.length P)
    (hsys : Os.Likewise (t.length P) (W.world.os.ask a.answers) (W.world.os.ask a.answers) o o')
    (hb : b.Fresh P W) (hap : a.Apart P b) :
    (o.ask b.answers).reply (b.length P) = (W.world.os.ask b.answers).reply (b.length P) := by
  have hok : (W.world.os.ask a.answers).Ok := hI.rep.backed.system.ask
  obtain ⟨G, U, hG, -, hgrant, -⟩ := hsys.regions hok hok
  refine Os.reply_ask hsys.page.1 hb fun y hy r hr => ?_
  rcases (hG r).mp hr with hr | hr
  · obtain ⟨hreply, hlen⟩ := hgrant r hr
    have hapart := hap _ y (Os.answer_of_reply hreply) hy
    simp only [Os.limit, hI.rep.page, hlen]
    rw [hl] at hapart
    exact Or.inr hapart.symm
  · exact Or.inl hr.1

theorem Locked.Apart.symm (h : a.Apart P b) : b.Apart P a := fun x y hx hy => (h y x hy hx).symm

/-- The regions two sections get are apart, byte by byte. -/
theorem fresh_apart (hl : a.length P = t.length P) (hl' : b.length P = u.length P)
    (hap : a.Apart P b) (x : Nat) (hx : (os.ask a.answers).FreshByte P (t.length P) x) :
    ¬(os'.ask b.answers).FreshByte P (u.length P) x := by
  rintro ⟨y, hy, h1, h2⟩
  obtain ⟨x', hx', h3, h4⟩ := hx
  have hapart := hap x' y (Os.answer_of_reply hx') (Os.answer_of_reply hy)
  rw [hl, hl'] at hapart
  omega

/-- One section after the other: the second does the task it would do first, on the heap the first
left. -/
theorem second_run [Platform]
    (hP : ValidPage P) (hI : HeapInv P A W) (ha : a.Runs P t) (hb : b.Runs P u)
    (ht : A.Admits (W.world.os.ask a.answers) t) (hu : A.Admits (W.world.os.ask b.answers) u)
    (hne : t.cls ≠ u.cls) (hfb : b.Fresh P W) (hap : a.Apart P b) :
    let r := A.serve P (W.world.os.ask a.answers) t
    let r' := A.serve P (W.world.os.ask b.answers) u
    let f := A.serveMem P (W.world.os.ask a.answers) t
    let g := A.serveMem P (W.world.os.ask b.answers) u
    ∃ A' W₁ W' o, a.run W = some (r.1, W₁) ∧ b.run W₁ = some (r'.1, W') ∧ HeapInv P A' W' ∧
      A'.initialized = A.initialized ∧ AHeap.SameOn u.cls r'.2.1 A' ∧
      (∀ k, k ≠ u.cls → AHeap.SameOn k r.2.1 A') ∧ W'.world.mem = g (f W.world.mem) ∧
      Os.Likewise (u.length P) (W.world.os.ask b.answers) (r.2.2.ask b.answers) r'.2.2 o ∧
      W'.world.os = o.ask W.world.os.answers := by
  intro r r' f g
  have hs := hI.sound.ask (l := a.answers)
  have hs' := hI.sound.ask (l := b.answers)
  obtain ⟨W₁, hrun₁, hI₁, hos₁, hmem₁⟩ := Locked.run_of hP hI ha ht
  have hask : W₁.world.os.ask b.answers = r.2.2.ask b.answers := by
    rw [hos₁]
    rfl
  -- the first section leaves the class of the second alone
  have hsame : AHeap.SameOn u.cls A r.2.1 := AHeap.serve_other hs ht hne.symm
  have hsys := (AHeap.serve_mirrors hs ht (AHeap.SameOn.refl _ _) rfl).system
  have hreply : (r.2.2.ask b.answers).reply (u.length P) =
      (W.world.os.ask b.answers).reply (u.length P) := by
    rw [← hb.length]
    exact reply_second hI ha.length hsys hfb hap
  have hu₁ : r.2.1.Admits (W₁.world.os.ask b.answers) u := by
    rw [hask]
    exact hu.after hsame serve_initialized hreply
  obtain ⟨W₂, hrun₂, hI₂, hos₂, hmem₂⟩ := Locked.run_of hP hI₁ hb hu₁
  have hm := AHeap.serve_mirrors hs' hu hsame hreply
  rw [hask] at hrun₂ hI₂ hos₂ hmem₂ hu₁
  rw [hm.result] at hrun₂
  refine ⟨_, W₁, W₂, _, hrun₁, hrun₂, hI₂, ?_, hm.heap,
    fun k hk => AHeap.serve_other (serve_sound hP hs ht).ask hu₁ hk, ?_, hm.system, ?_⟩
  · rw [serve_initialized, serve_initialized]
  · rw [hmem₂, hmem₁, AHeap.serveMem_same hu hsame hreply]
  · rw [hos₂, hos₁]
    rfl

/-- **Two sections of different classes commute**: so do their tasks, as abstract operations
(`Abstract/Apart.lean`) and as changes of memory (`Refine/Commute.lean`). -/
theorem commute_of_tasks [Platform] (hP : ValidPage P) (hI : HeapInv P A W) (ha : a.Runs P t)
    (hb : b.Runs P u) (ht : A.Admits (W.world.os.ask a.answers) t)
    (hu : A.Admits (W.world.os.ask b.answers) u) (hne : t.cls ≠ u.cls) (hfa : a.Fresh P W)
    (hfb : b.Fresh P W) (hap : a.Apart P b) : a.Commute b W := by
  have hs := hI.sound.ask (l := a.answers)
  have hs' := hI.sound.ask (l := b.answers)
  have hp := hI.rep.page
  have hso := serve_sound hP hs ht
  have hso' := serve_sound hP hs' hu
  obtain ⟨A₁, V₁, W₁, o₁, hrun₁, hrun₁', hI₁, hi₁, hsame₁, hother₁, hmem₁, hsys₁, hos₁⟩ :=
    second_run hP hI ha hb ht hu hne hfb hap
  obtain ⟨A₂, V₂, W₂, o₂, hrun₂, hrun₂', hI₂, hi₂, hsame₂, hother₂, hmem₂, hsys₂, hos₂⟩ :=
    second_run hP hI hb ha hu ht hne.symm hfa hap.symm
  refine ⟨_, _, W₁, W₂, Prog.bind_to hrun₁ (Prog.bind_to hrun₁' rfl),
    Prog.bind_to hrun₂ (Prog.bind_to hrun₂' rfl), ⟨?_, ?_, ?_, ?_⟩, hI₁.free.trans hI₂.free.symm⟩
  · -- each list is the one that the section of its class has left
    refine hI₁.rep.heap_eq hI₂.rep (hi₁.trans hi₂.symm) fun h => ?_
    by_cases hhu : h.cls = u.cls
    · rw [hsame₁.lists hhu, (hother₂ _ hne.symm).lists hhu]
    · rw [(hother₁ _ hhu).lists rfl]
      by_cases hht : h.cls = t.cls
      · rw [hsame₂.lists hht]
      · rw [(hother₂ _ hht).lists rfl, (AHeap.serve_other hs ht hht).lists rfl,
          (AHeap.serve_other hs' hu hhu).lists rfl]
  · rw [hmem₁, hmem₂]
    exact serveMem_comm hP hs hs' hp hp ht hu hne (fresh_apart ha.length hb.length hap) _
  · rw [hI₁.rep.page, hI₂.rep.page]
  · obtain ⟨G, U, h1, h2, hG, hU⟩ := hsys₁.regions hs'.backed.system hso.backed.system.ask
    obtain ⟨G', U', h3, h4, hG', hU'⟩ := hsys₂.regions hs.backed.system hso'.backed.system.ask
    intro r
    have hnew : G r → r ∉ W.world.os.regions := fun hg hr =>
      hs'.backed.system.not_mem (hG r hg).1 r hr rfl
    have hnew' : G' r → r ∉ W.world.os.regions := fun hg hr =>
      hs.backed.system.not_mem (hG' r hg).1 r hr rfl
    have hold := hU r
    have hold' := hU' r
    rw [hos₁, hos₂, Os.ask_regions, Os.ask_regions, h2, h4, Os.ask_regions, Os.ask_regions, h1, h3]
    simp only [Os.ask_regions] at hold hold' ⊢
    tauto

end FtMalloc
