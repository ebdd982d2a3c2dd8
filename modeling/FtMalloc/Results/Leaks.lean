import FtMalloc.Results.Hoarding
import FtMalloc.Results.Refinement

/-!
# Blocks that are never given back

A client may end an allocation with `realloc(p, 0)` instead of `free(p)`. The bonus `realloc` calls
`free` for it (`malloc_bonus.c:329-332`); that of `malloc.c` has no such case, finds the block large
enough and returns it (`malloc.c:286-297`), and the block stays taken. The bonus `free` in turn
leaves a block alone whose header word is below `2 ^ 32` (`malloc_bonus.c:303-306`).

Results, for runs in which no `mmap` fails and the client ends allocations either way (`EndRun`):
* `leak_free`: when all allocations have been ended, every zone is empty and there is no full zone
  and no large block in use (`Released`), provided that the mandatory allocator gets no such
  `realloc` and the bonus one no block with a low header word.
* `zero_realloc_leaks`: a run of the mandatory allocator that ends its only allocation and keeps it.
-/

namespace FtMalloc

open Lib

/-! ## Clients that end allocations with `realloc` -/

/-- The call asks for the block of `p` to be resized to nothing. -/
def Op.ZeroRealloc (op : Op) : Prop := ∃ p, op = .realloc p 0 ∧ p ≠ null

/-- The live allocations after a call that returned `q`, to a client that takes the allocation of
`realloc(p, 0)` as ended. -/
def Op.ended (live : List Alloc) (q : Nat) : Op → List Alloc
  | malloc s => if q = null then live else ⟨q, s⟩ :: live
  | free p => drop live p
  | realloc p s =>
    if s = 0 then drop live p
    else if q ≠ null then ⟨q, s⟩ :: drop live p
    else live
  | write _ _ => live

section Clients

variable {σ : Type}

/-- One call of such a client. -/
structure EndStep (api : Api σ) (c : Config σ) (op : Op) (q : Nat) (c' : Config σ) : Prop where
  valid : op.Valid c.live
  run : api.call op c.state = some (q, c'.state)
  live : c'.live = op.ended c.live q

/-- A run of such a client whose steps all satisfy `G`. -/
inductive EndRun (api : Api σ) (G : Config σ → Op → Prop) (c : Config σ) : Config σ → Prop
  | nil : EndRun api G c c
  | snoc {c₁ c₂ : Config σ} {op : Op} {q : Nat} :
      EndRun api G c c₁ → G c₁ op → EndStep api c₁ op q c₂ → EndRun api G c c₂

/-- **What every step keeps holds along every run.** -/
theorem EndRun.invariant {api : Api σ} {G : Config σ → Op → Prop} {I : Config σ → Prop}
    {c c' : Config σ}
    (step : ∀ {c op q c'}, I c → G c op → EndStep api c op q c' → I c') (hr : EndRun api G c c')
    (h0 : I c) : I c' := by
  induction hr with
  | nil => exact h0
  | snoc _ hg hs ih => exact step ih hg hs

end Clients

/-- The block this call releases has a header word the bonus `free` takes for its own. -/
def Recognised (c : Config BonusWorld) (op : Op) : Prop :=
  ∀ p, op = .free p ∨ op = .realloc p 0 → p ≠ null → 2 ^ 32 ≤ ld c.state.world.mem 8 (p - 8)

/-- Every zone is empty, with every bit of its bitmap set; no zone is on a full list and no large
block is in use. -/
structure World.Released (w : World) : Prop where
  count : ∀ cl, ∀ z ∈ w.zones cl, w.freeCount z = w.numberOfBlocks z
  bitmap : ∀ cl, ∀ z ∈ w.zones cl, ∀ i : Nat, (i : Int) < w.numberOfBlocks z →
    bit w.mem (w.bitmap z) i = true
  zones : ∀ cl : Cls, w.nodes cl.fullHead = []
  blocks : w.nodes .fullLargeBlocks = []

variable {P : Nat} {A : AHeap} {w : World} {c c' : Config World} {e e' : Config BonusWorld}
  {cl : Cls} {s q z : Nat} {live : List Alloc} {k : Cell} {op : Op} {r : Nat × AHeap × Os} {os : Os}
  {m : Mem} {answers : List (Option Nat)}

/-! ## Nothing is held -/

/-- A heap no cell of which is held. -/
theorem Rep.released (hP : ValidPage P) (hr : Rep P w A) (hok : A.Ok P)
    (hnone : ∀ k, ¬A.Holds k) : w.Released := by
  have hfree : ∀ {cl z}, A.HasZone cl z → A.freeCount z = cl.cells P := by
    intro cl z hz
    by_contra hne
    obtain ⟨i, hk⟩ := hok.toWf.exists_held hz hne
    exact hnone _ hk
  refine ⟨fun cl z hz => ?_, fun cl z hz i hi => ?_, fun cl => ?_, ?_⟩
  · have hzone := hr.mem_zones.mp hz
    exact (hr.allFree_iff hzone).mpr (hfree hzone)
  · have hzone := hr.mem_zones.mp hz
    have hf := hr.zone_fields hzone
    have hlen := hok.toWf.cells hzone
    have hbits := (hP.layout cl).bits
    rw [hf.number] at hi
    have hi : i < cl.cells P := by exact_mod_cast hi
    have hlt : i < (A.slots z).length := by omega
    rw [hf.bitmap, (hr.zone hzone).1.bits i (by omega), decide_eq_true_eq]
    rw [List.getElem?_eq_getElem hlt]
    cases hs : (A.slots z)[i] with
    | none => rfl
    | some n =>
      have hheld : A.Holds (.slot cl z i) := ⟨hzone, n, by rw [List.getElem?_eq_getElem hlt, hs]⟩
      exact absurd hheld (hnone (.slot cl z i))
  · rw [hr.nodes_eq, List.eq_nil_iff_forall_not_mem]
    intro z hz
    have h0 := hok.noFree hz
    have hall : A.freeCount z = cl.cells P := hfree (Or.inr hz)
    have hmany := (hP.layout cl).enough
    omega
  · rw [hr.nodes_eq, List.eq_nil_iff_forall_not_mem]
    exact fun b hb => hnone (.block b) hb

/-- When every held cell is live and nothing is live. -/
theorem Inv.released (hP : ValidPage P) (hI : Inv P c A) (ha : Accounted P A c.live)
    (hend : c.live = []) : c.state.Released := by
  refine hI.rep.released hP hI.ok fun k hk => ?_
  obtain ⟨x, hx, -⟩ := ha k hk
  rw [hend] at hx
  exact absurd hx List.not_mem_nil

/-! ## The mandatory allocator -/

/-- Without `realloc(p, 0)` both kinds of client own the same. -/
theorem Effect.ended_eq (hnull : drop live null = live) (he : Effect P A os op r)
    (hg : ¬op.ZeroRealloc) : op.ended live r.1 = op.after false live r.1 := by
  cases he with
  | reallocNull s =>
    by_cases h0 : s = 0
    · subst h0
      have hzero : A.malloc P os 0 = (null, A, os) := if_pos (Or.inl rfl)
      simp [Op.ended, Op.after, hzero, hnull]
    · simp [Op.ended, Op.after, h0]
  | realloc s hk =>
    have h0 : s ≠ 0 := by
      rintro rfl
      exact hg ⟨_, rfl, Cell.addr_ne_zero⟩
    simp [Op.ended, Op.after, h0]
  | _ => rfl

/-- **One step** that is not `realloc(p, 0)`. -/
theorem EndStep.effect [Platform] (hP : ValidPage P) (hI : Inv P c A) (hg : ¬op.ZeroRealloc)
    (hs : EndStep mandatory c op q c') : ∃ r, Effect P A c.state.os op r ∧
      c'.state.os = r.2.2 ∧ c'.live = op.after false c.live r.1 ∧ Inv P c' r.2.1 := by
  obtain ⟨w', r, hrun, hos, he, hI'⟩ := call_effect hP hI hs.valid
  obtain ⟨rfl, rfl⟩ := Prod.mk.inj (Option.some.inj (hs.run.symm.trans hrun))
  have hlive : c'.live = op.after false c.live r.1 :=
    hs.live.trans (he.ended_eq (drop_of_not_mem (hI.ptr_ne_null hP)) hg)
  change Inv P ⟨c'.state, op.after false c.live r.1⟩ r.2.1 at hI'
  rw [← hlive] at hI'
  exact ⟨r, he, hos, hlive, hI'⟩

/-! ## The bonus allocator -/

/-- `realloc(p, 0)` is `free(p)`. -/
theorem Bonus.realloc_zero [Platform] {p : Nat} {W W' : BonusWorld} (hp : p ≠ null)
    (h : Bonus.free p W = some ((), W')) : Bonus.realloc p 0 W = some (null, W') :=
  Prog.if_false_run hp (Prog.if_true_run rfl (Prog.bind_to h rfl))

/-- Both kinds of client own the same. -/
theorem Bonus.Effect.ended_eq (he : Bonus.Effect P A os op r) :
    op.ended live r.1 = op.after true live r.1 := by
  cases he with
  | reallocNull s =>
    by_cases h0 : s = 0
    · subst h0
      have hzero : A.malloc P os 0 = (null, A, os) := if_pos (Or.inl rfl)
      simp [Op.ended, Op.after, hzero]
    · simp [Op.ended, Op.after, h0]
  | @realloc k s hk =>
    by_cases h0 : s = 0
    · subst h0
      have hzero : (A.bonusRealloc P os k 0).1 = null := by
        unfold AHeap.bonusRealloc
        rw [if_pos rfl]
      simp [Op.ended, Op.after, hzero]
    · simp [Op.ended, Op.after, h0]
  | _ => rfl

/-- A call within the limits whose block is recognised does what it does in `malloc.c`, except that
`realloc(p, 0)` releases. -/
theorem Bonus.Effect.cases (hok : A.Ok P) (hlim : op.Limited)
    (hrec : ∀ k, A.Holds k → op = .free (k.addr P) ∨ op = .realloc (k.addr P) 0 → 2 ^ 32 ≤ k.word)
    (he : Bonus.Effect P A os op r) :
    (∃ k, A.Holds k ∧ op = .realloc (k.addr P) 0 ∧ r = (null, A.free P os k)) ∨
      FtMalloc.Effect P A os op r ∧ ¬op.ZeroRealloc := by
  have hfree : ∀ k, 2 ^ 32 ≤ k.word → A.bonusFree P os k = A.free P os k := fun k h =>
    if_neg (by omega)
  cases he with
  | malloc s => exact Or.inr ⟨.malloc s, by simp [Op.ZeroRealloc]⟩
  | freeNull => exact Or.inr ⟨.freeNull, by simp [Op.ZeroRealloc]⟩
  | @free k hk =>
    rw [hfree k (hrec k hk (Or.inl rfl))]
    exact Or.inr ⟨.free hk, by simp [Op.ZeroRealloc]⟩
  | reallocNull s => exact Or.inr ⟨.reallocNull s, by simp [Op.ZeroRealloc]⟩
  | @realloc k s hk =>
    unfold AHeap.bonusRealloc
    by_cases h0 : s = 0
    · subst h0
      rw [if_pos rfl, hfree k (hrec k hk (Or.inr rfl))]
      exact Or.inl ⟨k, hk, rfl, rfl⟩
    · have hle := hlim _ s rfl
      rw [if_neg h0, ← AHeap.malloc_of_initialized (by omega) (hok.initialized_of_holds hk)]
      exact Or.inr ⟨.realloc s hk, by simp [Op.ZeroRealloc, h0]⟩
  | write a b => exact Or.inr ⟨.write a b, by simp [Op.ZeroRealloc]⟩

/-- **One step** of the bonus allocator keeps the books while no `mmap` fails. -/
theorem Bonus.end_step [Platform] (hP : ValidPage P) (hI : BonusInv P e A) (hlim : op.Limited)
    (hrec : Recognised e op) (hs : EndStep bonus e op q e') : ∃ A', BonusInv P e' A' ∧
      e.state.world.os.Since e'.state.world.os ∧ (Accounted P A e.live →
        e'.state.world.os.Unrefused → Accounted P A' e'.live) := by
  have hI₀ := hI.inv
  have hunwrapped : Unwrapped e op := by
    intro p s he _
    exact Or.inl (length_lt_of_le_ptrdiffMax (hlim p s he))
  obtain ⟨w', r, hrun, hos, he, hI'⟩ := Bonus.call_effect hP hI hs.valid hunwrapped
  obtain ⟨rfl, hstate⟩ := Prod.mk.inj (Option.some.inj (hs.run.symm.trans hrun))
  have hlive : e'.live = op.after true e.live r.1 := hs.live.trans he.ended_eq
  have he' : e' = ⟨{ e.state with world := w' }, op.after true e.live r.1⟩ := by
    obtain ⟨state, live⟩ := e'
    obtain rfl : state = { e.state with world := w' } := hstate
    exact congrArg (Config.mk _) hlive
  subst he'
  refine ⟨r.2.1, hI', ?_⟩
  have hword : ∀ k, A.Holds k → op = .free (k.addr P) ∨ op = .realloc (k.addr P) 0 →
      2 ^ 32 ≤ k.word := by
    intro k hk hop
    have hcell := hI₀.rep.wf.hasCell hk
    have hw := hrec _ hop (hI₀.rep.addr_ne_zero hP hcell)
    rwa [(hI₀.rep.header hP hcell).2.2] at hw
  change e.state.world.os.Since w'.os ∧ (Accounted P A e.live → w'.os.Unrefused → _)
  rw [hos]
  rcases he.cases hI₀.ok hlim hword with ⟨k, hk, rfl, rfl⟩ | ⟨hm, hg⟩
  · refine ⟨AHeap.free_since hI₀.sound hk, fun ha _ => ?_⟩
    simpa [Op.after] using ha.release hP hI₀.sound hk
  · have hafter : op.after true e.live r.1 = op.after false e.live r.1 :=
      he.ended_eq.symm.trans (hm.ended_eq (drop_of_not_mem (hI₀.ptr_ne_null hP)) hg)
    refine ⟨hm.since hP hI₀, fun ha hu => ?_⟩
    dsimp only
    rw [hafter]
    exact hm.accounted hP hI₀ ha hu

/-! ## Runs -/

/-- **No leak.** In a run in which no `mmap` fails, once the client has ended all its allocations
nothing is in use: by the mandatory allocator if none was ended with `realloc(p, 0)`, and by the
bonus one if the header words of the blocks given back were recognised. -/
theorem leak_free [Platform] (hP : ValidPage P) :
    (∀ c, EndRun mandatory (fun _ op => op.Limited ∧ ¬op.ZeroRealloc)
        ⟨World.init P m answers, []⟩ c →
      c.state.os.Unrefused → c.live = [] → c.state.Released) ∧
    ∀ e, EndRun bonus (fun e op => op.Limited ∧ Recognised e op)
        ⟨BonusWorld.init P m answers, []⟩ e →
      e.state.world.os.Unrefused → e.live = [] → e.state.world.Released := by
  constructor
  · intro c hrun hu hend
    have hstep : ∀ {c op q c'}, (∃ A, Inv P c A ∧ (c.state.os.Unrefused → Accounted P A c.live)) →
        op.Limited ∧ ¬op.ZeroRealloc → EndStep mandatory c op q c' →
        ∃ A, Inv P c' A ∧ (c'.state.os.Unrefused → Accounted P A c'.live) := by
      rintro c op q c' ⟨A, hI, ha⟩ ⟨-, hg⟩ hs
      obtain ⟨r, he, hos, hlive, hI'⟩ := hs.effect hP hI hg
      refine ⟨r.2.1, hI', fun hu' => ?_⟩
      rw [hos] at hu'
      rw [hlive]
      exact he.accounted hP hI (ha (hu'.of_since (he.since hP hI))) hu'
    obtain ⟨A, hI, ha⟩ := hrun.invariant hstep ⟨_, init_inv hP, fun _ => Accounted.empty⟩
    exact hI.released hP (ha hu) hend
  · intro e hrun hu hend
    have hstep : ∀ {e op q e'},
        (∃ A, BonusInv P e A ∧ (e.state.world.os.Unrefused → Accounted P A e.live)) →
        op.Limited ∧ Recognised e op → EndStep bonus e op q e' →
        ∃ A, BonusInv P e' A ∧ (e'.state.world.os.Unrefused → Accounted P A e'.live) := by
      rintro e op q e' ⟨A, hI, ha⟩ ⟨hlim, hrec⟩ hs
      obtain ⟨A', hI', hsince, hbooks⟩ := Bonus.end_step hP hI hlim hrec hs
      exact ⟨A', hI', fun hu' => hbooks (ha (hu'.of_since hsince)) hu'⟩
    obtain ⟨A, hI, ha⟩ := hrun.invariant hstep ⟨_, Bonus.init_inv hP, fun _ => Accounted.empty⟩
    exact hI.inv.released hP (ha hu) hend

/-- One allocation and its release. -/
theorem endRun_sample [Platform] : ∃ c, EndRun mandatory (fun _ op => op.Limited ∧ ¬op.ZeroRealloc)
    sampleStart c ∧ c.state.os.Unrefused ∧ c.live = [] ∧ c.state.heap.initialized = 1 := by
  obtain ⟨c, hs, hlive, hu, hI⟩ := unrefused_sample
  have hk : sampleHeap.Holds (.slot .tiny 4096 0) :=
    ⟨Or.inl (by decide +kernel), 24, by decide +kernel⟩
  have haddr : (Cell.slot .tiny 4096 0).addr 4096 = 4997 := by decide +kernel
  have hready : sampleHeap.initialized = true := by decide +kernel
  obtain ⟨w', hfree, hos, hI'⟩ := free_call validPage_4096 hI hk
  have hstays : (sampleHeap.free 4096 c.state.os (.slot .tiny 4096 0)).2 = c.state.os := by
    simp only [AHeap.free, AHeap.freeSlot]
    rw [if_pos (by decide +kernel), if_pos (by decide +kernel)]
  rw [haddr] at hfree
  rw [hstays] at hos
  have hend : EndStep mandatory c (.free 4997) null ⟨w', []⟩ := by
    refine ⟨Or.inr ⟨_, hlive ▸ List.mem_singleton_self _, rfl⟩, Prog.bind_to hfree rfl, ?_⟩
    rw [hlive]
    rfl
  have hmalloc : (Op.malloc 24).Limited ∧ ¬(Op.malloc 24).ZeroRealloc := by
    simp [Op.Limited, Op.ZeroRealloc]
  have hrelease : (Op.free 4997).Limited ∧ ¬(Op.free 4997).ZeroRealloc := by
    simp [Op.Limited, Op.ZeroRealloc]
  refine ⟨⟨w', []⟩, (EndRun.nil.snoc hmalloc ⟨hs.valid, hs.run, hs.live⟩).snoc hrelease hend, ?_,
    rfl, ?_⟩
  · rw [hos]
    exact hu
  · have hflag := hI'.rep.flag
    rwa [AHeap.free_initialized, hready] at hflag

/-- The first call of the bonus allocator asks for 24 bytes. -/
def highCall : Nat × AHeap × Os := AHeap.empty.malloc 4096 (Os.init 4096 highAnswers) 24

/-- One allocation of the bonus allocator, ended with `realloc(p, 0)`. -/
theorem endRun_bonus_sample [Platform]
    : ∃ e, EndRun bonus (fun e op => op.Limited ∧ Recognised e op)
    ⟨BonusWorld.init 4096 (fun _ => 0) highAnswers, []⟩ e ∧ e.state.world.os.Unrefused ∧
    e.live = [] ∧ e.state.world.heap.initialized = 1 := by
  have hP := validPage_4096
  obtain ⟨w₁, hrun, hos, hI⟩ := Bonus.malloc_call hP (Bonus.init_inv hP) 24
  change _ = some (highCall.1, _) at hrun
  change w₁.os = highCall.2.2 at hos
  change Inv 4096 ⟨w₁, if highCall.1 = null then [] else [⟨highCall.1, 24⟩]⟩ highCall.2.1 at hI
  have hq : highCall.1 = 4294968197 := by decide +kernel
  have hready : highCall.2.1.initialized = true := by decide +kernel
  have hlog : highCall.2.2.log =
      [.mmap 106496 (some (2 ^ 33)), .mmap 8192 (some (2 ^ 32))] := by decide +kernel
  have hk : highCall.2.1.Holds (.slot .tiny (2 ^ 32) 0) :=
    ⟨Or.inl (by decide +kernel), 24, by decide +kernel⟩
  have haddr : (Cell.slot .tiny (2 ^ 32) 0).addr 4096 = 4294968197 := by decide +kernel
  have hhigh : ¬(Cell.slot .tiny (2 ^ 32) 0).word < 0x100000000 := by decide +kernel
  rw [hq, if_neg (by decide)] at hI
  rw [hq] at hrun
  have hword := (hI.rep.header hP (hI.rep.wf.hasCell hk)).2.2
  obtain ⟨w₂, hfree, hos₂, hI₂⟩ := Bonus.free_call (c := ⟨⟨w₁, Bonus.unlocked⟩, _⟩) hP ⟨hI, rfl⟩ hk
  have hstays : (highCall.2.1.bonusFree 4096 w₁.os (.slot .tiny (2 ^ 32) 0)).2 = w₁.os := by
    simp only [AHeap.bonusFree, AHeap.free, AHeap.freeSlot]
    rw [if_neg hhigh, if_pos (by decide +kernel), if_pos (by decide +kernel)]
  rw [haddr] at hfree hword
  rw [hstays] at hos₂
  have h1 : EndStep bonus ⟨BonusWorld.init 4096 (fun _ => 0) highAnswers, []⟩ (.malloc 24)
      4294968197 ⟨⟨w₁, Bonus.unlocked⟩, [⟨4294968197, 24⟩]⟩ :=
    ⟨valid_malloc (by decide), hrun, rfl⟩
  have h2 : EndStep bonus ⟨⟨w₁, Bonus.unlocked⟩, [⟨4294968197, 24⟩]⟩ (.realloc 4294968197 0) null
      ⟨⟨w₂, Bonus.unlocked⟩, []⟩ := by
    refine ⟨⟨by decide, Or.inr ⟨_, List.mem_singleton_self _, rfl⟩⟩, ?_, rfl⟩
    exact Bonus.realloc_zero (by decide) hfree
  have hrec : Recognised ⟨⟨w₁, Bonus.unlocked⟩, [⟨4294968197, 24⟩]⟩ (.realloc 4294968197 0) := by
    intro p hp _
    obtain rfl : 4294968197 = p := by simpa using hp
    change 2 ^ 32 ≤ ld w₁.mem 8 (4294968197 - 8)
    rw [hword]
    exact Nat.le_of_not_lt hhigh
  have hmalloc : (Op.malloc 24).Limited ∧
      Recognised ⟨BonusWorld.init 4096 (fun _ => 0) highAnswers, []⟩ (.malloc 24) := by
    simp [Op.Limited, Recognised]
  have hlim : (Op.realloc 4294968197 0).Limited := by simp [Op.Limited]
  refine ⟨_, (EndRun.nil.snoc hmalloc h1).snoc ⟨hlim, hrec⟩ h2, ?_, rfl, ?_⟩
  · change w₂.os.Unrefused
    rw [hos₂, hos]
    intro n hm
    rw [hlog] at hm
    simp at hm
  · have hflag := hI₂.rep.flag
    rw [AHeap.bonusFree, if_neg hhigh, AHeap.free_initialized, hready] at hflag
    exact hflag

theorem leak_free_sample : ∃ (c : Config World) (e : Config BonusWorld),
    c.state.heap.initialized = 1 ∧ c.live = [] ∧ c.state.Released ∧
    e.state.world.heap.initialized = 1 ∧ e.live = [] ∧ e.state.world.Released := by
  obtain ⟨c, hrun, hu, hend, hflag⟩ := endRun_sample
  obtain ⟨e, hrun', hu', hend', hflag'⟩ := endRun_bonus_sample
  exact ⟨c, e, hflag, hend, (leak_free validPage_4096).1 c hrun hu hend, hflag', hend',
    (leak_free validPage_4096).2 e hrun' hu' hend'⟩

/-- A block of 24 bytes ended with `realloc(p, 0)` stays taken. -/
theorem zero_realloc_leaks : ¬∀ m answers c, EndRun mandatory (fun _ op => op.Limited)
    ⟨World.init 4096 m answers, []⟩ c → c.state.os.Unrefused → c.live = [] →
    c.state.Released := by
  intro h
  have hP := validPage_4096
  obtain ⟨c, hs, hlive, hu, hI⟩ := unrefused_sample
  have hzone : 4096 ∈ sampleHeap.lists Cls.tiny.freeHead := by decide +kernel
  have hk : sampleHeap.Holds (.slot .tiny 4096 0) := ⟨Or.inl hzone, 24, by decide +kernel⟩
  have haddr : (Cell.slot .tiny 4096 0).addr 4096 = 4997 := by decide +kernel
  obtain ⟨w', hrun, hos, hI'⟩ := realloc_call hP hI hk 0
  have hsame : sampleHeap.realloc 4096 c.state.os (.slot .tiny 4096 0) 0 =
      ((Cell.slot .tiny 4096 0).addr 4096, sampleHeap, c.state.os) := if_pos (Nat.zero_le _)
  rw [haddr] at hsame hrun
  rw [hsame] at hrun hos hI'
  obtain ⟨hr, -, -⟩ := hI'
  dsimp only at hr hos
  have hlim : (Op.malloc 24).Limited := fun p s he => by cases he
  have hlim' : (Op.realloc 4997 0).Limited := fun p s he => by
    cases he
    exact Nat.zero_le _
  have hend : EndStep mandatory c (.realloc 4997 0) 4997 ⟨w', []⟩ := by
    refine ⟨⟨by decide, Or.inr ⟨_, hlive ▸ List.mem_singleton_self _, rfl⟩⟩, hrun, ?_⟩
    rw [hlive]
    rfl
  have hreleased := h _ _ ⟨w', []⟩
    ((EndRun.nil.snoc hlim ⟨hs.valid, hs.run, hs.live⟩).snoc hlim' hend) (by rw [hos]; exact hu) rfl
  have hz : sampleHeap.HasZone .tiny 4096 := Or.inl hzone
  have hall := (hr.allFree_iff hz).mp (hreleased.count .tiny 4096 (hr.mem_zones.mpr hz))
  exact absurd hall (by decide +kernel)

end FtMalloc
