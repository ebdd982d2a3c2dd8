import FtMalloc.Lib.Terminating
import FtMalloc.Results.Locks

/-!
# Every call returns (`bonus/src/malloc_bonus.c:221-365`, `bonus/src/mutex_bonus.c`)

A call takes ten steps at most, between its locks and at them (`Point.left`), and as long as one is
under way some thread can take a step. So the calls that have begun come to their ends.

Result: `calls_return`: in every state of every interleaving, when no thread begins another call,
ten steps for each call under way are as many as there can be; whenever no thread can go on all of
them have returned and no mutex is held; and that is so after some steps.
-/

namespace FtMalloc

open Lib Bonus

variable {P : Nat} {ι : Type} [DecidableEq ι] {S S' : Sys ι Traced Caller} {i : ι} {p : Point}
  {o : Onward} {W W' : BonusWorld} {w w' : World} {t t' : Caller} {n : Nat}

/-! ## One call -/

/-- The steps of a call that are left, at most. -/
def Bonus.Point.left : Point → Nat
  | .store _ _ | .unlockAlloc _ _ | .unlockFree _ | .unlockRelease _ _ => 1
  | .alloc _ | .freeBlock _ _ | .release _ _ _ _ => 2
  | .lockAlloc _ | .lockFree _ _ | .lockRelease _ _ _ _ => 3
  | .unlockHeap _ _ | .freeHeader _ | .copy _ _ _ _ _ => 4
  | .publish _ | .unlockGrow _ _ _ _ _ => 5
  | .makeSmall _ | .grow _ _ _ _ => 6
  | .makeTiny _ | .lockGrow _ _ _ _ => 7
  | .recheck _ | .header _ _ => 8
  | .lockHeap _ => 9
  | .check _ => 10

/-- The steps left after one. -/
def Bonus.Onward.left : Onward → Nat
  | .at p => p.left
  | .done _ => 0

/-- The steps of a thread's call that are left. -/
def Caller.left (t : Caller) : Nat :=
  match t.call with
  | some (_, p) => p.left
  | none => 0

/-- A step of a call that has begun. -/
def Going [Platform] (T : Traced) (t : Caller) (T' : Traced) (t' : Caller) : Prop :=
  t.call ≠ none ∧ CallerStep T t T' t'

theorem left_le (p : Point) : p.left ≤ 10 := by
  cases p <;> simp [Point.left]

theorem Caller.left_le (t : Caller) : t.left ≤ if t.call.isSome then 10 else 0 := by
  unfold Caller.left
  cases t.call with
  | none => simp
  | some c => exact FtMalloc.left_le c.2

theorem settle_left [Platform] (live : List Alloc) (op : Op) (ls : List Mutex) (o : Onward) :
    (Caller.settle live op ls o).left = o.left := by
  cases o <;> rfl

/-- A `do` block that ends with a pure step. -/
theorem map_left {α : Type} {x : C α} {f : α → Onward} (hf : ∀ a, (f a).left < n)
    (h : (x >>= fun a => pure (f a)) w = some (o, w')) : o.left < n := by
  obtain ⟨a, v, -, ho⟩ := Prog.bind_eq_some.mp h
  obtain ⟨rfl, -⟩ := Prod.mk.inj (Option.some.inj ho)
  exact hf a

theorem readFree_left {ptr : Nat} (h : readFreePoint ptr w = some (o, w')) : o.left < 4 := by
  obtain ⟨word, v, -, h⟩ := Prog.bind_eq_some.mp h
  split at h
  · obtain ⟨rfl, -⟩ := Prod.mk.inj (Option.some.inj h)
    simp [Onward.left]
  · refine map_left (fun type => ?_) h
    split <;> simp [Onward.left, Point.left]

theorem readRealloc_left {ptr size : Nat} (h : readReallocPoint ptr size w = some (o, w')) :
    o.left < 8 := by
  obtain ⟨word, v, -, h⟩ := Prog.bind_eq_some.mp h
  obtain ⟨type, v, -, h⟩ := Prog.bind_eq_some.mp h
  refine map_left (fun current => ?_) h
  split <;> simp [Onward.left, Point.left]

/-- **What is done between the locks** is a step less. -/
theorem body_left [Platform] {x : C Onward} (hx : p.action = .body x) (h : x w = some (o, w')) :
    o.left < p.left := by
  cases p with
  | freeHeader ptr =>
    cases hx
    exact readFree_left h
  | header ptr size =>
    cases hx
    exact readRealloc_left h
  | _ =>
    cases hx
    try
      refine map_left (fun a => ?_) h
      first | (simp [Onward.left, Point.left]; done) | (split <;> simp [Onward.left, Point.left])

/-- **One step** of a call, whatever the others have done in the meantime. -/
theorem exec_left [Platform] (h : p.action.exec W = some (o, W')) : o.left < p.left := by
  cases hp : p.action with
  | lock m p' =>
    rw [hp] at h
    obtain ⟨rfl, -, -⟩ := lock_exec h
    cases p <;> cases hp <;> simp [Onward.left, Point.left]
  | unlock m o' =>
    rw [hp] at h
    obtain ⟨rfl, -, -⟩ := unlock_exec h
    cases p with
    | unlockHeap s e =>
      cases hp
      split <;> simp [Onward.left, Point.left]
    | unlockGrow ptr s type current new =>
      cases hp
      split <;> simp [Onward.left, Point.left]
    | _ => cases hp <;> simp [Onward.left, Point.left]
  | body x =>
    rw [hp] at h
    obtain ⟨w', hx, -⟩ := body_exec h
    exact body_left hp hx

theorem going_left [Platform] (h : Sys.After Going t' t) : t'.left < t.left := by
  obtain ⟨T, T', hcall, hs⟩ := h
  cases hs with
  | call => exact absurd rfl hcall
  | exec hrun =>
    rw [settle_left]
    exact exec_left hrun

/-! ## All of them -/

theorem going_reach [Platform] (hr : Sys.Reach Going S S') : Sys.Reach CallerStep S S' := by
  induction hr with
  | refl => exact .refl
  | tail _ hs ih =>
    obtain ⟨i, hn⟩ := hs
    exact ih.tail (.mk i hn.2)

/-- **No thread is left behind**: where no thread can go on, no call is under way. -/
theorem returned_of_stuck [Platform]
    (hS : Points.Reachable P S) (hend : ∀ S', ¬Sys.Step Going S S') (i : ι) :
    (S.thread i).call = none := by
  by_contra hi
  obtain ⟨j, hj, hawake⟩ := (points_balanced hS).exists_awake hi
  obtain ⟨⟨op, p⟩, hc⟩ := Option.ne_none_iff_exists'.mp hj
  obtain ⟨o, W', hrun⟩ := points_total hS hc hawake
  obtain ⟨live, ls, ht⟩ : ∃ live ls, S.thread j = ⟨live, some (op, p), ls⟩ :=
    ⟨_, _, by rw [← hc]⟩
  have hstep : Going S.shared (S.thread j) ⟨W', (p, o) :: S.shared.trace⟩
      (.settle live op (p.action.after ls) o) := ⟨hj, by rw [ht]; exact .exec hrun⟩
  exact hend _ (.mk j hstep)

theorem returned_unlocked [Platform]
    (hS : Points.Reachable P S) (hret : ∀ i, (S.thread i).call = none)
    (m : Mutex) : S.shared.bonus.held m = false := by
  by_contra hm
  obtain ⟨i, hi⟩ := (points_balanced hS).balanced.holder m (Bool.eq_true_of_not_eq_false hm)
  rw [(points_balanced hS).idle (hret i)] at hi
  exact List.not_mem_nil hi

omit [DecidableEq ι] in
theorem total_left [Fintype ι] (S : Sys ι Traced Caller) : ∑ i, (S.thread i).left ≤
    10 * (Finset.univ.filter fun i => (S.thread i).call.isSome).card := by
  calc ∑ i, (S.thread i).left
      ≤ ∑ i, if (S.thread i).call.isSome then 10 else 0 :=
        Finset.sum_le_sum fun i _ => (S.thread i).left_le
    _ = 10 * (Finset.univ.filter fun i => (S.thread i).call.isSome).card := by
        rw [← Finset.sum_filter, Finset.sum_const, smul_eq_mul, Nat.mul_comm]

/-- **Every call returns.** From any state that some interleaving reaches, when no thread begins
another call: the steps come to an end, after ten for each call under way at most; where they end no
call is under way and no mutex is held; and there is such an end. -/
theorem calls_return [Platform] [Fintype ι] (hS : Points.Reachable P S) :
    (∀ n S', Sys.Steps Going S n S' →
      n ≤ 10 * (Finset.univ.filter fun i => (S.thread i).call.isSome).card) ∧
    (∀ S', Sys.Reach Going S S' → (∀ S'', ¬Sys.Step Going S' S'') →
      (∀ i, (S'.thread i).call = none) ∧ ∀ m, S'.shared.bonus.held m = false) ∧
    ∃ S', Sys.Reach Going S S' ∧ ∀ i, (S'.thread i).call = none := by
  have hwf : WellFounded (Sys.After Going) :=
    Subrelation.wf going_left (InvImage.wf Caller.left wellFounded_lt)
  refine ⟨fun n S' hn => ?_, fun S' hr hend => ?_, ?_⟩
  · have hle := hn.le_total going_left
    have htotal := total_left S
    omega
  · have hS' := hS.trans (going_reach hr)
    have hret := returned_of_stuck hS' hend
    exact ⟨hret, returned_unlocked hS' hret⟩
  · obtain ⟨S', hr, hend⟩ := Sys.exists_end hwf S
    exact ⟨S', hr, returned_of_stuck (hS.trans (going_reach hr)) hend⟩

/-- Two threads have begun their first calls, and one of them is inside the setup. -/
theorem calls_return_sample : ∃ S : Sys Bool Traced Caller, Points.Reachable 4096 S ∧
    (∀ i, (S.thread i).call ≠ none) ∧ S.shared.bonus.held .heap = true ∧
    ∃ S', Sys.Reach Going S S' ∧ ∀ i, (S'.thread i).call = none := by
  have hS : Points.Reachable 4096 (Points.init Bool 4096 (fun _ => 0) []) :=
    ⟨validPage_4096, _, _, Relation.ReflTransGen.refl⟩
  have hmalloc : (Op.malloc 24).Valid [] := valid_malloc (by decide)
  have hfits : (Op.malloc 24).Fits := by intro p s h; cases h
  have h1 := hS.call (i := true) rfl hmalloc hfits
  have h2 := h1.exec (i := true) (o := .at (.lockHeap 24)) rfl rfl
  have h3 := h2.exec (i := true) (o := .at (.recheck 24)) rfl rfl
  have h4 := h3.call (i := false) rfl hmalloc hfits
  refine ⟨_, h4, fun i => ?_, rfl, (calls_return h4).2.2⟩
  cases i <;> exact fun h => by cases h

end FtMalloc
