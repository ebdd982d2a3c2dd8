import FtMalloc.Lib.Mutexes
import FtMalloc.Run.Threads
import FtMalloc.Source.Points

/-!
# Threads of the bonus allocator, lock by lock

The machine of `Run/Threads.lean` with the points of `Source/Points.lean` as its steps, and with all
the calls of `malloc` and every `realloc` to a size the length of whose mapping fits a `size_t`. A
thread keeps a list of the mutexes it has locked and not unlocked, and the shared state a record of
the points that were passed, newest first; no step reads either.

Results:
* `points_balanced`: in every state that some interleaving reaches, the mutexes that are held are
  those on the threads' lists, and a thread's list is that of its place (`Point.locks`).
* `call_eq_points`: the points of a call, taken one after the other, are the call; so a call that
  no other thread interrupts is a run (`Points.Reachable.alone`).
-/

namespace FtMalloc

open Lib Bonus

/-- The first point of a call, by its entry point; a call that is turned away returns at once. -/
def Op.enter : Op → Onward
  | malloc s => enterMalloc s
  | free p => enterFree p
  | realloc p s => enterRealloc p s
  | write a b => .at (.store a b)

variable [Platform]

/-- The points of a call are the call, at most ten of them. -/
theorem call_eq_points (op : Op) : bonus.call op = op.enter.run 10 := by
  cases op with
  | malloc s => exact malloc_eq_points s
  | free p => exact free_eq_points p
  | realloc p s => exact realloc_eq_points p s
  | write a b =>
    simp only [Op.enter, onward_at, Point.action, Action.exec, lift_bind, lift_pure, bind_assoc,
      pure_bind, onward_done]
    rfl

/-! ## The machine -/

/-- A thread: the allocations returned to it, its call and where it is, and its mutexes. -/
structure Caller where
  live : List Alloc
  call : Option (Op × Point)
  locks : List Mutex

/-- The shared state: that of the allocator, and the points passed so far with where they led. -/
structure Traced where
  bonus : BonusWorld
  trace : List (Point × Onward)

/-- The mutexes a thread has locked, after an action; the list is the thread's own and no action
reads it. -/
def Bonus.Action.after (locks : List Mutex) : Action → List Mutex
  | lock m _ => m :: locks
  | unlock m _ => locks.erase m
  | body _ => locks

/-- The thread after a step: it goes on, or its call returns. -/
def Caller.settle (live : List Alloc) (op : Op) (locks : List Mutex) : Onward → Caller
  | .at p => ⟨live, some (op, p), locks⟩
  | .done q => ⟨op.after bonus.zeroFrees live q, none, locks⟩

/-- The length of a resizing's mapping fits a `size_t`. The bonus `realloc` asks `alloc_block` for
any size (`malloc_bonus.c:352-354`), also for one that `malloc` would refuse. -/
def Op.Fits (op : Op) : Prop := ∀ p s, op = .realloc p s → p ≠ null → 48 + s < 2 ^ 64

/-- A step of a thread: it calls, or its call takes a step. -/
inductive CallerStep : Traced → Caller → Traced → Caller → Prop
  | call {T : Traced} {live : List Alloc} {op : Op} {locks : List Mutex} : op.Valid live →
      op.Fits → CallerStep T ⟨live, none, locks⟩ T (.settle live op locks op.enter)
  | exec {T : Traced} {W' : BonusWorld} {live : List Alloc} {op : Op} {p : Point}
      {locks : List Mutex} {o : Onward} : p.action.exec T.bonus = some (o, W') →
      CallerStep T ⟨live, some (op, p), locks⟩ ⟨W', (p, o) :: T.trace⟩
        (.settle live op (p.action.after locks) o)

/-- The threads before their first calls, without allocations or mutexes. -/
def Points.init (ι : Type) (P : Nat) (m : Mem) (answers : List (Option Nat)) :
    Sys ι Traced Caller :=
  ⟨⟨BonusWorld.init P m answers, []⟩, fun _ => ⟨[], none, []⟩⟩

/-- A state that some interleaving of any number of threads reaches, lock by lock. -/
def Points.Reachable {ι : Type} [DecidableEq ι] (P : Nat) (S : Sys ι Traced Caller) : Prop :=
  ValidPage P ∧ ∃ m answers, Sys.Reach CallerStep (Points.init ι P m answers) S

/-- The thread waits for the mutex `m`: locking it is its next step, and it is held. -/
def Caller.WaitsFor (W : BonusWorld) (t : Caller) (m : Mutex) : Prop :=
  W.held m = true ∧ ∃ op p p', t.call = some (op, p) ∧ p.action = .lock m p'

/-! ## Locks -/

/-- The mutexes that are locked at a point, by the source: `heap_mutex` in 229-236 of
`malloc_bonus.c`, that of a type in 241, 313, 353 and 362. -/
def Bonus.Point.locks : Point → List Mutex
  | .recheck _ | .makeTiny _ | .makeSmall _ | .publish _ | .unlockHeap _ _ => [.heap]
  | .alloc s | .unlockAlloc s _ => [mutexOf (typeOf s)]
  | .freeBlock _ type | .unlockFree type => [mutexOf type]
  | .grow _ s _ _ | .unlockGrow _ s _ _ _ => [mutexOf (typeOf s)]
  | .release _ _ type _ | .unlockRelease type _ => [mutexOf type]
  | _ => []

/-- The mutexes that are locked before what comes next: none where a call returns. -/
def Bonus.Onward.locks : Onward → List Mutex
  | .at p => p.locks
  | .done _ => []

/-- The mutexes that are locked where the thread is: none between its calls. -/
def Caller.due (t : Caller) : List Mutex :=
  match t.call with
  | some (_, p) => p.locks
  | none => []

variable {W W' : BonusWorld} {w w' : World} {p : Point} {o : Onward} {m : Mutex} {P : Nat} {op : Op}
  {live : List Alloc} {ls : List Mutex} {T T' : Traced} {t t' : Caller}

/-! ### What an action does -/

omit [Platform] in
theorem lock_exec {p' : Point} (h : (Action.lock m p').exec W = some (o, W')) :
    o = .at p' ∧ W.held m = false ∧ W' = { W with held := Function.update W.held m true } := by
  obtain ⟨u, V, hlock, ho⟩ := Prog.bind_eq_some.mp h
  obtain ⟨rfl, rfl⟩ := Prod.mk.inj (Option.some.inj ho)
  unfold Bonus.lock at hlock
  split at hlock
  · cases hlock
  · rename_i hfree
    cases hlock
    exact ⟨rfl, Bool.eq_false_of_not_eq_true hfree, rfl⟩

omit [Platform] in
theorem unlock_exec {o' : Onward} (h : (Action.unlock m o').exec W = some (o, W')) :
    o = o' ∧ W.held m = true ∧ W' = { W with held := Function.update W.held m false } := by
  obtain ⟨u, V, hunlock, ho⟩ := Prog.bind_eq_some.mp h
  obtain ⟨rfl, rfl⟩ := Prod.mk.inj (Option.some.inj ho)
  unfold Bonus.unlock at hunlock
  split at hunlock
  · rename_i hheld
    cases hunlock
    exact ⟨rfl, hheld, rfl⟩
  · cases hunlock

omit [Platform] in
theorem body_exec {x : C Onward} (h : (Action.body x).exec W = some (o, W')) :
    ∃ w', x W.world = some (o, w') ∧ W' = { W with world := w' } := by
  obtain ⟨⟨o', w'⟩, hx, he⟩ := Option.map_eq_some_iff.mp h
  obtain ⟨rfl, rfl⟩ := Prod.mk.inj he
  exact ⟨w', hx, rfl⟩

/-! ### Places -/

omit [Platform] in
/-- The result of a `do` block that ends with a pure step. -/
theorem map_locks {α : Type} {x : C α} {f : α → Onward} (hf : ∀ a, (f a).locks = ls)
    (h : (x >>= fun a => pure (f a)) w = some (o, w')) : o.locks = ls := by
  obtain ⟨a, v, -, ho⟩ := Prog.bind_eq_some.mp h
  obtain ⟨rfl, -⟩ := Prod.mk.inj (Option.some.inj ho)
  exact hf a

/-- **What is done between the locks** leaves them alone: the point a body leads to has the mutexes
of the point it starts from. -/
theorem body_locks {x : C Onward} (hx : p.action = .body x) (h : x w = some (o, w')) :
    o.locks = p.locks := by
  cases p with
  | freeHeader ptr =>
    cases hx
    obtain ⟨word, v, -, h⟩ := Prog.bind_eq_some.mp h
    split at h
    · obtain ⟨rfl, -⟩ := Prod.mk.inj (Option.some.inj h)
      rfl
    · refine map_locks (fun type => ?_) h
      split <;> rfl
  | header ptr size =>
    cases hx
    obtain ⟨word, v, -, h⟩ := Prog.bind_eq_some.mp h
    obtain ⟨type, v, -, h⟩ := Prog.bind_eq_some.mp h
    refine map_locks (fun current => ?_) h
    split <;> rfl
  | _ =>
    cases hx
    try
      refine map_locks (fun a => ?_) h
      first | rfl | (split <;> rfl)

/-- **Where a mutex is locked** none is held yet, and then that one is. -/
theorem lock_locks {p' : Point} (hp : p.action = .lock m p') : p.locks = [] ∧ p'.locks = [m] := by
  cases p <;> cases hp <;> exact ⟨rfl, rfl⟩

/-- **Where a mutex is unlocked** it is the one that is held, and then none is. -/
theorem unlock_locks (hp : p.action = .unlock m o) : p.locks = [m] ∧ o.locks = [] := by
  cases p with
  | unlockHeap s e =>
    cases hp
    refine ⟨rfl, ?_⟩
    split <;> rfl
  | unlockGrow ptr s type current new =>
    cases hp
    refine ⟨rfl, ?_⟩
    split <;> rfl
  | _ => cases hp <;> exact ⟨rfl, rfl⟩

omit [Platform] in
/-- No mutex is locked at the first point of a call, whichever it is. -/
theorem enter_locks (op : Op) : op.enter.locks = [] := by
  have hmalloc : ∀ s, (enterMalloc s).locks = [] := fun s => by
    unfold enterMalloc
    split <;> rfl
  cases op with
  | malloc s => exact hmalloc s
  | free p =>
    change (enterFree p).locks = []
    unfold enterFree
    split <;> rfl
  | realloc p s =>
    change (enterRealloc p s).locks = []
    unfold enterRealloc
    split
    · exact hmalloc s
    · split <;> rfl
  | write a b => rfl

theorem settle_due (live : List Alloc) (op : Op) (ls : List Mutex) (o : Onward) :
    (Caller.settle live op ls o).due = o.locks := by
  cases o <;> rfl

theorem settle_locks (live : List Alloc) (op : Op) (ls : List Mutex) (o : Onward) :
    (Caller.settle live op ls o).locks = ls := by
  cases o <;> rfl

/-- **One step** keeps a thread's list that of its place, and is a `LockStep`. -/
theorem CallerStep.lockStep (hs : CallerStep T t T' t') (ht : t.locks = t.due) :
    t'.locks = t'.due ∧ LockStep T.bonus.held t.locks T'.bonus.held t'.locks := by
  cases hs with
  | call hv hl =>
    rw [settle_due, settle_locks, enter_locks]
    exact ⟨ht, .keep⟩
  | @exec W' live op p locks o hrun =>
    rw [settle_due, settle_locks]
    obtain rfl : locks = p.locks := ht
    cases hp : p.action with
    | lock m p' =>
      obtain ⟨h0, h1⟩ := lock_locks hp
      rw [hp] at hrun
      obtain ⟨rfl, hfree, rfl⟩ := lock_exec hrun
      refine ⟨?_, .lock m hfree⟩
      change m :: p.locks = p'.locks
      rw [h0, h1]
    | unlock m o' =>
      obtain ⟨h1, h0⟩ := unlock_locks hp
      rw [hp] at hrun
      obtain ⟨rfl, -, rfl⟩ := unlock_exec hrun
      refine ⟨?_, .unlock m ?_⟩
      · change p.locks.erase m = _
        rw [h0, h1, List.erase_cons_head]
      · rw [h1]
        exact List.mem_singleton_self m
    | body x =>
      rw [hp] at hrun
      obtain ⟨w', hx, rfl⟩ := body_exec hrun
      exact ⟨(body_locks hp hx).symm, .keep⟩

variable {ι : Type} [DecidableEq ι] {S S' : Sys ι Traced Caller}

/-- The lock discipline of a state: the mutexes held are those on the threads' lists, and each list
is that of the thread's place. -/
structure LocksKept (S : Sys ι Traced Caller) : Prop where
  balanced : Balanced (fun T : Traced => T.bonus.held) Caller.locks S
  due : ∀ i, (S.thread i).locks = (S.thread i).due

omit [Platform] in
omit [DecidableEq ι] in
theorem LocksKept.locks_at (hd : LocksKept S) {i : ι}
    (hi : S.thread i = ⟨live, some (op, p), ls⟩) : ls = p.locks := by
  have hdue := hd.due i
  rwa [hi] at hdue

theorem LocksKept.step (hd : LocksKept S) (hs : Sys.Step CallerStep S S') : LocksKept S' := by
  obtain ⟨i, hn⟩ := hs
  obtain ⟨hdue, hlock⟩ := hn.lockStep (hd.due i)
  refine ⟨hd.balanced.step hlock, fun j => ?_⟩
  by_cases hj : j = i
  · subst hj
    rwa [Sys.set_thread]
  · rw [Sys.set_thread_ne hj]
    exact hd.due j

/-- A call that begins, as a step of the machine. -/
theorem Points.Reachable.call (hS : Points.Reachable P S) {i : ι}
    (hi : S.thread i = ⟨live, none, ls⟩) (hv : op.Valid live) (hl : op.Fits) :
    Points.Reachable P (S.set i S.shared (.settle live op ls op.enter)) := by
  obtain ⟨hP, m, answers, hreach⟩ := hS
  refine ⟨hP, m, answers, hreach.tail (Sys.Step.mk i ?_)⟩
  rw [hi]
  exact CallerStep.call hv hl

/-- A call that takes a step, as a step of the machine. -/
theorem Points.Reachable.exec (hS : Points.Reachable P S) {i : ι}
    (hi : S.thread i = ⟨live, some (op, p), ls⟩)
    (hrun : p.action.exec S.shared.bonus = some (o, W')) :
    Points.Reachable P
      (S.set i ⟨W', (p, o) :: S.shared.trace⟩ (.settle live op (p.action.after ls) o)) := by
  obtain ⟨hP, m, answers, hreach⟩ := hS
  refine ⟨hP, m, answers, hreach.tail (Sys.Step.mk i ?_)⟩
  rw [hi]
  exact CallerStep.exec hrun

omit [Platform] in
omit [DecidableEq ι] in
/-- A thread without a call has no mutex: on every way out of a call there is an unlock. -/
theorem LocksKept.idle (hd : LocksKept S) {i : ι} (hi : (S.thread i).call = none) :
    (S.thread i).locks = [] := by
  rw [hd.due i, Caller.due, hi]

/-- **The lock discipline holds in every state that some interleaving reaches**, by induction on the
interleaving. -/
theorem points_balanced (hS : Points.Reachable P S) : LocksKept S := by
  obtain ⟨-, m, answers, hreach⟩ := hS
  induction hreach with
  | refl =>
    exact ⟨⟨fun _ => List.nodup_nil, fun _ _ hm => absurd hm List.not_mem_nil,
      fun _ hm => Bool.noConfusion hm, fun _ _ _ hm => absurd hm List.not_mem_nil⟩, fun _ => rfl⟩
  | tail _ hs ih => exact ih.step hs

/-! ## A call alone -/

theorem Points.Reachable.trans (hS : Points.Reachable P S) (hr : Sys.Reach CallerStep S S') :
    Points.Reachable P S' := by
  obtain ⟨hP, m, answers, hreach⟩ := hS
  exact ⟨hP, m, answers, hreach.trans hr⟩

/-- The rest of a call that no other thread interrupts, by induction on its points. -/
theorem Onward.reach {i : ι} (live : List Alloc) (op : Op) {n q : Nat}
    (hrun : o.run n T.bonus = some (q, W')) :
    ∃ ls' trace, Sys.Reach CallerStep (S.set i T (.settle live op ls o))
      (S.set i ⟨W', trace⟩ (.settle live op ls' (.done q))) := by
  induction n generalizing o T ls with
  | zero =>
    cases o with
    | «at» p => cases hrun
    | done q' =>
      obtain ⟨rfl, rfl⟩ := Prod.mk.inj (Option.some.inj hrun)
      exact ⟨_, _, Relation.ReflTransGen.refl⟩
  | succ n ih =>
    cases o with
    | «at» p =>
      obtain ⟨o, W₁, h1, h2⟩ := Prog.bind_eq_some.mp hrun
      have hexec : CallerStep T (.settle live op ls (.at p)) ⟨W₁, (p, o) :: T.trace⟩
          (.settle live op (p.action.after ls) o) := CallerStep.exec h1
      have hstep := Sys.Step.mk (S := S.set i T (.settle live op ls (.at p))) i
        (by rw [Sys.set_thread]; exact hexec)
      rw [Sys.set_set] at hstep
      obtain ⟨ls', trace, hrest⟩ := ih (T := ⟨W₁, (p, o) :: T.trace⟩) h2
      exact ⟨ls', trace, Relation.ReflTransGen.head hstep hrest⟩
    | done q' =>
      obtain ⟨rfl, rfl⟩ := Prod.mk.inj (Option.some.inj hrun)
      exact ⟨_, _, Relation.ReflTransGen.refl⟩

/-- **A call that no other thread interrupts** leaves its thread without a mutex. -/
theorem Points.Reachable.alone (hS : Points.Reachable P S) {i : ι} {q : Nat}
    (hi : S.thread i = ⟨live, none, []⟩) (hv : op.Valid live) (hl : op.Fits)
    (hrun : bonus.call op S.shared.bonus = some (q, W')) :
    ∃ trace, Sys.Reach CallerStep S
      (S.set i ⟨W', trace⟩ ⟨op.after bonus.zeroFrees live q, none, []⟩) := by
  rw [call_eq_points] at hrun
  have hcall : CallerStep S.shared (S.thread i) S.shared (.settle live op [] op.enter) := by
    rw [hi]
    exact CallerStep.call hv hl
  obtain ⟨ls, trace, hrest⟩ := Onward.reach (S := S) (i := i) (T := S.shared) live op hrun
  have hreach := Relation.ReflTransGen.head (Sys.Step.mk i hcall) hrest
  have hnone := (points_balanced (hS.trans hreach)).idle (i := i) (by rw [Sys.set_thread]; rfl)
  rw [Sys.set_thread] at hnone
  obtain rfl : ls = [] := hnone
  exact ⟨trace, hreach⟩

end FtMalloc
