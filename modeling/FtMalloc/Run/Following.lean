import FtMalloc.Run.Sections

/-!
# Sections are atomic

What the threads do lock by lock (`Run/Points.lean`) they also do with each section and the whole
setup as one step (`Run/Threads.lean`): thread by thread the calls are at the same places
(`Follows`), and the heap is the same unless a setup is under way (`Simulates`). While it is, no
other thread has anything to do with the heap, for nothing is allocated yet.

A `realloc(p, 0)` of a live pointer is a `free(p)` there (`Op.coarse`), and a call that is turned
away at once is none.

Results:
* `points_follow`: every state that some interleaving of the points reaches follows one that an
  interleaving of the larger steps reaches, so the invariants of `Run/Interleaving.lean` are about
  both.
* `points_total`: unless it waits for a mutex that is held, a thread's next step runs.
-/

namespace FtMalloc

open Lib Bonus

variable {P : Nat} {A : AHeap} {w w' v : World} {p p' : Point} {o : Onward} {m : Mutex} {pc : Pc}
  {live : List Alloc} {op : Op} {before : Mem} {ls ls' : List Mutex} {t t' : Caller} {u u' : Thread}
  {q s : Nat} {x : C Onward}

/-! ## The simulation -/

variable [Platform]

/-- A thread among the larger steps: its call is at the same place, or has returned already and
only unlocks. -/
inductive Follows : Caller → Thread → Prop
  | idle {live : List Alloc} {ls : List Mutex} : Follows ⟨live, none, ls⟩ ⟨live, none⟩
  | going {live : List Alloc} {op : Op} {p : Point} {ls : List Mutex} {pc : Pc} (before : Mem) :
      p.coarse = .go pc → Follows ⟨live, some (op, p), ls⟩ ⟨live, some ⟨op.coarse, before, pc⟩⟩
  | leaving {live : List Alloc} {op : Op} {p : Point} {ls : List Mutex} {q : Nat} :
      p.coarse = .done q →
      Follows ⟨live, some (op, p), ls⟩ ⟨op.after bonus.zeroFrees live q, none⟩

theorem Follows.settle_going (before : Mem) (ho : o.coarse = .go pc) :
    Follows (.settle live op ls o) ⟨live, some ⟨op.coarse, before, pc⟩⟩ := by
  cases o with
  | «at» p => exact .going before ho
  | done q => cases ho

theorem Follows.settle_done (ho : o.coarse = .done q) :
    Follows (.settle live op ls o) ⟨op.after bonus.zeroFrees live q, none⟩ := by
  cases o with
  | «at» p => exact .leaving ho
  | done q' =>
    cases ho
    exact .idle

/-- A step that leaves the place as it is: a lock, an unlock that does not end the call, or a part
of the setup. -/
theorem Follows.stutter (hf : Follows ⟨live, some (op, p), ls⟩ u) (ho : o.coarse = p.coarse) :
    Follows (.settle live op ls' o) u := by
  cases hf with
  | going before hp => exact .settle_going before (ho.trans hp)
  | leaving hp => exact .settle_done (ho.trans hp)

/-- A step that is one of the larger ones, or ends with one: the places after it agree. -/
theorem Follows.settle (before : Mem) (hafter : ∀ q, o.coarse = .done q →
      op.after bonus.zeroFrees live q = op.coarse.after bonus.zeroFrees live q) :
    Follows (.settle live op ls o) (.settle live op.coarse before o.coarse) := by
  cases ho : o.coarse with
  | go pc => exact .settle_going before ho
  | done q =>
    rw [Thread.settle, ← hafter q ho]
    exact .settle_done ho

/-! ### What the invariants of the larger steps say -/

omit [Platform] in
theorem coarse_cases (op : Op) :
    op.coarse = op ∨ ∃ ptr, op = .realloc ptr 0 ∧ op.coarse = .free ptr := by
  cases op with
  | realloc ptr s =>
    by_cases h : ptr ≠ null ∧ s = 0
    · obtain ⟨hptr, rfl⟩ := h
      exact Or.inr ⟨ptr, rfl, if_pos ⟨hptr, rfl⟩⟩
    · exact Or.inl (if_neg h)
  | _ => exact Or.inl rfl

/-- `free` returns nothing, which stands as NULL in both machines. -/
theorem free_returns_null {ptr : Nat} {W W' : BonusWorld}
    (hpc : pc = .freeHeader ptr ∨ ∃ type, pc = .freeBlock ptr type)
    (hrun : pc.exec W = some (.done q, W')) : q = null := by
  rcases hpc with rfl | ⟨type, rfl⟩
  · obtain ⟨⟨n, v⟩, h, he⟩ := Option.map_eq_some_iff.mp hrun
    obtain ⟨rfl, -⟩ := Prod.mk.inj he
    obtain ⟨word, v, -, h⟩ := Prog.bind_eq_some.mp h
    split at h
    · cases h
      rfl
    · obtain ⟨type, v, -, h⟩ := Prog.bind_eq_some.mp h
      obtain ⟨he, -⟩ := Prod.mk.inj (Option.some.inj h)
      split at he
      · cases he
        rfl
      · cases he
  · obtain ⟨_, v, -, h⟩ := Prog.bind_eq_some.mp hrun
    cases h
    rfl

/-- A call that returns leaves the client with the same in both machines, also where `realloc(p, 0)`
is a `free` in the smaller one. -/
theorem Standing.after_coarse {W W' : BonusWorld}
    (hs : Standing P A W.world.mem live ⟨op.coarse, before, pc⟩)
    (hrun : pc.exec W = some (.done q, W')) :
    op.after bonus.zeroFrees live q = op.coarse.after bonus.zeroFrees live q := by
  rcases coarse_cases op with h | ⟨ptr, rfl, h⟩
  · rw [h]
  · rw [h] at hs ⊢
    have hnull : q = null := by
      generalize ha : Activity.mk (.free ptr) before pc = a at hs
      cases hs with
      | freeHeader => cases ha; exact free_returns_null (Or.inl rfl) hrun
      | freeBlock => cases ha; exact free_returns_null (Or.inr ⟨_, rfl⟩) hrun
      | check hm => cases ha; exact absurd hm.1 (by simp)
      | setup hm => cases ha; exact absurd hm.1 (by simp)
      | alloc hm => cases ha; exact absurd hm.1 (by simp)
      | _ => cases ha
    subst hnull
    rfl

omit [Platform] in
/-- A call that is past the setup has an initialised heap: it owns a block, or `malloc` has seen the
flag. -/
theorem Standing.initialized {a : Activity} {m : Mem} (hok : A.Ok P)
    (ho : Owned P A (a.pc.pending ++ live)) (hs : Standing P A m live a) :
    A.initialized = true ∨ ∃ s, a.pc = .check s ∨ a.pc = .setup s := by
  cases hs with
  | store hv =>
    obtain ⟨x, hx, -⟩ := hv
    obtain ⟨k, hk, -⟩ := ho.cell x hx
    exact Or.inl (hok.initialized_of_holds hk)
  | check => exact Or.inr ⟨_, Or.inl rfl⟩
  | setup => exact Or.inr ⟨_, Or.inr rfl⟩
  | alloc _ hi => exact Or.inl hi
  | freeHeader hk => exact Or.inl (hok.initialized_of_holds hk)
  | freeBlock hk => exact Or.inl (hok.initialized_of_holds hk)
  | header hr => exact Or.inl (hok.initialized_of_holds hr.held)
  | grow hr => exact Or.inl (hok.initialized_of_holds hr.held)
  | copy hv => exact Or.inl (hok.initialized_of_holds hv.held)
  | release hv => exact Or.inl (hok.initialized_of_holds hv.held)

/-! ### The relation -/

/-- The points inside `setup_global_heap`, where the heap is neither that before the setup nor that
after it. -/
def Bonus.Point.Mid : Point → Prop
  | .makeTiny _ | .makeSmall _ | .publish _ => True
  | _ => False

omit [Platform] in
theorem Setting.mid (hs : Setting p v w) : p.Mid := by
  cases hs <;> trivial

omit [Platform] in
/-- Inside the setup `heap_mutex` is locked, so at most one thread is there. -/
theorem locks_of_mid (hm : p.Mid) : p.locks = [.heap] := by
  cases p <;> first | rfl | exact hm.elim

/-- Locking and unlocking is outside the setup. -/
theorem not_mid_of_lock (hp : p.action = .lock m p') : ¬p.Mid := by
  cases p <;> first | exact id | cases hp

theorem not_mid_of_locked (hp : p.action = .lock m p') : ¬p'.Mid := by
  cases p <;> cases hp <;> exact id

theorem not_mid_of_unlock (hp : p.action = .unlock m o) : ¬p.Mid := by
  cases p <;> first | exact id | cases hp

/-- Where a thread goes on, if its call has not returned. -/
theorem settle_call {op' : Op} (hc : (Caller.settle live op ls o).call = some (op', p)) :
    o = .at p := by
  cases o with
  | «at» p' =>
    cases hc
    rfl
  | done q => cases hc

variable {ι : Type} [DecidableEq ι] {S S' : Sys ι Traced Caller} {U U' : Sys ι BonusWorld Thread}
  {i : ι} {T : Traced}

/-- **`S` follows `U`**: the threads are at the same places, and the heap is the same, or a setup
that is one step in `U` is under way in `S`. -/
structure Simulates (S : Sys ι Traced Caller) (U : Sys ι BonusWorld Thread) : Prop where
  follows : ∀ i, Follows (S.thread i) (U.thread i)
  world : (S.shared.bonus.world = U.shared.world ∧
      ∀ i op p, (S.thread i).call = some (op, p) → ¬p.Mid) ∨
    ∃ i op p, (S.thread i).call = some (op, p) ∧ Setting p U.shared.world S.shared.bonus.world

/-- The places after a step of thread `i`, the others being where they were. -/
theorem follows_set (hf : ∀ j, Follows (S.thread j) (U.thread j)) (hi : Follows t' (U'.thread i))
    (hothers : ∀ j, j ≠ i → U'.thread j = U.thread j) (j : ι) :
    Follows ((S.set i T t').thread j) (U'.thread j) := by
  by_cases hj : j = i
  · subst hj
    rwa [Sys.set_thread]
  · rw [Sys.set_thread_ne hj, hothers j hj]
    exact hf j

omit [Platform] in
/-- Nobody is inside the setup after a step of thread `i` that is not. -/
theorem no_mid_set (hno : ∀ j, j ≠ i → ∀ op p, (S.thread j).call = some (op, p) → ¬p.Mid)
    (hi : ∀ op p, t'.call = some (op, p) → ¬p.Mid) :
    ∀ j op p, ((S.set i T t').thread j).call = some (op, p) → ¬p.Mid := by
  intro j op p hc
  by_cases hj : j = i
  · subst hj
    rw [Sys.set_thread] at hc
    exact hi op p hc
  · rw [Sys.set_thread_ne hj] at hc
    exact hno j hj op p hc

omit [Platform] in
omit [DecidableEq ι] in
/-- A thread with `heap_mutex` is the only one inside the setup, by the lock discipline. -/
theorem LocksKept.alone (hd : LocksKept S) (hi : Mutex.heap ∈ (S.thread i).locks) :
    ∀ j, j ≠ i → ∀ op p, (S.thread j).call = some (op, p) → ¬p.Mid := by
  intro j hj op p hc hm
  refine hj (hd.balanced.exclusive j i .heap ?_ hi)
  have hdue : (S.thread j).due = p.locks := by
    unfold Caller.due
    rw [hc]
  rw [hd.due j, hdue, locks_of_mid hm]
  exact List.mem_singleton_self _

theorem Threads.Reachable.exec (hU : Threads.Reachable P U) {a : Activity} {n : Next}
    {V : BonusWorld} (hi : U.thread i = ⟨live, some a⟩) (hrun : a.pc.exec U.shared = some (n, V)) :
    Threads.Reachable P (U.set i V (.settle live a.op a.before n)) := by
  obtain ⟨hP, m, answers, hreach⟩ := hU
  refine ⟨hP, m, answers, hreach.tail (Sys.Step.mk i ?_)⟩
  rw [hi]
  exact ThreadStepIn.exec hrun

theorem Threads.Reachable.call (hU : Threads.Reachable P U) (hi : U.thread i = ⟨live, none⟩)
    (hv : op.Valid live) (hr : op.InBounds) :
    Threads.Reachable P (U.set i U.shared (.settle live op U.shared.world.mem op.start)) := by
  obtain ⟨hP, m, answers, hreach⟩ := hU
  refine ⟨hP, m, answers, hreach.tail (Sys.Step.mk i ?_)⟩
  rw [hi]
  exact ThreadStepIn.call hv hr

/-! ### Steps -/

/-- **A call begins** in both machines, or is turned away in the smaller one. -/
theorem call_follows (ls : List Mutex) (hU : Threads.Reachable P U)
    (hi : U.thread i = ⟨live, none⟩) (hv : op.Valid live) (hl : op.Fits) :
    ∃ U', Threads.Reachable P U' ∧ U'.shared = U.shared ∧
      Follows (.settle live op ls op.enter) (U'.thread i) ∧
      ∀ j, j ≠ i → U'.thread j = U.thread j := by
  have hgo : op.coarse.Valid live → op.coarse.InBounds → op.enter.coarse = op.coarse.start →
      (∀ q, op.enter.coarse = .done q →
        op.after bonus.zeroFrees live q = op.coarse.after bonus.zeroFrees live q) →
      ∃ U', Threads.Reachable P U' ∧ U'.shared = U.shared ∧
        Follows (.settle live op ls op.enter) (U'.thread i) ∧
        ∀ j, j ≠ i → U'.thread j = U.thread j := by
    intro hv hr henter hafter
    refine ⟨_, hU.call hi hv hr, rfl, ?_, fun j hj => Sys.set_thread_ne hj⟩
    rw [Sys.set_thread, ← henter]
    exact Follows.settle _ hafter
  have hstill : op.enter = .done null → op.after bonus.zeroFrees live null = live →
      ∃ U', Threads.Reachable P U' ∧ U'.shared = U.shared ∧
        Follows (.settle live op ls op.enter) (U'.thread i) ∧
        ∀ j, j ≠ i → U'.thread j = U.thread j := by
    intro henter hafter
    refine ⟨U, hU, rfl, ?_, fun _ _ => rfl⟩
    rw [henter, hi, Caller.settle, hafter]
    exact .idle
  cases op with
  | malloc s =>
    by_cases h : s = 0 ∨ s > ptrdiffMax
    · exact hstill (if_pos h) rfl
    · refine hgo hv (by simp only [Op.coarse, Op.InBounds]; omega) ?_ fun _ _ => rfl
      change (enterMalloc s).coarse = startMalloc s
      rw [enterMalloc, startMalloc, if_neg h, if_neg h]
      rfl
  | free ptr =>
    refine hgo hv trivial ?_ fun _ _ => rfl
    change (enterFree ptr).coarse = startFree ptr
    unfold enterFree startFree
    split <;> rfl
  | realloc ptr s =>
    by_cases hptr : ptr = null
    · subst hptr
      have hcoarse : (Op.realloc null s).coarse = .realloc null s := by simp [Op.coarse]
      by_cases h : s = 0 ∨ s > ptrdiffMax
      · have ⟨A, hh⟩ := threads_inv hU
        have howned := (hh.own i).owned
        rw [hi] at howned
        have hdrop : drop live null = live :=
          drop_of_not_mem (howned.ptr_ne_null hU.1 hh.shared.rep)
        refine hstill (if_pos h) ?_
        simp only [Op.after, ne_eq, not_true_eq_false, if_false, hdrop, ite_self]
      · have hsize : 1 ≤ s ∧ s ≤ ptrdiffMax := by omega
        have hwrap : 48 + s < 2 ^ 64 := length_lt_of_le_ptrdiffMax hsize.2
        rw [hcoarse] at hgo
        refine hgo hv ⟨hsize.1, hwrap, fun _ => hsize.2⟩ ?_ fun _ _ => rfl
        change (enterMalloc s).coarse = startMalloc s
        rw [enterMalloc, startMalloc, if_neg h, if_neg h]
        rfl
    · by_cases h0 : s = 0
      · subst h0
        have hcoarse : (Op.realloc ptr 0).coarse = .free ptr := if_pos ⟨hptr, rfl⟩
        have henter : (Op.realloc ptr 0).enter.coarse = .go (.freeHeader ptr) := by
          change (enterRealloc ptr 0).coarse = _
          rw [enterRealloc, if_neg hptr, if_pos rfl]
          rfl
        rw [hcoarse, henter] at hgo
        refine hgo hv.2 trivial ?_ fun q hq => by cases hq
        change _ = startFree ptr
        rw [startFree, if_neg hptr]
      · have hcoarse : (Op.realloc ptr s).coarse = .realloc ptr s := if_neg fun h => h0 h.2
        rw [hcoarse] at hgo
        refine hgo hv ⟨by omega, hl ptr s rfl hptr, fun h => absurd h hptr⟩ ?_ fun _ _ => rfl
        change (enterRealloc ptr s).coarse = startRealloc ptr s
        rw [enterRealloc, startRealloc, if_neg hptr, if_neg hptr, if_neg h0, if_neg h0]
        rfl
  | write a b => exact hgo hv trivial rfl fun _ _ => rfl

/-- **A step that is one of the larger ones**, in a state whose heap is the same. -/
theorem exec_follows (ls' : List Mutex) (hU : Threads.Reachable P U)
    (hf : Follows ⟨live, some (op, p), ls⟩ (U.thread i)) (hp : p.coarse = .go pc)
    (hrun : pc.exec U.shared = some (o.coarse, ⟨w', unlocked⟩)) :
    ∃ U', Threads.Reachable P U' ∧ U'.shared = ⟨w', unlocked⟩ ∧
      Follows (.settle live op ls' o) (U'.thread i) ∧ ∀ j, j ≠ i → U'.thread j = U.thread j := by
  generalize hu : U.thread i = u at hf
  cases hf with
  | leaving hq => rw [hp] at hq; cases hq
  | going before hp' =>
    rw [hp] at hp'
    cases hp'
    refine ⟨_, hU.exec hu hrun, rfl, ?_, fun j hj => Sys.set_thread_ne hj⟩
    rw [Sys.set_thread]
    refine Follows.settle _ fun q hq => ?_
    obtain ⟨A, hh⟩ := threads_inv hU
    have ht := hh.own i
    rw [hu] at ht
    rw [hq] at hrun
    exact (ht.call _ rfl).after_coarse hrun

omit [Platform] in
theorem mutexOf_ne_heap (type : Int) : mutexOf type ≠ .heap := by
  unfold mutexOf
  split
  · exact Mutex.noConfusion
  · split <;> exact Mutex.noConfusion

/-- Between its lock and its unlock `heap_mutex` protects the setup only
(`malloc_bonus.c:228-236`). -/
theorem inSetup_of_heap (hx : p.action = .body x) (hp : p.locks = [.heap]) : p.InSetup := by
  have hne : ∀ {type : Int}, [mutexOf type] ≠ [Mutex.heap] := fun h =>
    mutexOf_ne_heap _ (List.singleton_inj.mp h)
  cases p with
  | alloc s => exact absurd hp hne
  | freeBlock ptr type => exact absurd hp hne
  | grow ptr s type current => exact absurd hp hne
  | release ptr s type new => exact absurd hp hne
  | recheck s | makeTiny s | makeSmall s | publish s => trivial
  | unlockHeap s e => cases hx
  | _ => first | cases hp | cases hx

/-- A step that leaves the heap and the place as they are has no counterpart in the smaller
machine. -/
theorem Simulates.stutter (hsim : Simulates S U) (hi : S.thread i = ⟨live, some (op, p), ls⟩)
    (ho : o.coarse = p.coarse) (hp : ¬p.Mid) (hmid : ∀ p', o = .at p' → ¬p'.Mid)
    (hT : T.bonus.world = S.shared.bonus.world) :
    Simulates (S.set i T (.settle live op ls' o)) U := by
  have hf := hsim.follows i
  rw [hi] at hf
  refine ⟨follows_set hsim.follows (hf.stutter ho) fun _ _ => rfl, ?_⟩
  rcases hsim.world with ⟨hw, hno⟩ | ⟨k, op', p', hc, hset⟩
  · refine Or.inl ⟨hT.trans hw, no_mid_set (fun j _ => hno j) fun op' p' hc => ?_⟩
    exact hmid p' (settle_call hc)
  · refine Or.inr ⟨k, op', p', ?_, ?_⟩
    · have hk : k ≠ i := by
        rintro rfl
        rw [hi] at hc
        cases hc
        exact hp hset.mid
      rw [Sys.set_thread_ne hk]
      exact hc
    · change Setting p' U.shared.world T.bonus.world
      rw [hT]
      exact hset

/-- A step that begins a call begins it in the smaller machine too, or is turned away there. -/
theorem Simulates.call (hU : Threads.Reachable P U) (hsim : Simulates S U)
    (hi : S.thread i = ⟨live, none, ls⟩) (hv : op.Valid live) (hl : op.Fits) :
    ∃ U', Threads.Reachable P U' ∧
      Simulates (S.set i S.shared (.settle live op ls op.enter)) U' := by
  have hf := hsim.follows i
  rw [hi] at hf
  have hu : U.thread i = ⟨live, none⟩ := by
    generalize U.thread i = u at hf
    cases hf
    rfl
  obtain ⟨U', hU', hshared, hf', hothers⟩ := call_follows ls hU hu hv hl
  refine ⟨U', hU', follows_set hsim.follows hf' hothers, ?_⟩
  rw [hshared]
  rcases hsim.world with ⟨hw, hno⟩ | ⟨k, op', p', hc, hset⟩
  · refine Or.inl ⟨hw, no_mid_set (fun j _ => hno j) fun op' p' hc hm => ?_⟩
    have hlocks := enter_locks op
    rw [settle_call hc] at hlocks
    exact absurd ((locks_of_mid hm).symm.trans hlocks) (List.cons_ne_nil _ _)
  · refine Or.inr ⟨k, op', p', ?_, hset⟩
    have hk : k ≠ i := by
      rintro rfl
      rw [hi] at hc
      cases hc
    rw [Sys.set_thread_ne hk]
    exact hc

/-- While another thread is inside the setup, there is only the first test to make: every other body
needs an initialised heap or `heap_mutex`. -/
theorem Simulates.only_check (hU : Threads.Reachable P U) (hsim : Simulates S U)
    (hi : S.thread i = ⟨live, some (op, p), ls⟩) (hx : p.action = .body x) (hp : ¬p.InSetup)
    (hset : Setting p' U.shared.world w) : ∃ s, p = .check s := by
  obtain ⟨A, hh⟩ := threads_inv hU
  obtain ⟨-, -, -, hunset, -⟩ := hset.rep hU.1 hh.shared.rep
  have ht := hh.own i
  have hf := hsim.follows i
  rw [hi] at hf
  generalize U.thread i = u at hf ht
  cases hf with
  | leaving hq =>
    obtain ⟨pc, hpc⟩ := coarse_of_body hx
    rw [hq] at hpc
    cases hpc
  | going before hpc =>
    rcases (ht.call _ rfl).initialized hh.shared.ok ht.owned with hready | ⟨s, rfl | rfl⟩
    · rw [hunset] at hready
      cases hready
    · exact ⟨s, check_of_coarse hpc⟩
    · exact absurd (inSetup_of_coarse hx hpc) hp

/-- The body of a section is that section's step in the smaller machine, at this moment. -/
theorem Simulates.body (hU : Threads.Reachable P U) (hsim : Simulates S U)
    (hi : S.thread i = ⟨live, some (op, p), ls⟩) (hx : p.action = .body x) (hp : ¬p.InSetup)
    (hrun : x S.shared.bonus.world = some (o, w')) (hT : T.bonus.world = w') :
    ∃ U', Threads.Reachable P U' ∧ Simulates (S.set i T (.settle live op ls' o)) U' := by
  obtain ⟨A, hh⟩ := threads_inv hU
  have hf := hsim.follows i
  rw [hi] at hf
  obtain ⟨pc, hpc, hexec⟩ := body_coarse hx hrun hp
  have hmid : ∀ p', o = .at p' → ¬p'.Mid := by
    rintro p' rfl hm
    exact hp (inSetup_of_heap hx ((body_locks hx hrun).symm.trans (locks_of_mid hm)))
  have hshared : U.shared = ⟨U.shared.world, unlocked⟩ := by
    rw [← hh.shared.free]
  rcases hsim.world with ⟨hw, hno⟩ | ⟨k, op', p', hc, hset⟩
  · rw [hw, ← hshared] at hexec
    obtain ⟨U', hU', hworld, hf', hothers⟩ := exec_follows ls' hU hf hpc hexec
    refine ⟨U', hU', follows_set hsim.follows hf' hothers, Or.inl ⟨?_, ?_⟩⟩
    · rw [hworld]
      exact hT
    · exact no_mid_set (fun j _ => hno j) fun op' p' hc => hmid p' (settle_call hc)
  · obtain ⟨A', hr', hflag', hunset, -⟩ := hset.rep hU.1 hh.shared.rep
    obtain ⟨s, rfl⟩ := hsim.only_check hU hi hx hp hset
    cases hx
    have hw0 : S.shared.bonus.world.heap.initialized = 0 := by
      rw [hr'.flag, hflag', hunset]
      rfl
    have hv0 : U.shared.world.heap.initialized = 0 := by
      rw [hh.shared.rep.flag, hunset]
      rfl
    obtain ⟨ho, hw'⟩ := Prod.mk.inj (Option.some.inj hrun)
    rw [if_pos hw0] at ho
    subst ho
    have hexec : (Pc.check s).exec U.shared =
        some (.go (.setup s), ⟨U.shared.world, unlocked⟩) := by
      rw [← hshared]
      refine Prog.bind_to rfl ?_
      rw [if_pos hv0]
      rfl
    obtain ⟨U', hU', hworld, hf', hothers⟩ :=
      exec_follows (o := .at (.lockHeap s)) ls' hU hf rfl hexec
    refine ⟨U', hU', follows_set hsim.follows hf' hothers, Or.inr ⟨k, op', p', ?_, ?_⟩⟩
    · have hk : k ≠ i := by
        rintro rfl
        rw [hi] at hc
        cases hc
        exact hset.mid
      rw [Sys.set_thread_ne hk]
      exact hc
    · change Setting p' U'.shared.world T.bonus.world
      rw [hworld, hT, ← hw']
      exact hset

/-- A step of the setup: the smaller machine takes its one step when the setup ends, with an error
or with the flag set. -/
theorem Simulates.setup (hU : Threads.Reachable P U) (hd : LocksKept S) (hsim : Simulates S U)
    (hi : S.thread i = ⟨live, some (op, p), ls⟩) (hx : p.action = .body x) (hp : p.InSetup)
    (hrun : x S.shared.bonus.world = some (o, w')) (hT : T.bonus.world = w') :
    ∃ U', Threads.Reachable P U' ∧ Simulates (S.set i T (.settle live op ls' o)) U' := by
  obtain ⟨A, hh⟩ := threads_inv hU
  have hf := hsim.follows i
  rw [hi] at hf
  have hlocks : p.locks = [.heap] := by
    cases p <;> first | rfl | exact hp.elim
  have halone := hd.alone (i := i) (by
    rw [hi, hd.locks_at hi, hlocks]
    exact List.mem_singleton_self _)
  have hshared : U.shared = ⟨U.shared.world, unlocked⟩ := by
    rw [← hh.shared.free]
  -- the section ends with this step
  have hends : ∀ {s e pc}, o = .at (.unlockHeap s e) → p.coarse = .go pc →
      pc.exec U.shared = some (o.coarse, ⟨w', unlocked⟩) →
      ∃ U', Threads.Reachable P U' ∧ Simulates (S.set i T (.settle live op ls' o)) U' := by
    intro s e pc ho hpc hexec
    obtain ⟨U', hU', hworld, hf', hothers⟩ := exec_follows ls' hU hf hpc hexec
    refine ⟨U', hU', follows_set hsim.follows hf' hothers, Or.inl ⟨?_, ?_⟩⟩
    · rw [hworld]
      exact hT
    · refine no_mid_set halone fun op' p' hc => ?_
      obtain rfl : p' = .unlockHeap s e := by
        have := settle_call hc
        rw [ho] at this
        exact (Onward.at.inj this).symm
      exact id
  -- the section goes on
  have hgoes : ∀ {p'}, o = .at p' → Setting p' U.shared.world w' → p'.coarse = p.coarse →
      ∃ U', Threads.Reachable P U' ∧ Simulates (S.set i T (.settle live op ls' o)) U' := by
    rintro p' rfl hset hpc
    refine ⟨U, hU, follows_set hsim.follows (hf.stutter hpc) fun _ _ => rfl, Or.inr ?_⟩
    refine ⟨i, op, p', by rw [Sys.set_thread]; rfl, ?_⟩
    change Setting p' U.shared.world T.bonus.world
    rw [hT]
    exact hset
  rcases hsim.world with ⟨hw, hno⟩ | ⟨k, op', p', hc, hset⟩
  · have hmid : ¬p.Mid := hno i op p (by rw [hi])
    cases p with
    | recheck s =>
      cases hx
      obtain ⟨ho, rfl⟩ := Prod.mk.inj (Option.some.inj hrun)
      by_cases h0 : S.shared.bonus.world.heap.initialized = 0
      · rw [if_pos h0] at ho
        rw [hw] at hgoes h0
        exact hgoes ho.symm (.makeTiny h0) rfl
      · rw [if_neg h0] at ho
        have hsetup : ensureSetup S.shared.bonus.world = some (0, S.shared.bonus.world) :=
          Prog.bind_to rfl (Prog.if_false_run h0 rfl)
        refine hends ho.symm rfl ?_
        rw [hshared, ← hw, ← ho]
        exact Prog.bind_to (setupSection_run rfl hsetup) rfl
    | _ => exact absurd hp hmid
  · obtain rfl : k = i := by
      by_contra hk
      exact halone k hk op' p' hc hset.mid
    rw [hi] at hc
    cases hc
    rcases hset.step hx hrun with ⟨p', ho, hset', hpc⟩ | ⟨⟨s, e, ho⟩, pc, hpc, hexec⟩
    · exact hgoes ho hset' hpc
    · rw [← hshared] at hexec
      exact hends ho hpc hexec

/-- **One step** of the larger machine is one step of the smaller one, or none, and the simulation
goes on. -/
theorem Simulates.step (hU : Threads.Reachable P U) (hd : LocksKept S) (hsim : Simulates S U)
    (hs : Sys.Step CallerStep S S') : ∃ U', Threads.Reachable P U' ∧ Simulates S' U' := by
  obtain ⟨i, hn⟩ := hs
  generalize hi : S.thread i = ti at hn
  generalize hT : S.shared = Ti at hn
  cases hn with
  | call hv hl =>
    rw [← hT]
    exact hsim.call hU hi hv hl
  | @exec W' live op p ls o hrun =>
    subst hT
    cases hp : p.action with
    | lock m p' =>
      rw [hp] at hrun
      obtain ⟨rfl, -, rfl⟩ := lock_exec hrun
      refine ⟨U, hU, hsim.stutter hi (lock_coarse hp) ?_ ?_ rfl⟩
      · exact not_mid_of_lock hp
      · rintro p'' ho
        cases ho
        exact not_mid_of_locked hp
    | unlock m o' =>
      rw [hp] at hrun
      obtain ⟨rfl, -, rfl⟩ := unlock_exec hrun
      refine ⟨U, hU, hsim.stutter hi (unlock_coarse hp) ?_ ?_ rfl⟩
      · exact not_mid_of_unlock hp
      · rintro p'' rfl hm
        have hnone := (unlock_locks hp).2
        exact absurd ((locks_of_mid hm).symm.trans hnone) (List.cons_ne_nil _ _)
    | body x =>
      rw [hp] at hrun
      obtain ⟨w', hx, rfl⟩ := body_exec hrun
      by_cases hset : p.InSetup
      · exact hsim.setup hU hd hi hp hset hx rfl
      · exact hsim.body hU hi hp hset hx rfl

/-- **Sections are atomic.** Every state that some interleaving of the points reaches follows one
that an interleaving of the larger steps reaches. -/
theorem points_follow (hS : Points.Reachable P S) :
    ∃ U : Sys ι BonusWorld Thread, Threads.Reachable P U ∧ Simulates S U := by
  obtain ⟨hP, m, answers, hreach⟩ := hS
  induction hreach with
  | refl =>
    exact ⟨Threads.init ι P m answers, ⟨hP, m, answers, Relation.ReflTransGen.refl⟩,
      fun _ => .idle, Or.inl ⟨rfl, fun _ _ _ hc => by cases hc⟩⟩
  | tail hreach hs ih =>
    obtain ⟨U, hU, hsim⟩ := ih
    exact hsim.step hU (points_balanced ⟨hP, m, answers, hreach⟩) hs

omit [DecidableEq ι] in
/-- **The heap is a represented one** at every point, that of a setup under way too; its flag is
that of the larger steps. -/
theorem Simulates.rep (hsim : Simulates S U) (hP : ValidPage P) (hr : Rep P U.shared.world A) :
    ∃ A', Rep P S.shared.bonus.world A' ∧ A'.initialized = A.initialized := by
  rcases hsim.world with ⟨hw, -⟩ | ⟨k, op', p', hc, hset⟩
  · exact ⟨A, hw ▸ hr, rfl⟩
  · obtain ⟨A', hr', hflag, -⟩ := hset.rep hP hr
    exact ⟨A', hr', hflag⟩

/-! ## No thread gets stuck -/

/-- **The body of a section runs** in every state an interleaving reaches: no thread faults between
its lock and its unlock. -/
theorem Simulates.total (hU : Threads.Reachable P U) (hsim : Simulates S U)
    (hi : S.thread i = ⟨live, some (op, p), ls⟩) (hx : p.action = .body x) :
    ∃ o w', x S.shared.bonus.world = some (o, w') := by
  obtain ⟨A, hh⟩ := threads_inv hU
  have hcreate : ∀ {w : World} {A : AHeap} (c : Cls), Rep P w A →
      ∃ e w', createZone c.size w = some (e, w') := by
    intro w A c hr
    obtain ⟨w', h, -⟩ := createZone_run hU.1 hr c
    exact ⟨_, w', h⟩
  by_cases hp : p.InSetup
  · -- the heap of the setup is a represented one
    obtain ⟨A', hr, -⟩ := hsim.rep hU.1 hh.shared.rep
    cases p with
    | recheck s =>
      cases hx
      exact ⟨_, _, rfl⟩
    | makeTiny s =>
      cases hx
      obtain ⟨e, w', h⟩ := hcreate .tiny hr
      exact ⟨_, _, Prog.bind_to h rfl⟩
    | makeSmall s =>
      cases hx
      obtain ⟨e, w', h⟩ := hcreate .small hr
      exact ⟨_, _, Prog.bind_to h rfl⟩
    | publish s =>
      cases hx
      exact ⟨_, _, rfl⟩
    | _ => exact hp.elim
  · rcases hsim.world with ⟨hw, -⟩ | ⟨k, op', p', hc, hset⟩
    · have hf := hsim.follows i
      rw [hi] at hf
      obtain ⟨pc, hpc⟩ := coarse_of_body hx
      generalize hu : U.thread i = u at hf
      cases hf with
      | leaving hq =>
        rw [hpc] at hq
        cases hq
      | going before hpc' =>
        obtain ⟨n, W', hrun⟩ := threads_total hU (congrArg Thread.call hu)
        have hshared : U.shared = ⟨S.shared.bonus.world, unlocked⟩ := by
          rw [hw, ← hh.shared.free]
        rw [hshared] at hrun
        exact body_total hx hp hpc' hrun
    · obtain ⟨s, rfl⟩ := hsim.only_check hU hi hx hp hset
      cases hx
      exact ⟨_, _, rfl⟩

/-- **No thread gets stuck**: unless it waits for a mutex that is held, its next step runs. -/
theorem points_total (hS : Points.Reachable P S) (hi : (S.thread i).call = some (op, p))
    (hw : ∀ m, ¬(S.thread i).WaitsFor S.shared.bonus m) :
    ∃ o W', p.action.exec S.shared.bonus = some (o, W') := by
  have hd := points_balanced hS
  obtain ⟨U, hU, hsim⟩ := points_follow hS
  have heta : S.thread i = ⟨(S.thread i).live, some (op, p), (S.thread i).locks⟩ := by rw [← hi]
  cases hp : p.action with
  | lock m p' =>
    have hfree : S.shared.bonus.held m = false := by
      refine Bool.eq_false_of_not_eq_true fun hheld => ?_
      exact hw m ⟨hheld, op, p, p', hi, hp⟩
    exact ⟨_, _, Prog.bind_to (lock_of hfree) rfl⟩
  | unlock m o =>
    have hheld : S.shared.bonus.held m = true := by
      refine hd.balanced.taken i m ?_
      rw [hd.locks_at heta, (unlock_locks hp).1]
      exact List.mem_singleton_self m
    exact ⟨_, _, Prog.bind_to (if_pos hheld) rfl⟩
  | body x =>
    obtain ⟨o, w', h⟩ := hsim.total hU heta hp
    exact ⟨_, _, lift_of h⟩

end FtMalloc
