import FtMalloc.Run.Following

/-!
# The lazy setup (`bonus/src/malloc_bonus.c:105-114, 221-245`)

Any number of threads come to the unlocked test of `initialized`; those that see `0` queue for
`heap_mutex` and test again. `setup_global_heap` is at work in a thread from its first `create_zone`
to the store of the flag (`Point.Mid`), and a run of it has succeeded once some thread has made that
store (`Succeeded`). The trace keeps this: what succeeded once has succeeded for ever.

* `flag_iff`: the flag says whether a run has succeeded.
* `setup_once`: in every state that some interleaving reaches, `setup_global_heap` is at work in one
  thread at most, in none after a run of it has succeeded, and no thread has come to `alloc_block`
  before. When the flag was stored both free lists had a zone and no section had been at them.
-/

namespace FtMalloc

open Lib Bonus

variable {P : Nat} {A : AHeap} {w w' : World} {W' : BonusWorld} {p : Point} {o : Onward} {pc : Pc}
  {live : List Alloc} {op : Op} {ls : List Mutex} {T : Traced} {x : C Onward} {e : Point × Onward}
  {ι : Type} [DecidableEq ι] {S : Sys ι Traced Caller}
  {U : Sys ι BonusWorld Thread} {i : ι}

/-- A run of `setup_global_heap` has succeeded. -/
def Traced.Succeeded (T : Traced) : Prop := ∃ s o, (Point.publish s, o) ∈ T.trace

/-- The points where `alloc_block` is called. -/
def Bonus.Point.Allocates : Point → Prop
  | .alloc _ | .grow _ _ _ _ => True
  | _ => False

/-! ## The flag -/

/-- The flag of a represented heap. -/
theorem Rep.flag_iff (hr : Rep P w A) : w.heap.initialized ≠ 0 ↔ A.initialized = true := by
  rw [hr.flag]
  cases A.initialized <;> simp

/-- `create_zone` leaves the flag. -/
theorem createZone_flag (hP : ValidPage P) (hr : Rep P w A) {c : Cls} {n : Int}
    (h : createZone c.size w = some (n, w')) :
    w'.heap.initialized ≠ 0 ↔ w.heap.initialized ≠ 0 := by
  obtain ⟨w₁, hrun, -, hr₁, -⟩ := createZone_run hP hr c
  obtain ⟨-, rfl⟩ := Prod.mk.inj (Option.some.inj (h.symm.trans hrun))
  rw [hr₁.flag_iff, hr.flag_iff, AHeap.createZone_initialized]

/-- A step of the setup leaves the flag, but for the store. -/
theorem setup_flag [Platform]
    (hP : ValidPage P) (hr : Rep P w A) (hp : p.InSetup) (hx : p.action = .body x)
    (hrun : x w = some (o, w')) :
    w'.heap.initialized ≠ 0 ↔ w.heap.initialized ≠ 0 ∨ ∃ s, p = .publish s := by
  cases p with
  | recheck s =>
    cases hx
    obtain ⟨-, rfl⟩ := Prod.mk.inj (Option.some.inj hrun)
    simp
  | makeTiny s =>
    cases hx
    obtain ⟨n, v, h, hrest⟩ := Prog.bind_eq_some.mp hrun
    obtain ⟨-, rfl⟩ := Prod.mk.inj (Option.some.inj hrest)
    simp [createZone_flag (c := .tiny) hP hr h]
  | makeSmall s =>
    cases hx
    obtain ⟨n, v, h, hrest⟩ := Prog.bind_eq_some.mp hrun
    obtain ⟨-, rfl⟩ := Prod.mk.inj (Option.some.inj hrest)
    simp [createZone_flag (c := .small) hP hr h]
  | publish s =>
    cases hx
    obtain ⟨-, rfl⟩ := Prod.mk.inj (Option.some.inj hrun)
    simp
  | _ => exact hp.elim

/-- A section of an initialised heap leaves the flag. -/
theorem exec_flag [Platform] (hU : Threads.Reachable P U) {a : Activity} {n : Next} {V : BonusWorld}
    (hi : U.thread i = ⟨live, some a⟩) (hrun : a.pc.exec U.shared = some (n, V))
    (h : U.shared.world.heap.initialized ≠ 0) : V.world.heap.initialized ≠ 0 := by
  obtain ⟨A, hh⟩ := threads_inv hU
  have ht := hh.own i
  rw [hi] at ht
  obtain ⟨n', V', A', hrun', ha, -⟩ := exec_advances hU.1 hh.shared ht
  obtain ⟨-, rfl⟩ := Prod.mk.inj (Option.some.inj (hrun.symm.trans hrun'))
  obtain ⟨_, -, hd⟩ := ha.disturbs
  rw [ha.heap.rep.flag_iff]
  exact hd.initialized (hh.shared.rep.flag_iff.mp h)

/-- The body of a section leaves the flag. -/
theorem Simulates.body_flag [Platform] (hU : Threads.Reachable P U) (hsim : Simulates S U)
    (hi : S.thread i = ⟨live, some (op, p), ls⟩) (hp : ¬p.InSetup) (hx : p.action = .body x)
    (hrun : x S.shared.bonus.world = some (o, w')) :
    w'.heap.initialized ≠ 0 ↔ S.shared.bonus.world.heap.initialized ≠ 0 := by
  obtain ⟨A, hh⟩ := threads_inv hU
  obtain ⟨A', hr', hflag⟩ := hsim.rep hU.1 hh.shared.rep
  obtain ⟨pc, hpc, hexec⟩ := body_coarse hx hrun hp
  have hcheck : ∀ s, p = .check s →
      (w'.heap.initialized ≠ 0 ↔ S.shared.bonus.world.heap.initialized ≠ 0) := by
    rintro s rfl
    cases hx
    obtain ⟨-, rfl⟩ := Prod.mk.inj (Option.some.inj hrun)
    rfl
  rcases hsim.world with ⟨hw, -⟩ | ⟨k, op', p', hc, hset⟩
  · have hf := hsim.follows i
    rw [hi] at hf
    generalize hu : U.thread i = u at hf
    cases hf with
    | leaving hq =>
      rw [hpc] at hq
      cases hq
    | going before hpc' =>
      obtain rfl := Next.go.inj (hpc.symm.trans hpc')
      have hshared : U.shared = ⟨S.shared.bonus.world, unlocked⟩ := by
        rw [hw, ← hh.shared.free]
      rw [← hshared] at hexec
      have ht := hh.own i
      rw [hu] at ht
      rcases (ht.call _ rfl).initialized hh.shared.ok ht.owned with hready | ⟨s, rfl | rfl⟩
      · rw [hw] at hr' ⊢
        have hset := hh.shared.rep.flag_iff.mpr hready
        exact iff_of_true (exec_flag hU hu hexec hset) hset
      · exact hcheck s (check_of_coarse hpc)
      · exact absurd (inSetup_of_coarse hx hpc) hp
  · obtain ⟨s, hs⟩ := hsim.only_check hU hi hx hp hset
    exact hcheck s hs

/-- **Only the store at the end of the setup changes the flag.** -/
theorem exec_flag_iff [Platform]
    (hS : Points.Reachable P S) (hi : S.thread i = ⟨live, some (op, p), ls⟩)
    (hrun : p.action.exec S.shared.bonus = some (o, W')) :
    W'.world.heap.initialized ≠ 0 ↔
      S.shared.bonus.world.heap.initialized ≠ 0 ∨ ∃ s, p = .publish s := by
  obtain ⟨U, hU, hsim⟩ := points_follow hS
  obtain ⟨A, hh⟩ := threads_inv hU
  obtain ⟨A', hr, -⟩ := hsim.rep hU.1 hh.shared.rep
  have hother : (∀ s, p ≠ .publish s) →
      (W'.world.heap.initialized ≠ 0 ↔ S.shared.bonus.world.heap.initialized ≠ 0) →
      (W'.world.heap.initialized ≠ 0 ↔
        S.shared.bonus.world.heap.initialized ≠ 0 ∨ ∃ s, p = .publish s) := by
    intro hp h
    rw [h]
    exact ⟨Or.inl, fun h => h.resolve_right fun ⟨s, hs⟩ => hp s hs⟩
  cases hp : p.action with
  | lock m p' =>
    rw [hp] at hrun
    obtain ⟨-, -, rfl⟩ := lock_exec hrun
    exact hother (fun s h => by rw [h] at hp; cases hp) Iff.rfl
  | unlock m o' =>
    rw [hp] at hrun
    obtain ⟨-, -, rfl⟩ := unlock_exec hrun
    exact hother (fun s h => by rw [h] at hp; cases hp) Iff.rfl
  | body x =>
    rw [hp] at hrun
    obtain ⟨w', hx, rfl⟩ := body_exec hrun
    by_cases hset : p.InSetup
    · exact setup_flag hS.1 hr hset hp hx
    · refine hother (fun s h => hset (by rw [h]; trivial)) ?_
      exact hsim.body_flag hU hi hset hp hx

/-! ## What succeeded -/

/-- **What succeeded once has succeeded for ever**: one more step. -/
theorem succeeded_cons {W : BonusWorld} :
    (Traced.mk W (e :: T.trace)).Succeeded ↔ T.Succeeded ∨ ∃ s, e.1 = .publish s := by
  constructor
  · rintro ⟨s, o, hm⟩
    rcases List.mem_cons.mp hm with rfl | hm
    · exact Or.inr ⟨s, rfl⟩
    · exact Or.inl ⟨s, o, hm⟩
  · rintro (⟨s, o, hm⟩ | ⟨s, hs⟩)
    · exact ⟨s, o, List.mem_cons_of_mem _ hm⟩
    · refine ⟨s, e.2, ?_⟩
      rw [← hs]
      exact List.mem_cons_self

omit [DecidableEq ι] in
theorem not_succeeded_init {m : Mem} {answers : List (Option Nat)} :
    ¬(Points.init ι P m answers).shared.Succeeded := by
  rintro ⟨s, o, hm⟩
  exact absurd hm List.not_mem_nil

/-- **The flag says whether a run of the setup has succeeded.** -/
theorem flag_iff [Platform] (hS : Points.Reachable P S) :
    S.shared.bonus.world.heap.initialized ≠ 0 ↔ S.shared.Succeeded := by
  obtain ⟨hP, m, answers, hreach⟩ := hS
  induction hreach with
  | refl => exact iff_of_false (fun h => h rfl) not_succeeded_init
  | @tail S S' hreach hs ih =>
    obtain ⟨i, hn⟩ := hs
    generalize hi : S.thread i = ti at hn
    generalize hT : S.shared = Ti at hn
    cases hn with
    | call hv hl =>
      rw [← hT]
      exact ih
    | @exec W' live op p ls o hrun =>
      subst hT
      refine (exec_flag_iff ⟨hP, m, answers, hreach⟩ hi hrun).trans ?_
      rw [ih]
      exact (succeeded_cons (e := (p, o))).symm

/-! ## Where the threads are -/

/-- A thread inside the setup is so before any run has succeeded. -/
theorem not_succeeded_of_mid [Platform] (hS : Points.Reachable P S)
    (hi : (S.thread i).call = some (op, p)) (hp : p.Mid) : ¬S.shared.Succeeded := by
  obtain ⟨U, hU, hsim⟩ := points_follow hS
  obtain ⟨A, hh⟩ := threads_inv hU
  rcases hsim.world with ⟨-, hno⟩ | ⟨k, op', p', hc, hset⟩
  · exact absurd hp (hno i op p hi)
  · obtain ⟨A', hr', hflag, hunset, -⟩ := hset.rep hU.1 hh.shared.rep
    rw [← flag_iff hS, hr'.flag_iff, hflag, hunset]
    exact Bool.false_ne_true

/-- A thread that is about to call `alloc_block` is so after a run has succeeded. -/
theorem succeeded_of_allocates [Platform] (hS : Points.Reachable P S)
    (hi : (S.thread i).call = some (op, p)) (hp : p.Allocates) : S.shared.Succeeded := by
  obtain ⟨U, hU, hsim⟩ := points_follow hS
  obtain ⟨A, hh⟩ := threads_inv hU
  obtain ⟨A', hr', hflag⟩ := hsim.rep hU.1 hh.shared.rep
  have hready : A.initialized = true := by
    obtain ⟨pc, hpc⟩ : ∃ pc, p.coarse = .go pc ∧ ∀ s, pc ≠ .check s ∧ pc ≠ .setup s := by
      cases p with
      | alloc s => exact ⟨_, rfl, fun _ => ⟨Pc.noConfusion, Pc.noConfusion⟩⟩
      | grow ptr s type current => exact ⟨_, rfl, fun _ => ⟨Pc.noConfusion, Pc.noConfusion⟩⟩
      | _ => exact hp.elim
    have hf := hsim.follows i
    have ht := hh.own i
    have heta : S.thread i = ⟨(S.thread i).live, some (op, p), (S.thread i).locks⟩ := by rw [← hi]
    rw [heta] at hf
    generalize U.thread i = u at hf ht
    cases hf with
    | leaving hq =>
      rw [hpc.1] at hq
      cases hq
    | going before hpc' =>
      obtain rfl := Next.go.inj (hpc.1.symm.trans hpc')
      rcases (ht.call _ rfl).initialized hh.shared.ok ht.owned with hready | ⟨s, h | h⟩
      · exact hready
      · exact absurd h (hpc.2 s).1
      · exact absurd h (hpc.2 s).2
  rw [← flag_iff hS, hr'.flag_iff, hflag, hready]

/-- What called `alloc_block` did so after a run had succeeded. -/
theorem succeeded_of_allocated [Platform] (hS : Points.Reachable P S) (he : e ∈ S.shared.trace)
    (hp : e.1.Allocates) : S.shared.Succeeded := by
  obtain ⟨hP, m, answers, hreach⟩ := hS
  induction hreach with
  | refl => exact absurd he List.not_mem_nil
  | @tail S S' hreach hs ih =>
    obtain ⟨i, hn⟩ := hs
    generalize hi : S.thread i = ti at hn
    generalize hT : S.shared = Ti at hn
    cases hn with
    | call hv hl =>
      rw [← hT] at he ⊢
      exact ih he
    | exec hrun =>
      subst hT
      refine succeeded_cons.mpr (Or.inl ?_)
      rcases List.mem_cons.mp he with rfl | he
      · exact succeeded_of_allocates ⟨hP, m, answers, hreach⟩ (by rw [hi]) hp
      · exact ih he

/-- **Before the store** both free lists have a zone. -/
theorem heads_of_publish [Platform] (hS : Points.Reachable P S) {s : Nat}
    (hi : (S.thread i).call = some (op, .publish s)) :
    S.shared.bonus.world.heap.freeTinyZones ≠ null ∧
      S.shared.bonus.world.heap.freeSmallZones ≠ null := by
  obtain ⟨U, hU, hsim⟩ := points_follow hS
  obtain ⟨A, hh⟩ := threads_inv hU
  rcases hsim.world with ⟨-, hno⟩ | ⟨k, op', p', hc, hset⟩
  · exact absurd trivial (hno i op _ hi)
  · have hd := points_balanced hS
    have hlocked : Mutex.heap ∈ (S.thread k).locks := by
      have hdue : (S.thread k).due = p'.locks := by
        unfold Caller.due
        rw [hc]
      rw [hd.due k, hdue, locks_of_mid hset.mid]
      exact List.mem_singleton_self _
    obtain rfl : k = i := by
      by_contra hk
      exact hd.alone hlocked i (fun h => hk h.symm) op _ hi trivial
    rw [hi] at hc
    cases hc
    obtain ⟨A', hr', -, -, hlists⟩ := hset.rep hU.1 hh.shared.rep
    have hne : ∀ c : Cls, S.shared.bonus.world.heap.get c.freeHead ≠ null := fun c h0 =>
      hlists s rfl c ((hr'.lists c.freeHead).head_eq_zero_iff.mp h0)
    exact ⟨hne .tiny, hne .small⟩

/-- The state in which the flag is stored. -/
structure Publishing (S : Sys ι Traced Caller) : Prop where
  thread : ∃ i op s, (S.thread i).call = some (op, .publish s)
  heads : S.shared.bonus.world.heap.freeTinyZones ≠ null ∧
    S.shared.bonus.world.heap.freeSmallZones ≠ null
  first : ¬S.shared.Succeeded
  untouched : ∀ e ∈ S.shared.trace, ¬e.1.Allocates

/-- **Every success had such a state before it.** -/
theorem exists_publishing [Platform] {S₀ : Sys ι Traced Caller} (hS₀ : Points.Reachable P S₀)
    (hreach : Sys.Reach CallerStep S₀ S) (h₀ : ¬S₀.shared.Succeeded) (h : S.shared.Succeeded) :
    ∃ S₁, Sys.Reach CallerStep S₀ S₁ ∧ Sys.Reach CallerStep S₁ S ∧ Publishing S₁ := by
  induction hreach with
  | refl => exact absurd h h₀
  | @tail S S' hreach hs ih =>
    by_cases hS : S.shared.Succeeded
    · obtain ⟨S₁, h1, h2, hp⟩ := ih hS
      exact ⟨S₁, h1, h2.tail hs, hp⟩
    · have hr : Points.Reachable P S := by
        obtain ⟨hP, m, answers, hr⟩ := hS₀
        exact ⟨hP, m, answers, hr.trans hreach⟩
      refine ⟨S, hreach, Relation.ReflTransGen.single hs, ?_⟩
      obtain ⟨i, hn⟩ := hs
      generalize hi : S.thread i = ti at hn
      generalize hT : S.shared = Ti at hn
      cases hn with
      | call hv hl =>
        rw [← hT] at h
        exact absurd h hS
      | @exec W' live op p ls o hrun =>
        subst hT
        obtain ⟨s, rfl⟩ := (succeeded_cons.mp h).resolve_left hS
        have hc : (S.thread i).call = some (op, .publish s) := by rw [hi]
        exact ⟨⟨i, op, s, hc⟩, heads_of_publish hr hc, hS,
          fun e he hp => hS (succeeded_of_allocated hr he hp)⟩

/-- **The setup runs once.** In every state that some interleaving reaches, `setup_global_heap` is
at work in one thread at most; once a run of it has succeeded it is at work in none; no thread is
about to call `alloc_block`, or has called it, unless a run has succeeded; and then there was a
moment at which the flag was not stored yet, both classes had a zone on their free list, and no
thread had called `alloc_block`. -/
theorem setup_once [Platform] (hS : Points.Reachable P S) :
    (∀ i j op p op' p', (S.thread i).call = some (op, p) → p.Mid →
      (S.thread j).call = some (op', p') → p'.Mid → i = j) ∧
    (S.shared.Succeeded → ∀ i op p, (S.thread i).call = some (op, p) → ¬p.Mid) ∧
    (∀ i op p, (S.thread i).call = some (op, p) → p.Allocates → S.shared.Succeeded) ∧
    (∀ e ∈ S.shared.trace, e.1.Allocates → S.shared.Succeeded) ∧
    (S.shared.Succeeded → ∃ S₁ : Sys ι Traced Caller, Points.Reachable P S₁ ∧
      Sys.Reach CallerStep S₁ S ∧ Publishing S₁) := by
  refine ⟨fun i j op p op' p' hi hp hj hp' => ?_, fun h i op p hi hp => ?_,
    fun i op p hi hp => succeeded_of_allocates hS hi hp,
    fun e he hp => succeeded_of_allocated hS he hp, fun h => ?_⟩
  · have hd := points_balanced hS
    have hlocked : Mutex.heap ∈ (S.thread i).locks := by
      rw [hd.due i, Caller.due, hi]
      change Mutex.heap ∈ p.locks
      rw [locks_of_mid hp]
      exact List.mem_singleton_self _
    by_contra hij
    exact hd.alone hlocked j (Ne.symm hij) op' p' hj hp'
  · exact not_succeeded_of_mid hS hi hp h
  · obtain ⟨hP, m, answers, hreach⟩ := hS
    have hinit : Points.Reachable P (Points.init ι P m answers) :=
      ⟨hP, m, answers, Relation.ReflTransGen.refl⟩
    have hnone : ¬(Points.init ι P m answers).shared.Succeeded := not_succeeded_init
    obtain ⟨S₁, h1, h2, hp⟩ := exists_publishing hinit hreach hnone h
    exact ⟨S₁, ⟨hP, m, answers, h1⟩, h2, hp⟩

/-- The first `malloc` of one of two threads has returned. -/
theorem setup_once_sample : ∃ S : Sys Bool Traced Caller, Points.Reachable 4096 S ∧
    S.shared.Succeeded ∧ ∃ S₁ : Sys Bool Traced Caller, Points.Reachable 4096 S₁ ∧
      Sys.Reach CallerStep S₁ S ∧ Publishing S₁ := by
  have heval : (Bonus.malloc 24 (BonusWorld.init 4096 (fun _ => 0) sampleAnswers)).map
      (fun r => (r.1, r.2.world.heap.initialized)) = some (4997, 1) := by decide +kernel
  obtain ⟨⟨q, W'⟩, hrun, he⟩ := Option.map_eq_some_iff.mp heval
  obtain ⟨rfl, hflag⟩ := Prod.mk.inj he
  have hS : Points.Reachable 4096 (Points.init Bool 4096 (fun _ => 0) sampleAnswers) :=
    ⟨validPage_4096, _, _, Relation.ReflTransGen.refl⟩
  have hvalid : (Op.malloc 24).Valid [] := valid_malloc (by decide)
  obtain ⟨trace, hreach⟩ := hS.alone (i := true) rfl hvalid (fun p s h => by cases h) hrun
  have hS' := hS.trans hreach
  have hsucc : (Traced.mk W' trace).Succeeded := by
    refine (flag_iff hS').mp ?_
    change W'.world.heap.initialized ≠ 0
    rw [hflag]
    decide
  exact ⟨_, hS', hsucc, (setup_once hS').2.2.2.2 hsucc⟩

end FtMalloc
