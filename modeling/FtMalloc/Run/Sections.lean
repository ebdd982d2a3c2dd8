import FtMalloc.Run.Interleaving
import FtMalloc.Run.Points

/-!
# The sections, point by point

The steps of `Source/Points.lean` beside those of `Source/Atomic.lean`. A call that is at a point is
at the place `Point.coarse` among the larger steps: the body of a section is its step, and its lock
and its unlock are none. The setup takes its one step when it ends; until then the heap of the
larger steps is the one before it (`Setting`).

Results:
* `body_coarse`, `body_total`: the body of a section does what the section does, and runs when it
  does.
* `Setting.step`: a step of the setup goes on, or has done what the section does as one step.
* `Setting.rep`: the heap of a setup under way.
-/

namespace FtMalloc

open Lib Bonus

variable {P : Nat} {A : AHeap} {w w' v : World} {p p' : Point} {o : Onward} {m : Mutex} {pc : Pc}
  {live : List Alloc} {op : Op} {before : Mem} {ls ls' : List Mutex} {t t' : Caller} {u u' : Thread}
  {q s : Nat} {x : C Onward}

/-! ## Places -/

/-- The place of a point among the larger steps: a section, with its lock and its unlock, is one
step there. -/
def Bonus.Point.coarse : Point → Next
  | .store addr byte => .go (.store addr byte)
  | .check size => .go (.check size)
  | .lockHeap size | .recheck size | .makeTiny size | .makeSmall size | .publish size =>
    .go (.setup size)
  | .unlockHeap size e => if e ≠ 0 then .done null else .go (.alloc size)
  | .lockAlloc size | .alloc size => .go (.alloc size)
  | .unlockAlloc _ ptr => .done ptr
  | .freeHeader ptr => .go (.freeHeader ptr)
  | .lockFree ptr type | .freeBlock ptr type => .go (.freeBlock ptr type)
  | .unlockFree _ => .done null
  | .header ptr size => .go (.header ptr size)
  | .lockGrow ptr size oldType current | .grow ptr size oldType current =>
    .go (.grow ptr size oldType current)
  | .unlockGrow ptr size oldType current new =>
    if new = null then .done null else .go (.copy ptr size oldType current new)
  | .copy ptr size oldType current new => .go (.copy ptr size oldType current new)
  | .lockRelease ptr size oldType new | .release ptr size oldType new =>
    .go (.release ptr size oldType new)
  | .unlockRelease _ new => .done new

def Bonus.Onward.coarse : Onward → Next
  | .at p => p.coarse
  | .done q => .done q

/-- The call among the larger steps: `realloc(p, 0)` is `free(p)` (`malloc_bonus.c:329-332`). -/
def Op.coarse : Op → Op
  | realloc p s => if p ≠ null ∧ s = 0 then .free p else .realloc p s
  | op => op

theorem lock_coarse [Platform] (hp : p.action = .lock m p') : p'.coarse = p.coarse := by
  cases p <;> cases hp <;> rfl

theorem unlock_coarse [Platform] (hp : p.action = .unlock m o) : o.coarse = p.coarse := by
  cases p with
  | unlockHeap s e =>
    cases hp
    simp only [Point.coarse]
    split <;> rfl
  | unlockGrow ptr s type current new =>
    cases hp
    simp only [Point.coarse]
    split <;> rfl
  | _ => cases hp <;> rfl

/-- The one point of the first, unlocked test (`malloc_bonus.c:227`). -/
theorem check_of_coarse (hp : p.coarse = .go (.check s)) : p = .check s := by
  cases p with
  | check => cases hp; rfl
  | unlockHeap s e =>
    simp only [Point.coarse] at hp
    split at hp <;> cases hp
  | unlockGrow ptr s type current new =>
    simp only [Point.coarse] at hp
    split at hp <;> cases hp
  | _ => cases hp

/-- A call whose next step is a body has not returned among the larger steps either. -/
theorem coarse_of_body [Platform] (hx : p.action = .body x) : ∃ pc, p.coarse = .go pc := by
  cases p <;> first | exact ⟨_, rfl⟩ | cases hx

/-! ## What is done between the locks -/

/-- The points of the setup, between its lock and its unlock (`malloc_bonus.c:229-235`). -/
def Bonus.Point.InSetup : Point → Prop
  | .recheck _ | .makeTiny _ | .makeSmall _ | .publish _ => True
  | _ => False

theorem inSetup_of_coarse [Platform] (hx : p.action = .body x) (hp : p.coarse = .go (.setup s)) :
    p.InSetup := by
  cases p with
  | recheck | makeTiny | makeSmall | publish => trivial
  | lockHeap => cases hx
  | unlockHeap => cases hx
  | unlockGrow => cases hx
  | _ => cases hp

/-- The header reads of `free` are the same, and lead to the same place. -/
theorem readFree_coarse {ptr : Nat} (h : readFreePoint ptr w = some (o, w')) :
    readFree ptr w = some (o.coarse, w') := by
  obtain ⟨word, v, hload, h⟩ := Prog.bind_eq_some.mp h
  refine Prog.bind_to hload ?_
  by_cases hlow : word < 0x100000000
  · rw [if_pos hlow] at h ⊢
    obtain ⟨rfl, rfl⟩ := Prod.mk.inj (Option.some.inj h)
    rfl
  · rw [if_neg hlow] at h ⊢
    obtain ⟨type, v, htype, h⟩ := Prog.bind_eq_some.mp h
    obtain ⟨rfl, rfl⟩ := Prod.mk.inj (Option.some.inj h)
    refine Prog.bind_to htype ?_
    split <;> rfl

/-- The header reads of `realloc` are the same, and lead to the same place. -/
theorem readRealloc_coarse {ptr : Nat} (h : readReallocPoint ptr s w = some (o, w')) :
    readRealloc ptr s w = some (o.coarse, w') := by
  obtain ⟨word, v, hload, h⟩ := Prog.bind_eq_some.mp h
  obtain ⟨type, v, htype, h⟩ := Prog.bind_eq_some.mp h
  obtain ⟨current, v, hcurrent, h⟩ := Prog.bind_eq_some.mp h
  obtain ⟨rfl, rfl⟩ := Prod.mk.inj (Option.some.inj h)
  refine Prog.bind_to hload (Prog.bind_to htype (Prog.bind_to hcurrent ?_))
  split <;> rfl

/-- **The body of a section** is the step of that section, with the mutexes free before and after;
the setup is apart, as it is cut into several points. -/
theorem body_coarse [Platform]
    (hx : p.action = .body x) (hrun : x w = some (o, w')) (hp : ¬p.InSetup) :
    ∃ pc, p.coarse = .go pc ∧ pc.exec ⟨w, unlocked⟩ = some (o.coarse, ⟨w', unlocked⟩) := by
  cases p with
  | store a b =>
    cases hx
    obtain ⟨u, v, h1, h2⟩ := Prog.bind_eq_some.mp hrun
    obtain ⟨rfl, rfl⟩ := Prod.mk.inj (Option.some.inj h2)
    exact ⟨_, rfl, Prog.bind_to (lift_of h1) rfl⟩
  | check s =>
    cases hx
    obtain ⟨rfl, rfl⟩ := Prod.mk.inj (Option.some.inj hrun)
    refine ⟨_, rfl, Prog.bind_to rfl ?_⟩
    dsimp only
    split <;> rfl
  | alloc s =>
    cases hx
    obtain ⟨ptr, v, h1, h2⟩ := Prog.bind_eq_some.mp hrun
    obtain ⟨rfl, rfl⟩ := Prod.mk.inj (Option.some.inj h2)
    exact ⟨_, rfl, Prog.bind_to (allocSection_run rfl h1) rfl⟩
  | freeHeader ptr =>
    cases hx
    exact ⟨_, rfl, lift_of (readFree_coarse hrun)⟩
  | freeBlock ptr type =>
    cases hx
    obtain ⟨u, v, h1, h2⟩ := Prog.bind_eq_some.mp hrun
    obtain ⟨rfl, rfl⟩ := Prod.mk.inj (Option.some.inj h2)
    exact ⟨_, rfl, Prog.bind_to (freeSection_run rfl h1) rfl⟩
  | header ptr s =>
    cases hx
    exact ⟨_, rfl, lift_of (readRealloc_coarse hrun)⟩
  | grow ptr s type current =>
    cases hx
    obtain ⟨new, v, h1, h2⟩ := Prog.bind_eq_some.mp hrun
    obtain ⟨rfl, rfl⟩ := Prod.mk.inj (Option.some.inj h2)
    exact ⟨_, rfl, Prog.bind_to (allocSection_run rfl h1) rfl⟩
  | copy ptr s type current new =>
    cases hx
    obtain ⟨u, v, h1, h2⟩ := Prog.bind_eq_some.mp hrun
    obtain ⟨rfl, rfl⟩ := Prod.mk.inj (Option.some.inj h2)
    exact ⟨_, rfl, Prog.bind_to (lift_of h1) rfl⟩
  | release ptr s type new =>
    cases hx
    obtain ⟨u, v, h1, h2⟩ := Prog.bind_eq_some.mp hrun
    obtain ⟨rfl, rfl⟩ := Prod.mk.inj (Option.some.inj h2)
    exact ⟨_, rfl, Prog.bind_to (freeSection_run rfl h1) rfl⟩
  | recheck s => exact absurd trivial hp
  | makeTiny s => exact absurd trivial hp
  | makeSmall s => exact absurd trivial hp
  | publish s => exact absurd trivial hp
  | _ => cases hx

/-- The part of a step that is done without the mutexes. -/
theorem lift_inv {α β : Type} {y : C α} {f : α → B β} {W : BonusWorld} {r : β × BonusWorld}
    (h : (lift y >>= f) W = some r) : ∃ a v, y W.world = some (a, v) := by
  obtain ⟨b, W'⟩ := r
  obtain ⟨a, V, h1, -⟩ := Prog.bind_eq_some.mp h
  obtain ⟨⟨a, v⟩, hy, -⟩ := Option.map_eq_some_iff.mp h1
  exact ⟨a, v, hy⟩

theorem section_inv {α β γ : Type} {y : C α} {f : α → B β} {g : β → B γ} {W : BonusWorld}
    {r : γ × BonusWorld} (h : ((Bonus.lock m >>= fun _ => lift y >>= f) >>= g) W = some r) :
    ∃ a v, y W.world = some (a, v) := by
  obtain ⟨c, W'⟩ := r
  obtain ⟨b, V, h1, -⟩ := Prog.bind_eq_some.mp h
  obtain ⟨_, V₁, hlock, h2⟩ := Prog.bind_eq_some.mp h1
  unfold Bonus.lock at hlock
  split at hlock
  · cases hlock
  · cases hlock
    obtain ⟨a, v, hy⟩ := lift_inv h2
    exact ⟨a, v, hy⟩

/-- The body of a section runs when the section does: no body faults in a state that is reached. -/
theorem body_total [Platform] (hx : p.action = .body x) (hp : ¬p.InSetup) (hpc : p.coarse = .go pc)
    {r : Next × BonusWorld} (hrun : pc.exec ⟨w, unlocked⟩ = some r) :
    ∃ o w', x w = some (o, w') := by
  cases p with
  | store a b =>
    cases hx
    cases hpc
    obtain ⟨a, v, h⟩ := lift_inv hrun
    exact ⟨_, _, Prog.bind_to h rfl⟩
  | check s =>
    cases hx
    exact ⟨_, _, rfl⟩
  | alloc s =>
    cases hx
    cases hpc
    obtain ⟨a, v, h⟩ := section_inv hrun
    exact ⟨_, _, Prog.bind_to h rfl⟩
  | freeHeader ptr =>
    cases hx
    cases hpc
    obtain ⟨⟨n, v⟩, h, -⟩ := Option.map_eq_some_iff.mp hrun
    obtain ⟨word, v, hload, h⟩ := Prog.bind_eq_some.mp h
    by_cases hlow : word < 0x100000000
    · exact ⟨_, _, Prog.bind_to hload (Prog.if_true_run hlow rfl)⟩
    · rw [if_neg hlow] at h
      obtain ⟨type, v', htype, -⟩ := Prog.bind_eq_some.mp h
      exact ⟨_, _, Prog.bind_to hload (Prog.if_false_run hlow (Prog.bind_to htype rfl))⟩
  | freeBlock ptr type =>
    cases hx
    cases hpc
    obtain ⟨a, v, h⟩ := section_inv hrun
    exact ⟨_, _, Prog.bind_to h rfl⟩
  | header ptr s =>
    cases hx
    cases hpc
    obtain ⟨⟨n, v⟩, h, -⟩ := Option.map_eq_some_iff.mp hrun
    obtain ⟨word, v, hload, h⟩ := Prog.bind_eq_some.mp h
    obtain ⟨type, v, htype, h⟩ := Prog.bind_eq_some.mp h
    obtain ⟨current, v, hcurrent, -⟩ := Prog.bind_eq_some.mp h
    exact ⟨_, _, Prog.bind_to hload (Prog.bind_to htype (Prog.bind_to hcurrent rfl))⟩
  | grow ptr s type current =>
    cases hx
    cases hpc
    obtain ⟨a, v, h⟩ := section_inv hrun
    exact ⟨_, _, Prog.bind_to h rfl⟩
  | copy ptr s type current new =>
    cases hx
    cases hpc
    obtain ⟨a, v, h⟩ := lift_inv hrun
    exact ⟨_, _, Prog.bind_to h rfl⟩
  | release ptr s type new =>
    cases hx
    cases hpc
    obtain ⟨a, v, h⟩ := section_inv hrun
    exact ⟨_, _, Prog.bind_to h rfl⟩
  | recheck | makeTiny | makeSmall | publish => exact absurd trivial hp
  | _ => cases hx

/-! ## The setup -/

/-- `setup_global_heap` is at the point `p`: it began in `v`, and it has come to `w`. -/
inductive Setting : Point → World → World → Prop
  | makeTiny {v : World} {s : Nat} : v.heap.initialized = 0 → Setting (.makeTiny s) v v
  | makeSmall {v w : World} {s : Nat} : v.heap.initialized = 0 →
      createZone tinyBlockSize v = some (0, w) → Setting (.makeSmall s) v w
  | publish {v v' w : World} {s : Nat} : v.heap.initialized = 0 →
      createZone tinyBlockSize v = some (0, v') → createZone smallBlockSize v' = some (0, w) →
      Setting (.publish s) v w

/-- **A step of the setup**: it goes on, or it has done what the section does as one step. -/
theorem Setting.step [Platform]
    (hs : Setting p v w) (hx : p.action = .body x) (hrun : x w = some (o, w')) :
    (∃ p', o = .at p' ∧ Setting p' v w' ∧ p'.coarse = p.coarse) ∨
      (∃ s e, o = .at (.unlockHeap s e)) ∧
        ∃ pc, p.coarse = .go pc ∧ pc.exec ⟨v, unlocked⟩ = some (o.coarse, ⟨w', unlocked⟩) := by
  cases hs with
  | makeTiny h0 =>
    cases hx
    obtain ⟨e, v', h1, h2⟩ := Prog.bind_eq_some.mp hrun
    obtain ⟨rfl, rfl⟩ := Prod.mk.inj (Option.some.inj h2)
    by_cases he : e ≠ 0
    · rw [if_pos he]
      have hsetup : ensureSetup _ = some (1, v') := Prog.bind_to rfl
        (Prog.if_true_run h0 (Prog.bind_to h1 (Prog.if_true_run he rfl)))
      exact Or.inr ⟨⟨_, _, rfl⟩, _, rfl, Prog.bind_to (setupSection_run rfl hsetup) rfl⟩
    · rw [if_neg he]
      obtain rfl : e = 0 := not_not.mp he
      exact Or.inl ⟨_, rfl, .makeSmall h0 h1, rfl⟩
  | makeSmall h0 h1 =>
    cases hx
    obtain ⟨e, v', h2, h3⟩ := Prog.bind_eq_some.mp hrun
    obtain ⟨rfl, rfl⟩ := Prod.mk.inj (Option.some.inj h3)
    by_cases he : e ≠ 0
    · rw [if_pos he]
      have hsetup : ensureSetup _ = some (1, v') := Prog.bind_to rfl (Prog.if_true_run h0
        (Prog.bind_to h1 (Prog.if_false_run (not_not_intro rfl)
          (Prog.bind_to h2 (Prog.if_true_run he rfl)))))
      exact Or.inr ⟨⟨_, _, rfl⟩, _, rfl, Prog.bind_to (setupSection_run rfl hsetup) rfl⟩
    · rw [if_neg he]
      obtain rfl : e = 0 := not_not.mp he
      exact Or.inl ⟨_, rfl, .publish h0 h1 h2, rfl⟩
  | publish h0 h1 h2 =>
    cases hx
    obtain ⟨rfl, rfl⟩ := Prod.mk.inj (Option.some.inj hrun)
    have hsetup : ensureSetup _ = some (0, _) := Prog.bind_to rfl (Prog.if_true_run h0
      (Prog.bind_to h1 (Prog.if_false_run (not_not_intro rfl)
        (Prog.bind_to h2 (Prog.if_false_run (not_not_intro rfl) rfl)))))
    exact Or.inr ⟨⟨_, _, rfl⟩, _, rfl, Prog.bind_to (setupSection_run rfl hsetup) rfl⟩

/-- A call of `create_zone` that succeeds has added a zone to the free list of its class. -/
theorem createZone_zero (hP : ValidPage P) {c : Cls} (hr : Rep P v A)
    (h : createZone c.size v = some (0, w)) : ∃ b, Rep P w (A.addZone P c b) := by
  cases hb : v.os.reply (c.total P) with
  | none =>
    have hno := createZone_refused hr.page hb
    obtain ⟨h01, -⟩ := Prod.mk.inj (Option.some.inj (h.symm.trans hno))
    exact absurd h01 (by decide)
  | some b =>
    obtain ⟨w₁, hrun, -, hr₁, -⟩ := createZone_granted hP hr hb
    obtain ⟨-, rfl⟩ := Prod.mk.inj (Option.some.inj (h.symm.trans hrun))
    exact ⟨b, hr₁⟩

/-- **What the setup has done**: the flag is as it was, the zones are still there, and before the
store there is one of each class. -/
theorem Setting.rep (hP : ValidPage P) (hs : Setting p v w) (hr : Rep P v A) :
    ∃ A', Rep P w A' ∧ A'.initialized = A.initialized ∧ A.initialized = false ∧
      ∀ s, p = .publish s → ∀ c : Cls, A'.lists c.freeHead ≠ [] := by
  have hunset : v.heap.initialized = 0 → A.initialized = false := fun h0 => by
    have hflag := hr.flag
    by_contra hn
    rw [Bool.not_eq_false] at hn
    rw [h0, hn] at hflag
    exact absurd hflag (by decide)
  cases hs with
  | makeTiny h0 => exact ⟨A, hr, rfl, hunset h0, fun s hp => by cases hp⟩
  | makeSmall h0 h1 =>
    obtain ⟨b, hr₁⟩ := createZone_zero (c := .tiny) hP hr h1
    exact ⟨_, hr₁, rfl, hunset h0, fun s hp => by cases hp⟩
  | publish h0 h1 h2 =>
    obtain ⟨b, hr₁⟩ := createZone_zero (c := .tiny) hP hr h1
    obtain ⟨b', hr₂⟩ := createZone_zero (c := .small) hP hr₁ h2
    refine ⟨_, hr₂, rfl, hunset h0, fun s _ c hnil => ?_⟩
    cases c with
    | tiny =>
      have hm : b ∈ ((A.addZone P .tiny b).addZone P .small b').lists Cls.tiny.freeHead :=
        AHeap.mem_addZone.mpr (Or.inl (AHeap.mem_addZone.mpr (Or.inr ⟨rfl, rfl⟩)))
      rw [hnil] at hm
      exact absurd hm List.not_mem_nil
    | small =>
      have hm : b' ∈ ((A.addZone P .tiny b).addZone P .small b').lists Cls.small.freeHead :=
        AHeap.mem_addZone.mpr (Or.inr ⟨rfl, rfl⟩)
      rw [hnil] at hm
      exact absurd hm List.not_mem_nil

end FtMalloc
