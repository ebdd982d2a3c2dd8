import FtMalloc.Refine.Bonus
import FtMalloc.Run.Invariant

/-!
# Runs of the bonus allocator by one thread

`bonus` is the bonus allocator as an `Api`. `BonusInv` is the invariant of the mandatory allocator
with every mutex free.

The bonus `realloc` does not reject sizes above `PTRDIFF_MAX` (`malloc_bonus.c:350-354`), so the
length it passes to `mmap` may wrap; `Unwrapped` says that a step does not get such a mapping.

Results:
* `Bonus.call_effect`, `Bonus.step_effect`: a call keeps the invariant, unless it is not
  `Unwrapped`.
* `Bonus.run_inv`: so does every run of such calls.
* `Bonus.step_mandatory`: on high addresses, with resizings in range, a call is that of `malloc.c`.
-/

namespace FtMalloc

open Lib

variable [Platform]

/-- The entry points of `malloc_bonus.c`, whose `realloc(p, 0)` releases `p`
(`malloc_bonus.c:329-332`). -/
def bonus : Api BonusWorld where
  malloc := Bonus.malloc
  free := Bonus.free
  realloc := Bonus.realloc
  write := fun a b => Bonus.lift (storeByte a b)
  zeroFrees := true

/-- The machine before the first call, every mutex free. -/
def BonusWorld.init (pageSize : Nat) (m : Mem) (answers : List (Option Nat)) : BonusWorld :=
  ⟨World.init pageSize m answers, Bonus.unlocked⟩

/-- The length of a mapping this step asks for does not wrap, or the mapping is refused. -/
def Unwrapped (c : Config BonusWorld) (op : Op) : Prop :=
  ∀ p s, op = .realloc p s → p ≠ null →
    48 + s < 2 ^ 64 ∨ c.state.world.os.reply (wrap (48 + s)) = none

/-- **The invariant of a configuration of the bonus allocator**: that of the world, with every mutex
free between two calls of one thread. -/
structure BonusInv (P : Nat) (c : Config BonusWorld) (A : AHeap) : Prop where
  inv : Inv P ⟨c.state.world, c.live⟩ A
  free : c.state.held = Bonus.unlocked

variable {P : Nat} {A : AHeap} {os : Os} {s q a : Nat} {k : Cell} {c c' : Config BonusWorld}
  {op : Op} {w w' : World}

namespace Bonus

/-- The effect of a call of the bonus allocator, which differs in `free` and `realloc`. -/
abbrev Effect (P : Nat) (A : AHeap) (os : Os) : Op → Nat × AHeap × Os → Prop :=
  EffectOf P A os (A.bonusFree P os) (A.bonusRealloc P os)

omit [Platform] in
/-- A resizing to one byte or more, the case the two allocators share. -/
theorem bonusRealloc_resizes (hP : ValidPage P) (hs : A.Sound P os) (hk : A.Holds k) (h0 : s ≠ 0)
    (hwrap : 48 + s < 2 ^ 64 ∨ os.reply (wrap (48 + s)) = none) :
    AHeap.Resizes P A k s (A.bonusRealloc P os k s) := by
  unfold AHeap.bonusRealloc
  rw [if_neg h0]
  by_cases hfit : s ≤ A.cap k
  · rw [if_pos hfit]
    exact AHeap.Resizes.same hs hk hfit
  · rw [if_neg hfit]
    exact (AHeap.alloc_serves hP hs (hs.ok.initialized_of_holds hk) hwrap).replace hP hs.ok.toWf hk

/-- A call of `malloc` (`malloc_bonus.c:221-245`), also through `realloc(NULL, s)`. -/
theorem malloc_call (hP : ValidPage P) (hI : BonusInv P c A) (s : Nat) :
    let r := A.malloc P c.state.world.os s
    ∃ w', malloc s c.state = some (r.1, { c.state with world := w' }) ∧ w'.os = r.2.2 ∧
      Inv P ⟨w', if r.1 = null then c.live else ⟨r.1, s⟩ :: c.live⟩ r.2.1 := by
  obtain ⟨w', hrun, hos, hI'⟩ := FtMalloc.malloc_call hP hI.inv s
  exact ⟨w', malloc_eq hP hI.inv.rep hI.inv.ok hI.free hrun, hos, hI'⟩

/-- A call of `free` (`malloc_bonus.c:293-315`) on a held cell's pointer, also through
`realloc(p, 0)`. -/
theorem free_call (hP : ValidPage P) (hI : BonusInv P c A) (hk : A.Holds k) :
    let r := A.bonusFree P c.state.world.os k
    ∃ w', free (k.addr P) c.state = some ((), { c.state with world := w' }) ∧ w'.os = r.2 ∧
      Inv P ⟨w', drop c.live (k.addr P)⟩ r.1 := by
  obtain ⟨w', hrun, hos, hr', -⟩ := free_run hP hI.inv.rep hI.inv.ok hk hI.free
  obtain ⟨hs', hkeep⟩ := AHeap.bonusFree_releases hP hI.inv.sound hk
  exact ⟨w', hrun, hos, hr', hs'.ok, hI.inv.owned.release hkeep⟩

/-- A call of `realloc` (`malloc_bonus.c:317-365`) on a held cell's pointer, to one byte or more. -/
theorem realloc_call (hP : ValidPage P) (hI : BonusInv P c A) (hk : A.Holds k) (h0 : s ≠ 0)
    (hwrap : 48 + s < 2 ^ 64 ∨ c.state.world.os.reply (wrap (48 + s)) = none) :
    let r := A.bonusRealloc P c.state.world.os k s
    ∃ w', realloc (k.addr P) s c.state = some (r.1, { c.state with world := w' }) ∧
      w'.os = r.2.2 ∧
      Inv P ⟨w', if r.1 ≠ null then ⟨r.1, s⟩ :: drop c.live (k.addr P) else c.live⟩ r.2.1 := by
  obtain ⟨w', hrun, hos, hr', -⟩ := realloc_run hP hI.inv.rep hI.inv.ok hk hI.free h0 hwrap
  have hres := bonusRealloc_resizes hP hI.inv.sound hk h0 hwrap
  exact ⟨w', hrun, hos, hr', hres.sound.ok, hI.inv.owned.resize hP hres⟩

/-- **No call that keeps the rules faults**, unless its mapping wraps: it has its effect, releases
every mutex, and the invariant survives it. -/
theorem call_effect (hP : ValidPage P) (hI : BonusInv P c A) (hv : op.Valid c.live)
    (hg : Unwrapped c op) :
    ∃ w' r, bonus.call op c.state = some (r.1, { c.state with world := w' }) ∧ w'.os = r.2.2 ∧
      Effect P A c.state.world.os op r ∧
      BonusInv P ⟨{ c.state with world := w' }, op.after true c.live r.1⟩ r.2.1 := by
  have hnull : drop c.live null = c.live := drop_of_not_mem (hI.inv.ptr_ne_null hP)
  cases op with
  | malloc s =>
    obtain ⟨w', hrun, hos, hI'⟩ := malloc_call hP hI s
    exact ⟨w', _, hrun, hos, EffectOf.malloc s, hI', hI.free⟩
  | free p =>
    rcases hv with rfl | hx
    · refine ⟨c.state.world, (null, A, c.state.world.os), rfl, rfl, EffectOf.freeNull, ?_, hI.free⟩
      refine ⟨hI.inv.rep, hI.inv.ok, ?_⟩
      change Owned P A (drop c.live null)
      rw [hnull]
      exact hI.inv.owned
    · obtain ⟨k, hk, rfl⟩ := hI.inv.cell hx
      obtain ⟨w', hrun, hos, hI'⟩ := free_call hP hI hk
      exact ⟨w', (null, A.bonusFree P c.state.world.os k), Prog.bind_to hrun rfl, hos,
        EffectOf.free hk, hI', hI.free⟩
  | realloc p s =>
    rcases hv.2 with rfl | hx
    · obtain ⟨w', hrun, hos, hI'⟩ := malloc_call hP hI s
      rw [← realloc_null] at hrun
      refine ⟨w', _, hrun, hos, EffectOf.reallocNull s, ⟨hI'.rep, hI'.ok, ?_⟩, hI.free⟩
      simp only [Op.after, hnull, ite_self]
      rw [ite_not]
      exact hI'.owned
    · obtain ⟨k, hk, rfl⟩ := hI.inv.cell hx
      have hne := hI.inv.rep.addr_ne_zero hP (hI.inv.rep.wf.hasCell hk)
      by_cases h0 : s = 0
      · subst h0
        obtain ⟨w', hrun, hos, hI'⟩ := free_call hP hI hk
        have hzero : A.bonusRealloc P c.state.world.os k 0 =
            (0, A.bonusFree P c.state.world.os k) := if_pos rfl
        refine ⟨w', _, ?_, ?_, EffectOf.realloc 0 hk, ?_, hI.free⟩
        · rw [hzero]
          exact Prog.if_false_run hne (Prog.if_true_run rfl (Prog.bind_to hrun rfl))
        · rw [hzero]
          exact hos
        · rw [hzero]
          exact hI'
      · obtain ⟨w', hrun, hos, hI'⟩ := realloc_call hP hI hk h0 (hg _ s rfl hne)
        refine ⟨w', _, hrun, hos, EffectOf.realloc s hk, ?_, hI.free⟩
        simp only [Op.after, h0, and_false, if_false]
        exact hI'
  | write a b =>
    obtain ⟨k, -, -, -, -, hrun, hr'⟩ := write_call hP hI.inv.rep hI.inv.owned hv
    exact ⟨_, (null, A, c.state.world.os), Prog.bind_to (lift_of hrun) rfl, rfl, EffectOf.write a b,
      ⟨hr', hI.inv.ok, hI.inv.owned⟩, hI.free⟩

/-- **One step** has an effect and keeps the invariant, unless its mapping wraps. -/
theorem step_effect (hP : ValidPage P) (hI : BonusInv P c A) (hg : Unwrapped c op)
    (hs : Step bonus c op q c') :
    ∃ r, Effect P A c.state.world.os op r ∧ q = r.1 ∧ c'.state.world.os = r.2.2 ∧
      BonusInv P c' r.2.1 := by
  obtain ⟨w', r, hrun, hos, he, hI'⟩ := call_effect hP hI hs.valid hg
  obtain ⟨rfl, hstate⟩ := Prod.mk.inj (Option.some.inj (hs.run.symm.trans hrun))
  have hc : c' = ⟨{ c.state with world := w' }, op.after true c.live r.1⟩ := by
    obtain ⟨state, live⟩ := c'
    obtain rfl : state = { c.state with world := w' } := hstate
    exact congrArg (Config.mk _) hs.live
  subst hc
  exact ⟨r, he, rfl, hos, hI'⟩

omit [Platform] in
theorem init_inv (hP : ValidPage P) {m : Mem} {answers : List (Option Nat)} :
    BonusInv P ⟨BonusWorld.init P m answers, []⟩ AHeap.empty :=
  ⟨FtMalloc.init_inv hP, rfl⟩

/-- **The invariant holds along every run whose mappings do not wrap**: one that does is shorter
than the size in its header says. -/
theorem run_inv (hP : ValidPage P) {m : Mem} {answers : List (Option Nat)} {t : List (Op × Nat)}
    (hrun : RunIn bonus Unwrapped ⟨BonusWorld.init P m answers, []⟩ t c) :
    ∃ A, BonusInv P c A := by
  refine hrun.invariant (I := fun c => ∃ A, BonusInv P c A) ?_ ⟨_, init_inv hP⟩
  rintro c op q c' ⟨A, hI⟩ hg hs
  obtain ⟨r, -, -, -, hI'⟩ := step_effect hP hI hg hs
  exact ⟨_, hI'⟩

end Bonus

/-! ## Beside the mandatory allocator -/

/-- A resizing asks for 1 to `PTRDIFF_MAX` bytes, the calls on which the two files agree. -/
def Op.Common (op : Op) : Prop := ∀ p s, op = .realloc p s → p ≠ null → 1 ≤ s ∧ s ≤ ptrdiffMax

/-- The configuration of the bonus allocator with no mutex held, beside one of `malloc.c`. -/
def Config.bonus (c : Config World) : Config BonusWorld := ⟨⟨c.state, Bonus.unlocked⟩, c.live⟩

variable {d d' : Config World}

namespace Bonus

/-- **On high addresses a call does what it does in `malloc.c`**, where the test of the header word
in `free` (`malloc_bonus.c:303`) lets every block pass. -/
theorem call_mandatory (hP : ValidPage P) (hI : Inv P d A) (hhigh : d.state.os.High)
    (hv : op.Valid d.live) (hg : op.Common) (hrun : mandatory.call op d.state = some (q, w')) :
    FtMalloc.bonus.call op d.bonus.state = some (q, ⟨w', unlocked⟩) := by
  cases op with
  | malloc s => exact malloc_eq hP hI.rep hI.ok rfl hrun
  | free p =>
    obtain ⟨u, t, h1, h2⟩ := Prog.bind_eq_some.mp hrun
    obtain ⟨rfl, rfl⟩ := Prod.mk.inj (Option.some.inj h2)
    rcases hv with rfl | hx
    · obtain ⟨-, rfl⟩ := Prod.mk.inj (Option.some.inj h1)
      rfl
    · obtain ⟨k, hk, rfl⟩ := hI.cell hx
      have hcell := hI.rep.wf.hasCell hk
      have hword := hI.rep.backed.word_high hP hhigh hcell
      have hfree : freePtr (k.addr P) d.state = some ((), t) :=
        (Prog.if_false_run (hI.rep.addr_ne_zero hP hcell) rfl).symm.trans h1
      exact Prog.bind_to (free_eq (W := d.bonus.state) hP hI.rep hcell rfl (by omega) hfree) rfl
  | realloc p s =>
    rcases hv.2 with rfl | hx
    · have hmalloc : FtMalloc.malloc s d.state = some (q, w') :=
        (congrFun (FtMalloc.realloc_null s) _).symm.trans hrun
      have hbonus := malloc_eq (W := d.bonus.state) hP hI.rep hI.ok rfl hmalloc
      rw [← realloc_null] at hbonus
      exact hbonus
    · obtain ⟨k, hk, rfl⟩ := hI.cell hx
      obtain ⟨h1, h2⟩ := hg _ s rfl (hI.rep.addr_ne_zero hP (hI.rep.wf.hasCell hk))
      obtain ⟨t, hbonus, -, -, hsame⟩ := realloc_run (W := d.bonus.state) hP hI.rep hI.ok hk rfl
        (by omega) (Or.inl (length_lt_of_le_ptrdiffMax h2))
      obtain ⟨rfl, rfl⟩ := Prod.mk.inj (Option.some.inj ((hsame h2).symm.trans hrun))
      exact hbonus
  | write a b =>
    obtain ⟨u, t, h1, h2⟩ := Prog.bind_eq_some.mp hrun
    obtain ⟨rfl, rfl⟩ := Prod.mk.inj (Option.some.inj h2)
    exact Prog.bind_to (lift_of h1) rfl

omit [Platform] in
/-- Both clients own the same after a call: they differ on `realloc(p, 0)` only. -/
theorem after_mandatory (hP : ValidPage P) (hI : Inv P d A) (hg : op.Common) :
    op.after true d.live q = op.after false d.live q := by
  cases op with
  | realloc p s =>
    by_cases hp : p = null
    · subst hp
      have hnull : drop d.live null = d.live := drop_of_not_mem (hI.ptr_ne_null hP)
      simp [Op.after, hnull]
    · have h1 := (hg p s rfl hp).1
      have h0 : s ≠ 0 := by omega
      simp [Op.after, h0]
  | _ => rfl

/-- **One step** of both allocators, with the same result and the same world after it. -/
theorem step_mandatory (hP : ValidPage P) (hI : Inv P d A) (hhigh : d.state.os.High)
    (hg : op.Common) :
    Step FtMalloc.bonus d.bonus op q c' ↔ ∃ d', Step mandatory d op q d' ∧ c' = d'.bonus := by
  constructor
  · intro hs
    obtain ⟨w', r, hrun, -⟩ := FtMalloc.call_effect hP hI hs.valid
    have hbonus := call_mandatory hP hI hhigh hs.valid hg hrun
    obtain ⟨rfl, hstate⟩ := Prod.mk.inj (Option.some.inj (hs.run.symm.trans hbonus))
    refine ⟨⟨w', op.after false d.live r.1⟩, ⟨hs.valid, hrun, rfl⟩, ?_⟩
    obtain ⟨state, live⟩ := c'
    obtain rfl : state = ⟨w', unlocked⟩ := hstate
    exact congrArg (Config.mk _) (hs.live.trans (after_mandatory hP hI hg))
  · rintro ⟨d', hs, rfl⟩
    exact ⟨hs.valid, call_mandatory hP hI hhigh hs.valid hg hs.run,
      hs.live.trans (after_mandatory hP hI hg).symm⟩

end Bonus

omit [Platform] in
/-- The mandatory allocator keeps to high addresses, if the kernel proposes no others. -/
theorem Effect.high (hP : ValidPage P) (hs : A.Sound P os) {r : Nat × AHeap × Os}
    (he : FtMalloc.Effect P A os op r) (h : os.High) : r.2.2.High := by
  cases he with
  | malloc s => exact h.maps AHeap.malloc_mapsOnly
  | freeNull => exact h
  | free hk => exact AHeap.free_high hs hk h
  | reallocNull s => exact h.maps AHeap.malloc_mapsOnly
  | realloc s hk => exact AHeap.realloc_high hP hs hk h
  | write => exact h

end FtMalloc
