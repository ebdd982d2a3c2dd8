import FtMalloc.Abstract.Turns
import FtMalloc.Run.Following
import FtMalloc.Run.Report

/-!
# Runs are sections

Every step of a thread is a section of a call, or leaves the heap and the system as they are
(`ThreadStep.turn`); a call of the mandatory allocator is a sequence of sections
(`EffectOf.turns`). What every section keeps (`AHeap.Kept`) therefore holds in every state of either
allocator, whichever `mmap` calls fail: `reachable_kept`, `threads_kept`.
-/

namespace FtMalloc

open Lib Bonus

variable {P : Nat} {A A' : AHeap} {W W' : BonusWorld} {w : World} {live : List Alloc} {a : Activity}
  {o : Next} {op : Op} {r : Nat × AHeap × Os} {os os' : Os} {c : Config World} {t t' : Thread}
  {ι : Type} [DecidableEq ι] {S : Sys ι BonusWorld Thread} {I : AHeap → Os → Prop}

/-! ## One step -/

/-- One step of a thread is one turn of the abstract heap, or none. -/
theorem ThreadStep.turn [Platform] (hP : ValidPage P) (hI : HeapInv P A W) (ht : ThreadInv P A W t)
    (hs : ThreadStep W t W' t') : ∃ A', A.Turn P W.world.os A' W'.world.os ∧ Rep P W'.world A' := by
  cases hs with
  | call hv hr => exact ⟨A, .idle, hI.rep⟩
  | exec hrun =>
    obtain ⟨A', hd⟩ := exec_did hP hI ht hrun
    exact ⟨A', hd.turn, (hd.heap hI).rep⟩

/-! ## What every section keeps -/

/-- `I` holds of the heap before the first call, every section keeps it, and it is about the state
of the machine, whichever abstract heap represents it. -/
structure AHeap.Kept (P : Nat) (I : AHeap → Os → Prop) : Prop where
  empty : ∀ {os : Os}, os.regions = [] → I AHeap.empty os
  turn : ∀ {A A' os os'}, A.Turn P os A' os' → A.Sound P os → I A os → I A' os'
  rep : ∀ {w A A'}, Rep P w A → Rep P w A' → I A w.os → I A' w.os

/-- Sections, one after the other, keep what each of them keeps. -/
theorem AHeap.Kept.turns (hK : AHeap.Kept P I) {x y : AHeap × Os} (ht : AHeap.Turns P x y)
    (h : I x.1 x.2) : I y.1 y.2 := by
  induction ht with
  | refl => exact h
  | tail _ hstep ih => exact hK.turn hstep.2 hstep.1 ih

/-- **A call is a sequence of sections**: a setup, an allocation and a release at most. -/
theorem EffectOf.turns (hP : ValidPage P) (hs : A.Sound P os) (he : Effect P A os op r) :
    AHeap.Turns P (A, os) r.2 := by
  cases he with
  | malloc s => exact AHeap.malloc_turns hP hs
  | freeNull => exact .refl
  | free hk => exact AHeap.free_turns hs hk
  | reallocNull s => exact AHeap.malloc_turns hP hs
  | realloc s hk => exact AHeap.realloc_turns hP hs hk
  | write => exact .refl

/-- **Runs of the mandatory allocator** keep what every section keeps. -/
theorem reachable_kept [Platform] (hK : AHeap.Kept P I) (hc : Reachable P c) :
    ∃ A, Inv P c A ∧ I A c.state.os := by
  obtain ⟨hP, m, answers, l, hrun⟩ := hc
  refine hrun.invariant (I := fun c => ∃ A, Inv P c A ∧ I A c.state.os) ?_
    ⟨_, init_inv hP, hK.empty rfl⟩
  rintro c op q c' ⟨A, hI, h⟩ - hs
  obtain ⟨r, he, rfl, hos, hI'⟩ := step_effect hP hI hs
  exact ⟨_, hI', hos ▸ hK.turns (he.turns hP hI.sound) h⟩

/-- **Interleavings of threads** keep what every section keeps, so one proof serves both
allocators. -/
theorem threads_kept [Platform] (hK : AHeap.Kept P I) (hS : Threads.Reachable P S) :
    ∃ A, HeapInv P A S.shared ∧ I A S.shared.world.os := by
  obtain ⟨A, hh⟩ := threads_inv hS
  obtain ⟨hP, m, answers, hreach⟩ := hS
  suffices hi : ∃ A, Rep P S.shared.world A ∧ I A S.shared.world.os by
    obtain ⟨A₀, hr₀, h₀⟩ := hi
    exact ⟨A, hh.shared, hK.rep hr₀ hh.shared.rep h₀⟩
  clear hh
  induction hreach with
  | refl => exact ⟨_, (init_inv hP).rep, hK.empty rfl⟩
  | tail hreach hs ih =>
    obtain ⟨A₀, hr₀, h₀⟩ := ih
    obtain ⟨A, hh⟩ := threads_inv ⟨hP, m, answers, hreach⟩
    obtain ⟨i, hn⟩ := hs
    obtain ⟨A', hturn, hr'⟩ := hn.turn hP hh.shared (hh.own i)
    exact ⟨A', hr', hK.turn hturn hh.shared.sound (hK.rep hr₀ hh.shared.rep h₀)⟩

/-- **No mapping is lost**: every one is a node's, after every section and whichever `mmap` fail. -/
theorem listed_kept (hP : ValidPage P) : AHeap.Kept P AHeap.Listed where
  empty := AHeap.Listed.empty
  turn ht hs hl := ht.listed hP hs hl
  rep hr hr' hl := fun r hm => by
    obtain ⟨h, hb⟩ := hl r hm
    refine ⟨h, ?_⟩
    rwa [← hr'.nodes_eq, hr.nodes_eq]

/-- **Recorded sizes fit** the cells they are recorded for, after every section. -/
theorem fitting_kept (hP : ValidPage P) : AHeap.Kept P fun A _ => A.Fitting where
  empty _ := AHeap.Fitting.empty
  turn ht hs hf := ht.fitting hs hf
  rep {w A A'} hr hr' hf := by
    intro c z i n hk
    have hz : A.HasZone c z := hr.inClass_iff.mp (hr'.inClass_iff.mpr hk.1)
    have hi : i < c.cells P := (hr'.wf.hasCell hk.holds).2
    have htaken : A'.taken z i = true := AHeap.taken_iff.mpr ⟨n, hk.2⟩
    have hbit := (hr'.taken_bit hP hk.1 hi).symm.trans (hr.taken_bit hP hz hi)
    rw [htaken, Bool.not_true, Bool.false_eq, Bool.not_eq_false'] at hbit
    obtain ⟨n', hn'⟩ := AHeap.taken_iff.mp hbit
    have hsame : n = n' :=
      ((hr'.zone hk.1).1.sizes i n hk.2).symm.trans ((hr.zone hz).1.sizes i n' hn')
    rw [hsame]
    exact hf ⟨hz, hn'⟩

end FtMalloc
