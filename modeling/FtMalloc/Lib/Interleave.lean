import Mathlib.Logic.Relation
import Mathlib.Logic.Function.Basic

/-!
# Threads over a shared state

A `Sys` is a shared state and one private state for each thread; a step is an atomic step of one
of them. The threads are indexed by any type, so there are any number of them.

The rule (`Keeps.reach`) is about assertions of three kinds, over a ghost value `g` that they
share: `I g s` of the shared state alone, `J g s t` of the shared state and one thread, and `D t u`
of two threads. A thread that takes a step shows `I` and its own `J` of the new state, and that the
`J` of every thread that was `D` from it survives the step.
-/

namespace FtMalloc.Lib

/-- A shared state and the threads' own, for threads numbered by any type. -/
structure Sys (ι σ τ : Type) where
  shared : σ
  thread : ι → τ

namespace Sys

variable {ι σ τ γ : Type} [DecidableEq ι] {next : σ → τ → σ → τ → Prop} {I : γ → σ → Prop}
  {J : γ → σ → τ → Prop} {D : τ → τ → Prop} {g : γ} {S S' : Sys ι σ τ}

/-- The state after a step of thread `i`. -/
def set (S : Sys ι σ τ) (i : ι) (s : σ) (t : τ) : Sys ι σ τ := ⟨s, Function.update S.thread i t⟩

/-- One atomic step of one thread; the others keep what is their own. -/
inductive Step (next : σ → τ → σ → τ → Prop) (S : Sys ι σ τ) : Sys ι σ τ → Prop
  | mk (i : ι) {s : σ} {t : τ} : next S.shared (S.thread i) s t → Step next S (S.set i s t)

/-- The states an interleaving reaches, the threads taking turns in any order. -/
abbrev Reach (next : σ → τ → σ → τ → Prop) : Sys ι σ τ → Sys ι σ τ → Prop :=
  Relation.ReflTransGen (Step next)

/-- The assertions hold: `I` of the shared state, `J` of each thread in it, and `D` between any two
threads; `g` is what they share besides. -/
structure Holds (I : γ → σ → Prop) (J : γ → σ → τ → Prop) (D : τ → τ → Prop) (g : γ)
    (S : Sys ι σ τ) : Prop where
  shared : I g S.shared
  own : ∀ i, J g S.shared (S.thread i)
  apart : ∀ {i j}, i ≠ j → D (S.thread i) (S.thread j)

/-- What a step of a thread has to show: its own assertion, that of the shared state, and that no
other thread's is lost. -/
structure Keeps (next : σ → τ → σ → τ → Prop) (I : γ → σ → Prop) (J : γ → σ → τ → Prop)
    (D : τ → τ → Prop) : Prop where
  symm : ∀ {t u}, D t u → D u t
  step : ∀ {g s t s' t'}, I g s → J g s t → next s t s' t' →
    ∃ g', I g' s' ∧ J g' s' t' ∧ ∀ u, D t u → J g s u → J g' s' u ∧ D t' u

@[simp] theorem set_thread {i : ι} {s : σ} {t : τ} : (S.set i s t).thread i = t :=
  Function.update_self ..

@[simp] theorem set_set {i : ι} {s s' : σ} {t t' : τ} : (S.set i s t).set i s' t' = S.set i s' t' :=
  congrArg (Sys.mk s') (Function.update_idem ..)

@[simp] theorem set_self {i : ι} : S.set i S.shared (S.thread i) = S :=
  congrArg (Sys.mk S.shared) (Function.update_eq_self ..)

theorem set_thread_ne {i j : ι} {s : σ} {t : τ} (h : j ≠ i) : (S.set i s t).thread j = S.thread j :=
  Function.update_of_ne h ..

/-- A relation with more steps reaches more. -/
theorem Reach.mono {next' : σ → τ → σ → τ → Prop}
    (hsub : ∀ {s t s' t'}, next s t s' t' → next' s t s' t') (hr : Reach next S S') :
    Reach next' S S' := by
  induction hr with
  | refl => exact .refl
  | tail _ hs ih =>
    obtain ⟨i, hn⟩ := hs
    exact ih.tail (.mk i (hsub hn))

/-- **One step** of one thread keeps the assertions of all. -/
theorem Keeps.holds (hk : Keeps next I J D) (hh : Holds I J D g S) (hs : Step next S S') :
    ∃ g', Holds I J D g' S' := by
  obtain ⟨i, hn⟩ := hs
  obtain ⟨g', hI, hJ, hothers⟩ := hk.step hh.shared (hh.own i) hn
  refine ⟨g', hI, fun j => ?_, fun {j k} hjk => ?_⟩
  · by_cases hj : j = i
    · subst hj
      rwa [set_thread]
    · rw [set_thread_ne hj]
      exact (hothers _ (hh.apart (Ne.symm hj)) (hh.own j)).1
  · by_cases hj : j = i
    · subst hj
      rw [set_thread, set_thread_ne (Ne.symm hjk)]
      exact (hothers _ (hh.apart hjk) (hh.own k)).2
    · rw [set_thread_ne hj]
      by_cases hki : k = i
      · subst hki
        rw [set_thread]
        exact hk.symm (hothers _ (hh.apart (Ne.symm hjk)) (hh.own j)).2
      · rw [set_thread_ne hki]
        exact hh.apart hjk

/-- **Interleavings** keep the assertions. -/
theorem Keeps.reach (hk : Keeps next I J D) (hh : Holds I J D g S) (hr : Reach next S S') :
    ∃ g', Holds I J D g' S' := by
  induction hr with
  | refl => exact ⟨g, hh⟩
  | tail _ hs ih =>
    obtain ⟨g', hh'⟩ := ih
    exact hk.holds hh' hs

end Sys

end FtMalloc.Lib
