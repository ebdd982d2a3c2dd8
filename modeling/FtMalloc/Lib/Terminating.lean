import FtMalloc.Lib.Interleave
import Mathlib.SetTheory.Ordinal.Rank
import Mathlib.Data.DFinsupp.WellFounded
import Mathlib.Algebra.Order.BigOperators.Group.Finset

/-!
# Interleavings that end

When no thread can take steps for ever, whatever the others do to the shared state, neither can
finitely many of them together. Nothing is asked of the order of the steps, and nothing of how long
a thread takes: its steps may wait for an answer of any size.

When there is a bound for each thread, there is one for all of them (`Steps.le_total`).
-/

namespace FtMalloc.Lib.Sys

variable {ι σ τ : Type} [DecidableEq ι] {next : σ → τ → σ → τ → Prop}

/-- `t'` is `t` after one of its steps, in some shared state. -/
def After (next : σ → τ → σ → τ → Prop) (t' t : τ) : Prop := ∃ s s', next s t s' t'

/-- **Finitely many terminating threads terminate.** -/
theorem wellFounded [Finite ι] (hwf : WellFounded (After next)) :
    WellFounded fun S' S : Sys ι σ τ => Step next S S' := by
  have : IsWellFounded τ (After next) := ⟨hwf⟩
  obtain ⟨rank, hrank⟩ : ∃ rank : τ → Ordinal, ∀ {t' t}, After next t' t → rank t' < rank t :=
    ⟨IsWellFounded.rank (After next), IsWellFounded.rank_lt_of_rel⟩
  -- A step lowers the rank of one thread and leaves the others'.
  let ranks : Sys ι σ τ → ι → Ordinal := fun S i => rank (S.thread i)
  refine Subrelation.wf (fun {S' S} hs => ?_) (InvImage.wf ranks wellFounded_lt)
  obtain ⟨i, hn⟩ := hs
  refine Pi.lt_def.mpr ⟨fun j => ?_, i, ?_⟩
  · by_cases hj : j = i
    · subst hj
      simp only [ranks, set_thread]
      exact (hrank ⟨_, _, hn⟩).le
    · simp only [ranks, set_thread_ne hj, le_refl]
  · simp only [ranks, set_thread]
    exact hrank ⟨_, _, hn⟩

/-- There is no endless interleaving of them. -/
theorem ends [Finite ι] (hwf : WellFounded (After next)) (S : Nat → Sys ι σ τ) :
    ∃ n, ¬Step next (S n) (S (n + 1)) := by
  have : IsWellFounded (Sys ι σ τ) fun S' S => Step next S S' := ⟨wellFounded hwf⟩
  exact WellFounded.not_rel_apply_succ (r := fun S' S => Step next S S') S

/-- Every interleaving can be carried on to its end, a state from which no thread takes a step. -/
theorem exists_end [Finite ι] (hwf : WellFounded (After next)) (S : Sys ι σ τ) :
    ∃ S', Reach next S S' ∧ ∀ S'', ¬Step next S' S'' := by
  refine (wellFounded hwf).induction (C := fun S => ∃ S', Reach next S S' ∧
    ∀ S'', ¬Step next S' S'') S fun S ih => ?_
  by_cases h : ∃ S', Step next S S'
  · obtain ⟨S', hs⟩ := h
    obtain ⟨S'', hr, hend⟩ := ih S' hs
    exact ⟨S'', hr.head hs, hend⟩
  · exact ⟨S, .refl, fun S' hs => h ⟨S', hs⟩⟩

/-! ## Counting the steps -/

/-- `S'` is `S` after `n` steps. -/
inductive Steps (next : σ → τ → σ → τ → Prop) (S : Sys ι σ τ) : Nat → Sys ι σ τ → Prop
  | zero : Steps next S 0 S
  | succ {n : Nat} {S' S'' : Sys ι σ τ} : Steps next S n S' → Step next S' S'' →
      Steps next S (n + 1) S''

/-- A step takes something from the sum of the ranks. -/
theorem total_lt [Fintype ι] {rank : τ → Nat} (hrank : ∀ {t' t}, After next t' t → rank t' < rank t)
    {S S' : Sys ι σ τ} (hs : Step next S S') :
    ∑ i, rank (S'.thread i) < ∑ i, rank (S.thread i) := by
  obtain ⟨i, hn⟩ := hs
  refine Finset.sum_lt_sum (fun j _ => ?_) ⟨i, Finset.mem_univ i, ?_⟩
  · by_cases hj : j = i
    · subst hj
      rw [set_thread]
      exact (hrank ⟨_, _, hn⟩).le
    · rw [set_thread_ne hj]
  · rw [set_thread]
    exact hrank ⟨_, _, hn⟩

/-- **The steps of all threads** are no more than the sum of their ranks. -/
theorem Steps.le_total [Fintype ι] {rank : τ → Nat}
    (hrank : ∀ {t' t}, After next t' t → rank t' < rank t) {S S' : Sys ι σ τ} {n : Nat}
    (h : Steps next S n S') : n + ∑ i, rank (S'.thread i) ≤ ∑ i, rank (S.thread i) := by
  induction h with
  | zero => rw [Nat.zero_add]
  | succ _ hs ih =>
    have hlt := total_lt hrank hs
    omega

end FtMalloc.Lib.Sys
