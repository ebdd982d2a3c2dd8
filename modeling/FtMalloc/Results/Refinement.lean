import FtMalloc.Run.Bonus

/-!
# The bonus allocator refines the mandatory one

`bonus_refines`: run by one thread on addresses from `2 ^ 32` on, with resizings to 1 to
`PTRDIFF_MAX` bytes, the bonus allocator has the runs of the mandatory one, with the same results
and, after each call, the same memory, the same heap variable and the same mappings.
-/

namespace FtMalloc

open Lib

variable {P : Nat} {m : Mem} {answers : List (Option Nat)} {t : List (Op × Nat)}
  {c : Config World} {e : Config BonusWorld}

/-- A run of the mandatory allocator whose resizings are `Common`. -/
abbrev CommonRun [Platform] (P : Nat) (m : Mem) (answers : List (Option Nat)) :
    List (Op × Nat) → Config World → Prop :=
  RunIn mandatory (fun _ op => op.Common) ⟨World.init P m answers, []⟩

/-- What a run on high addresses keeps. -/
theorem commonRun_inv [Platform] (hP : ValidPage P) (hhigh : ∀ b, some b ∈ answers → 2 ^ 32 ≤ b)
    (hrun : CommonRun P m answers t c) : ∃ A, Inv P c A ∧ c.state.os.High := by
  refine hrun.invariant (I := fun c => ∃ A, Inv P c A ∧ c.state.os.High) ?_
    ⟨_, init_inv hP, ⟨fun _ hr => absurd hr List.not_mem_nil, hhigh⟩⟩
  rintro c op q c' ⟨A, hI, hh⟩ - hs
  obtain ⟨r, he, -, hos, hI'⟩ := step_effect hP hI hs
  exact ⟨_, hI', hos ▸ he.high hP hI.sound hh⟩

/-- A run of the bonus allocator is one of the mandatory allocator. -/
theorem commonRun_of_bonus [Platform]
    (hP : ValidPage P) (hhigh : ∀ b, some b ∈ answers → 2 ^ 32 ≤ b)
    (hrun : RunIn bonus (fun _ op => op.Common) ⟨BonusWorld.init P m answers, []⟩ t e) :
    ∃ c, CommonRun P m answers t c ∧ e = c.bonus := by
  induction hrun with
  | nil => exact ⟨_, RunIn.nil, rfl⟩
  | snoc _ hg hs ih =>
    obtain ⟨c, hc, rfl⟩ := ih
    obtain ⟨A, hI, hh⟩ := commonRun_inv hP hhigh hc
    obtain ⟨c', hs', rfl⟩ := (Bonus.step_mandatory hP hI hh hg).mp hs
    exact ⟨c', hc.snoc hg hs', rfl⟩

/-- A run of the mandatory allocator is one of the bonus allocator. -/
theorem commonRun_bonus [Platform] (hP : ValidPage P) (hhigh : ∀ b, some b ∈ answers → 2 ^ 32 ≤ b)
    (hrun : CommonRun P m answers t c) :
    RunIn bonus (fun _ op => op.Common) ⟨BonusWorld.init P m answers, []⟩ t c.bonus := by
  induction hrun with
  | nil => exact RunIn.nil
  | snoc hc hg hs ih =>
    obtain ⟨A, hI, hh⟩ := commonRun_inv hP hhigh hc
    exact ih.snoc hg ((Bonus.step_mandatory hP hI hh hg).mpr ⟨_, hs, rfl⟩)

/-- **Refinement.** Both allocators have the same runs, and from every configuration of such a run
every call returns, in both with the same result and the same state. -/
theorem bonus_refines [Platform] (hP : ValidPage P) (hhigh : ∀ b, some b ∈ answers → 2 ^ 32 ≤ b) :
    (∀ t e, RunIn bonus (fun _ op => op.Common) ⟨BonusWorld.init P m answers, []⟩ t e ↔
      ∃ c, CommonRun P m answers t c ∧ e = c.bonus) ∧
    ∀ t c, CommonRun P m answers t c → ∀ op : Op, op.Valid c.live → op.Common →
      ∃ q c', Step mandatory c op q c' ∧ Step bonus c.bonus op q c'.bonus := by
  refine ⟨fun t e => ⟨commonRun_of_bonus hP hhigh, ?_⟩, fun t c hrun op hv hg => ?_⟩
  · rintro ⟨c, hrun, rfl⟩
    exact commonRun_bonus hP hhigh hrun
  · obtain ⟨A, hI, hh⟩ := commonRun_inv hP hhigh hrun
    obtain ⟨w', r, hcall, -⟩ := call_effect hP hI hv
    have hs : Step mandatory c op r.1 ⟨w', op.after mandatory.zeroFrees c.live r.1⟩ :=
      ⟨hv, hcall, rfl⟩
    exact ⟨_, _, hs, (Bonus.step_mandatory hP hI hh hg).mpr ⟨_, hs, rfl⟩⟩

/-- A kernel that grants the first four mappings, above `2 ^ 32`. -/
def highAnswers : List (Option Nat) :=
  [some (2 ^ 32), some (2 ^ 33), some (2 ^ 34), some (2 ^ 35)]

theorem highAnswers_high : ∀ b, some b ∈ highAnswers → 2 ^ 32 ≤ b := by simp [highAnswers]

/-- A test for `Op.Common`. -/
def commons (_ : Config World) : Op → Bool
  | .realloc _ s => decide (1 ≤ s ∧ s ≤ ptrdiffMax)
  | _ => true

theorem common_of_commons {op : Op} (h : commons c op) : op.Common := by
  rintro p s rfl -
  exact of_decide_eq_true h

/-- A tiny block is resized and moves to a small one, a large block is released; the next call
releases the block that has moved. -/
theorem bonus_refines_sample : ∃ t c, CommonRun 4096 (fun _ => 0) highAnswers t c ∧
    c.live = [⟨8589936533, 400⟩, ⟨8589935501, 500⟩] ∧
    RunIn bonus (fun _ op => op.Common) ⟨BonusWorld.init 4096 (fun _ => 0) highAnswers, []⟩ t
      c.bonus ∧
    ∃ q c', Step mandatory c (.free 8589936533) q c' ∧
      Step bonus c.bonus (.free 8589936533) q c'.bonus := by
  have heval : (mandatory.eval commons [.malloc 24, .malloc 500, .malloc 200000,
      .realloc 4294968197 400, .free 17179869232]
        ⟨World.init 4096 (fun _ => 0) highAnswers, []⟩).map (·.2.live) =
          some [⟨8589936533, 400⟩, ⟨8589935501, 500⟩] := by decide +kernel
  obtain ⟨⟨t, c⟩, heval, hlive⟩ := Option.map_eq_some_iff.mp heval
  have hlive : c.live = [⟨8589936533, 400⟩, ⟨8589935501, 500⟩] := hlive
  have hrun := Api.eval_run (fun _ _ => common_of_commons) heval
  obtain ⟨hruns, hsteps⟩ := bonus_refines (m := fun _ => 0) validPage_4096 highAnswers_high
  refine ⟨t, c, hrun, hlive, (hruns _ _).mpr ⟨c, hrun, rfl⟩, hsteps t c hrun _ ?_ fun _ _ he => ?_⟩
  · rw [hlive]
    exact Or.inr ⟨_, List.mem_cons_self, rfl⟩
  · cases he

end FtMalloc
