import Mathlib.Logic.Basic

/-!
# Programs that stop with a reason

`Exec ε σ α` is a deterministic program over a state `σ`: it returns a value and a new state, or
stops with an error that says what went wrong. `bind_run`, `bind_ok` and `bind_error` follow
a run through a sequence.
-/

namespace FtMalloc.Lib

/-- A program over the state `σ` that may stop with an `ε`, which says why; the state is then given
up. -/
def Exec (ε σ α : Type) : Type := σ → Except ε (α × σ)

namespace Exec

variable {ε σ α β : Type}

instance : Monad (Exec ε σ) where
  pure a := fun s => .ok (a, s)
  bind x f := fun s => match x s with
    | .ok r => f r.1 r.2
    | .error e => .error e

/-- Stop. -/
def stop (e : ε) : Exec ε σ α := fun _ => .error e

variable {x : Exec ε σ α} {f : α → Exec ε σ β} {s s' : σ} {a : α} {e : ε}
  {o : Except ε (β × σ)}

@[simp] theorem pure_run (a : α) (s : σ) : (pure a : Exec ε σ α) s = .ok (a, s) := rfl

/-- After a run that returns, the rest runs from where it ended. -/
theorem bind_run (h : x s = .ok (a, s')) : (x >>= f) s = f a s' := by
  change (match x s with
    | .ok r => f r.1 r.2
    | .error e => .error e) = f a s'
  rw [h]

theorem bind_ok (h : x s = .ok (a, s')) (hr : f a s' = o) : (x >>= f) s = o :=
  (bind_run h).trans hr

/-- A sequence whose first part stops stops. -/
theorem bind_error (h : x s = .error e) : (x >>= f) s = .error e := by
  change (match x s with
    | .ok r => f r.1 r.2
    | .error e => .error e) = .error e
  rw [h]

theorem if_true_run {c : Prop} [Decidable c] {x y : Exec ε σ α} {o : Except ε (α × σ)} (hc : c)
    (h : x s = o) : (if c then x else y) s = o := by
  rw [if_pos hc]
  exact h

theorem if_false_run {c : Prop} [Decidable c] {x y : Exec ε σ α} {o : Except ε (α × σ)}
    (hc : ¬c) (h : y s = o) : (if c then x else y) s = o := by
  rw [if_neg hc]
  exact h

end Exec

end FtMalloc.Lib
