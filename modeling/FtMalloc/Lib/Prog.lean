import Mathlib.Logic.Basic

/-!
# Programs that may fault

`Prog σ α` is a deterministic program over a state `σ`: it returns a value and a new state, or
`none` when it faults or never returns. Runs are equations `x s = some (a, s')`; `bind_of`
chains them, and `forUp` is the counted loop.
-/

namespace FtMalloc.Lib

/-- A program over the state `σ`; `none` is a fault or a divergence. -/
def Prog (σ α : Type) : Type := σ → Option (α × σ)

namespace Prog

variable {σ α β : Type}

instance : Monad (Prog σ) where
  pure a := fun s => some (a, s)
  bind x f := fun s => (x s).bind fun r => f r.1 r.2

instance : LawfulMonad (Prog σ) :=
  LawfulMonad.mk' (Prog σ)
    (fun x => by
      funext s
      change ((x s).bind fun r => some (r.1, r.2)) = x s
      cases x s <;> rfl)
    (fun _ _ => rfl)
    (fun x f g => by
      funext s
      change ((x s).bind fun r => f r.1 r.2).bind _ = (x s).bind _
      cases x s <;> rfl)

/-- Read the state. -/
def get : Prog σ σ := fun s => some (s, s)

/-- Change the state, without a result. -/
def modify (f : σ → σ) : Prog σ Unit := fun s => some ((), f s)

/-- Fault. -/
def fault : Prog σ α := fun _ => none

/-- `for (i = lo; i < lo + k; i++) body i`. -/
def forUp (body : Nat → Prog σ Unit) : Nat → Nat → Prog σ Unit
  | _, 0 => pure ()
  | lo, k + 1 => do
    body lo
    forUp body (lo + 1) k

variable {x : Prog σ α} {f : α → Prog σ β} {s s' s'' : σ} {a : α} {r : β}

@[simp] theorem pure_run (a : α) (s : σ) : (pure a : Prog σ α) s = some (a, s) := rfl

@[simp] theorem get_run (s : σ) : (get : Prog σ σ) s = some (s, s) := rfl

@[simp] theorem modify_run (g : σ → σ) (s : σ) : (modify g : Prog σ Unit) s = some ((), g s) := rfl

@[simp] theorem fault_run (s : σ) : (fault : Prog σ α) s = none := rfl

theorem bind_run (x : Prog σ α) (f : α → Prog σ β) (s : σ) :
    (x >>= f) s = (x s).bind fun r => f r.1 r.2 := rfl

/-- **Chaining**: after a run of `x`, the rest runs from where it ended. -/
theorem bind_of (h : x s = some (a, s')) : (x >>= f) s = f a s' := by
  rw [bind_run, h]
  rfl

/-- A sequence whose first part faults, faults. -/
theorem bind_none (h : x s = none) : (x >>= f) s = none := by
  rw [bind_run, h]
  rfl

/-- Chaining, against a goal: the state is read off the goal. -/
theorem bind_to {o : Option (β × σ)} (h : x s = some (a, s')) (hr : f a s' = o) :
    (x >>= f) s = o :=
  (bind_of h).trans hr

@[simp] theorem pure_bind (a : α) (f : α → Prog σ β) (s : σ) : (pure a >>= f) s = f a s := rfl

@[simp] theorem get_bind (f : σ → Prog σ β) (s : σ) : (get >>= f) s = f s s := rfl

@[simp] theorem modify_bind (g : σ → σ) (f : Unit → Prog σ β) (s : σ) :
    (modify g >>= f) s = f () (g s) := rfl

/-- A run of a sequence is a run of each part. -/
theorem bind_eq_some : (x >>= f) s = some (r, s'') ↔
    ∃ a s', x s = some (a, s') ∧ f a s' = some (r, s'') := by
  rw [bind_run]
  cases h : x s with
  | none => simp
  | some p =>
    obtain ⟨a, s'⟩ := p
    constructor
    · intro hf
      exact ⟨a, s', rfl, hf⟩
    · rintro ⟨a', t, e, hf⟩
      cases e
      exact hf

theorem if_true_run {c : Prop} [Decidable c] {x y : Prog σ α} {o : Option (α × σ)} (hc : c)
    (h : x s = o) : (if c then x else y) s = o := by
  rw [if_pos hc]
  exact h

theorem if_false_run {c : Prop} [Decidable c] {x y : Prog σ α} {o : Option (α × σ)} (hc : ¬c)
    (h : y s = o) : (if c then x else y) s = o := by
  rw [if_neg hc]
  exact h

theorem ite_run {c : Prop} [Decidable c] (x y : Prog σ α) (s : σ) :
    (if c then x else y) s = if c then x s else y s := by
  split <;> rfl

/-! ## Programs that only read -/

/-- The program changes nothing, when it returns. -/
def ReadOnly (x : Prog σ α) : Prop := ∀ s a s', x s = some (a, s') → s' = s

theorem ReadOnly.pure (a : α) : ReadOnly (Pure.pure a : Prog σ α) := fun s b s' h => by
  cases h
  rfl

theorem ReadOnly.bind (hx : ReadOnly x) (hf : ∀ a, ReadOnly (f a)) : ReadOnly (x >>= f) := by
  intro s b s'' h
  obtain ⟨a, s', h1, h2⟩ := bind_eq_some.mp h
  rw [hf a _ _ _ h2, hx _ _ _ h1]

/-- A first part that only reads leaves the rest the same state. -/
theorem ReadOnly.run_bind (hx : ReadOnly x) (h : (x >>= f) s = some (r, s')) :
    ∃ a, x s = some (a, s) ∧ f a s = some (r, s') := by
  obtain ⟨a, t, h1, h2⟩ := bind_eq_some.mp h
  obtain rfl := hx _ _ _ h1
  exact ⟨a, h1, h2⟩

theorem ReadOnly.ite {c : Prop} [Decidable c] {y : Prog σ α} (hx : ReadOnly x) (hy : ReadOnly y) :
    ReadOnly (if c then x else y) := by
  split
  · exact hx
  · exact hy

/-! ## Loops -/

/-- **The counted loop**: when every round takes the invariant one step up, the loop takes it
from its start to its end. -/
theorem forUp_run {body : Nat → Prog σ Unit} {I : Nat → σ → Prop} :
    ∀ {k lo : Nat} {s : σ}, I lo s →
      (∀ i t, lo ≤ i → i < lo + k → I i t → ∃ t', body i t = some ((), t') ∧ I (i + 1) t') →
      ∃ s', forUp body lo k s = some ((), s') ∧ I (lo + k) s'
  | 0, lo, s, h, _ => ⟨s, rfl, h⟩
  | k + 1, lo, s, h, step => by
    obtain ⟨t, ht, hI⟩ := step lo s (Nat.le_refl lo) (by omega) h
    obtain ⟨s', hs, hI'⟩ := forUp_run (k := k) hI fun i t h1 h2 =>
      step i t (by omega) (by omega)
    refine ⟨s', ?_, by rwa [show lo + (k + 1) = lo + 1 + k by omega]⟩
    rw [forUp, bind_of ht]
    exact hs

end Prog

end FtMalloc.Lib
