import Mathlib.Logic.Basic

/-!
# Programs that ask their environment

A `Dialogue` is a deterministic program that asks questions and goes on with whatever it is
answered: its environment may be another program, the memory, a scheduler. A `Contract` says, over
a state that the program knows of, when a question may be asked (`Pre`) and what the answers may
be (`Post`). `wp` is the weakest precondition of a program whose environment keeps the contract.

Results:
* `wp_bind`, `wp_call`: the rules of sequencing and of one question.
* `wp_mono`: a weaker postcondition has a weaker precondition.
* `wp_loop`: the counted loop, by an invariant of its round, its variables and the state.
-/

namespace FtMalloc.Lib

/-- A program that ends with a value, or asks and goes on with the answer. -/
inductive Dialogue (E : Type) (R : E → Type) (α : Type)
  | ret (a : α)
  | ask (e : E) (k : R e → Dialogue E R α)

/-- What the program may ask, and what it may be answered. -/
structure Contract (E : Type) (R : E → Type) (σ : Type) where
  Pre : E → σ → Prop
  Post : (e : E) → σ → R e → σ → Prop

namespace Dialogue

variable {E : Type} {R : E → Type} {σ α β : Type}

/-- Sequencing: the rest is asked after the last answer. -/
def bind : Dialogue E R α → (α → Dialogue E R β) → Dialogue E R β
  | ret a, f => f a
  | ask e k, f => ask e fun r => (k r).bind f

instance : Monad (Dialogue E R) where
  pure := ret
  bind := bind

/-- One question, whose answer is the result. -/
def call (e : E) : Dialogue E R (R e) := ask e ret

/-- `for (i = lo; i < lo + k; i++) b = body i b`. -/
def loop (body : Nat → β → Dialogue E R β) : Nat → Nat → β → Dialogue E R β
  | _, 0, b => pure b
  | lo, k + 1, b => do
    let b ← body lo b
    loop body (lo + 1) k b

/-- Every question the program asks is allowed, and it ends in `Q`, whatever it is answered within
the contract. -/
def wp (C : Contract E R σ) : Dialogue E R α → (α → σ → Prop) → σ → Prop
  | ret a, Q, s => Q a s
  | ask e k, Q, s => C.Pre e s ∧ ∀ r s', C.Post e s r s' → wp C (k r) Q s'

variable {C : Contract E R σ} {x : Dialogue E R α} {f : α → Dialogue E R β}
  {Q Q' : α → σ → Prop} {s : σ}

@[simp] theorem wp_pure (a : α) : wp C (pure a) Q s ↔ Q a s := Iff.rfl

@[simp] theorem wp_call (e : E) {Q : R e → σ → Prop} :
    wp C (call e) Q s ↔ C.Pre e s ∧ ∀ r s', C.Post e s r s' → Q r s' := Iff.rfl

/-- **Sequencing**: the rest has to be right from wherever the first part may end. -/
@[simp] theorem wp_bind {Q : β → σ → Prop} :
    wp C (x >>= f) Q s ↔ wp C x (fun a => wp C (f a) Q) s := by
  induction x generalizing s with
  | ret a => exact Iff.rfl
  | ask e k ih =>
    constructor
    · rintro ⟨hpre, hpost⟩
      exact ⟨hpre, fun r s' h => (ih r).mp (hpost r s' h)⟩
    · rintro ⟨hpre, hpost⟩
      exact ⟨hpre, fun r s' h => (ih r).mpr (hpost r s' h)⟩

/-- **Monotonicity**: a weaker postcondition is met too. -/
theorem wp_mono (h : wp C x Q s) (hQ : ∀ a s, Q a s → Q' a s) : wp C x Q' s := by
  induction x generalizing s with
  | ret a => exact hQ a s h
  | ask e k ih => exact ⟨h.1, fun r s' hr => ih r (h.2 r s' hr)⟩

/-- **The counted loop**: a round takes the invariant one step up. -/
theorem wp_loop {body : Nat → β → Dialogue E R β} (I : Nat → β → σ → Prop) {lo k : Nat} {b : β}
    (h : I lo b s)
    (step : ∀ i b s, lo ≤ i → i < lo + k → I i b s → wp C (body i b) (I (i + 1)) s) :
    wp C (loop body lo k b) (I (lo + k)) s := by
  induction k generalizing lo b s with
  | zero => exact h
  | succ k ih =>
    refine wp_bind.mpr (wp_mono (step lo b s (Nat.le_refl lo) (by omega) h) fun b' s' h' => ?_)
    rw [show lo + (k + 1) = lo + 1 + k by omega]
    exact ih h' fun i b s h1 h2 => step i b s (by omega) (by omega)

end Dialogue

end FtMalloc.Lib
