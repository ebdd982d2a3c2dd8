import FtMalloc.Lib.ByteMem
import Mathlib.Data.List.Basic

/-!
# Bitmaps in flat memory

`bit m a i` is bit `i` of the bitmap whose bytes start at `a`: bit `i % 8` of byte `a + i / 8`,
the least significant bit first.

Results:
* `bit_put_set`, `bit_put_clear`: or-ing in or masking out one bit of one byte changes that bit
  of the bitmap and no other.
* `popcount_flip`: two bitmaps that differ in one bit count one apart.
* `bit_fresh`: a bitmap filled with ones whose last byte is masked to `n % 8` bits has exactly
  the bits below `n`; `popcount_fresh`: these are `n`.
-/

namespace FtMalloc.Lib

/-- Bit `i` of the bitmap at `a`: the low bit of a byte comes first, and the bytes are in the order
of their addresses. -/
def bit (m : Mem) (a i : Nat) : Bool := (m (a + i / 8)).getLsbD (i % 8)

/-- The number of set bits among the first `n`. -/
def popcount (m : Mem) (a n : Nat) : Nat := (List.range n).countP (bit m a)

/-- The byte with bit `j` alone: `1 << j`. -/
def bitMask (j : Nat) : Byte := 1#8 <<< j

variable {m m' : Mem} {a i j n : Nat}

theorem bit_congr (h : m' (a + i / 8) = m (a + i / 8)) : bit m' a i = bit m a i := by
  unfold bit
  rw [h]

/-! ## One bit of a byte -/

theorem getLsbD_bitMask {k : Nat} (hk : k < 8) : (bitMask j).getLsbD k = decide (k = j) := by
  unfold bitMask
  rw [BitVec.getLsbD_shiftLeft]
  by_cases h : k = j
  · subst h
    simp [hk]
  · by_cases hlt : k < j
    · simp [hlt, h]
    · have : k - j ≠ 0 := by omega
      simp [hlt, h, hk, BitVec.getLsbD_one, this]

theorem getLsbD_or_bitMask (b : Byte) {k : Nat} (hk : k < 8) :
    (b ||| bitMask j).getLsbD k = (b.getLsbD k || decide (k = j)) := by
  rw [BitVec.getLsbD_or, getLsbD_bitMask hk]

theorem getLsbD_and_not_bitMask (b : Byte) {k : Nat} (hk : k < 8) :
    (b &&& ~~~bitMask j).getLsbD k = (b.getLsbD k && !decide (k = j)) := by
  rw [BitVec.getLsbD_and, BitVec.getLsbD_not, getLsbD_bitMask hk]
  simp [hk]

/-- `byte & (1 << j)` is nonzero exactly when bit `j` is set. -/
theorem and_bitMask_ne_zero (b : Byte) (hj : j < 8) :
    b &&& bitMask j ≠ 0#8 ↔ b.getLsbD j = true := by
  constructor
  · intro h
    by_contra hb
    apply h
    apply BitVec.eq_of_getLsbD_eq
    intro k hk
    rw [BitVec.getLsbD_and, getLsbD_bitMask hk, BitVec.getLsbD_zero]
    by_cases hkj : k = j
    · subst hkj
      simp [hb]
    · simp [hkj]
  · intro hb h
    have hk : (b &&& bitMask j).getLsbD j = true := by
      rw [BitVec.getLsbD_and, hb, getLsbD_bitMask hj]
      simp
    rw [h, BitVec.getLsbD_zero] at hk
    exact Bool.false_ne_true hk

/-! ## Updating one bit -/

/-- **Setting a bit** of one byte sets that bit of the bitmap and changes no other. -/
theorem bit_put_set :
    bit (put m (a + i / 8) (m (a + i / 8) ||| bitMask (i % 8))) a j =
      (bit m a j || decide (j = i)) := by
  unfold bit
  have hj : j % 8 < 8 := Nat.mod_lt _ (by decide)
  by_cases hbyte : j / 8 = i / 8
  · rw [hbyte, put_same, getLsbD_or_bitMask _ hj]
    congr 1
    exact decide_eq_decide.mpr ⟨fun h => by omega, fun h => by rw [h]⟩
  · rw [put_out (by omega), decide_eq_false (fun h => hbyte (by rw [h])), Bool.or_false]

/-- **Clearing a bit** of one byte clears that bit of the bitmap and changes no other. -/
theorem bit_put_clear :
    bit (put m (a + i / 8) (m (a + i / 8) &&& ~~~bitMask (i % 8))) a j =
      (bit m a j && !decide (j = i)) := by
  unfold bit
  have hj : j % 8 < 8 := Nat.mod_lt _ (by decide)
  by_cases hbyte : j / 8 = i / 8
  · rw [hbyte, put_same, getLsbD_and_not_bitMask _ hj]
    congr 2
    exact decide_eq_decide.mpr ⟨fun h => by omega, fun h => by rw [h]⟩
  · rw [put_out (by omega), decide_eq_false (fun h => hbyte (by rw [h])), Bool.not_false,
      Bool.and_true]

/-! ## Counting -/

/-- One more element counts. -/
theorem countP_range_flip {p q : Nat → Bool} (hp : p i = false) (hq : q i = true) :
    ∀ n, i < n → (∀ j, j < n → j ≠ i → q j = p j) →
    (List.range n).countP q = (List.range n).countP p + 1 := by
  intro n
  induction n with
  | zero => exact fun hi => absurd hi (Nat.not_lt_zero _)
  | succ n ih =>
    intro hi hpq
    rw [List.range_succ, List.countP_append, List.countP_append, List.countP_singleton,
      List.countP_singleton]
    by_cases hin : i = n
    · subst hin
      have hsame : (List.range i).countP q = (List.range i).countP p :=
        List.countP_congr fun j hj => by
          have hlt := List.mem_range.mp hj
          rw [hpq j (by omega) (by omega)]
      rw [hsame, hp, hq]
      rfl
    · have hrest := ih (by omega) fun j hj => hpq j (by omega)
      rw [hrest, hpq n (Nat.lt_succ_self n) (Ne.symm hin)]
      omega

/-- **Two bitmaps that differ in one bit**: the one that has it set counts one more. -/
theorem popcount_flip {N : Nat} (hi : i < N) (h : bit m a i = false) (h' : bit m' a i = true)
    (hrest : ∀ j, j < N → j ≠ i → bit m' a j = bit m a j) :
    popcount m' a N = popcount m a N + 1 :=
  countP_range_flip h h' N hi hrest

/-- No more bits are set than there are places for them, which bounds a counter that agrees with the
bitmap. -/
theorem popcount_le : ∀ N, (∀ j, n ≤ j → j < N → bit m a j = false) → popcount m a N ≤ n := by
  intro N
  unfold popcount
  induction N with
  | zero => exact fun _ => Nat.zero_le _
  | succ N ih =>
    intro h
    by_cases hN : n ≤ N
    · have hrest := ih fun j h1 h2 => h j h1 (by omega)
      rw [List.range_succ, List.countP_append, List.countP_singleton, h N hN (Nat.lt_succ_self N)]
      exact hrest
    · have hle := List.countP_le_length (p := bit m a) (l := List.range (N + 1))
      rw [List.length_range] at hle
      omega

/-! ## A fresh bitmap -/

/-- The mask of the low `r` bits of a byte, for a last byte that is only partly used. -/
def lowMask (r : Nat) : Byte := BitVec.ofNat 8 (2 ^ r - 1)

theorem getLsbD_lowMask {r k : Nat} (hk : k < 8) :
    (lowMask r).getLsbD k = decide (k < r) := by
  unfold lowMask
  rw [BitVec.getLsbD_ofNat, Nat.testBit_two_pow_sub_one]
  simp [hk]

/-- **A fresh bitmap** of `n` bits, the last byte masked: exactly the bits below `n` are set. -/
theorem bit_fresh (hm : ∀ k, k < (n + 7) / 8 →
      m (a + k) = if n % 8 ≠ 0 ∧ k = (n + 7) / 8 - 1 then lowMask (n % 8) else 0xFF#8)
    (hi : i < 8 * ((n + 7) / 8)) : bit m a i = decide (i < n) := by
  have hk : i % 8 < 8 := Nat.mod_lt _ (by decide)
  unfold bit
  rw [hm (i / 8) (by omega)]
  split
  · rename_i h
    rw [getLsbD_lowMask hk]
    exact decide_eq_decide.mpr (by omega)
  · have hlt : i < n := by omega
    have hones : ∀ k : Nat, k < 8 → (0xFF#8).getLsbD k = true := by decide
    rw [hones _ hk, decide_eq_true hlt]

/-- A bitmap with exactly the bits below `n` has `n` of them. -/
theorem popcount_fresh {N : Nat} (hn : n ≤ N) (hb : ∀ i, i < N → bit m a i = decide (i < n)) :
    popcount m a N = n := by
  obtain ⟨k, rfl⟩ := Nat.exists_eq_add_of_le hn
  have hlow : (List.range n).countP (bit m a) = n := by
    refine (List.countP_eq_length.mpr fun i hi => ?_).trans List.length_range
    have hlt := List.mem_range.mp hi
    rw [hb i (by omega), decide_eq_true hlt]
  have hhigh : ((List.range k).map (n + ·)).countP (bit m a) = 0 := by
    refine List.countP_eq_zero.mpr fun j hj => ?_
    obtain ⟨i, hi, rfl⟩ := List.mem_map.mp hj
    have hlt := List.mem_range.mp hi
    rw [hb (n + i) (by omega)]
    simp
  unfold popcount
  rw [List.range_add, List.countP_append, hlow, hhigh]
  rfl

end FtMalloc.Lib
