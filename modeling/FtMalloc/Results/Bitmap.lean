import FtMalloc.Refine.Slots
import FtMalloc.Source.Slots
import FtMalloc.Run.Client

/-!
# Searching and updating a bitmap (`malloc.c:105-123`, `141-143`, `238-239`)

A zone here is any `zone_t` with a bitmap of `(n + 7) / 8` bytes whose bits from `n` on are clear,
and with an array of `n` sizes; it need not be one that `create_zone` made. A negative
`number_of_blocks` stands for no blocks. `n + 7` is an `int` operation.

Results:
* `search_first`: both versions of `find_set_bit` find the least set bit, or return -1 when there
  is none.
* `takeSlot_run`, `releaseSlot_run`: either update changes one bit, and the count with it.
* `bitmap_slots`: all of this, for `n + 7` below `2 ^ 31`.
* `bitmap_overflow`: `n = 2 ^ 31 - 1`, where `n + 7` leaves the range of `int`.
-/

namespace FtMalloc

open Lib

variable {w : World} {m m' : Mem} {z n a r k i : Nat}

/-- The bytes of a bitmap of `n` bits. -/
def bitmapSize (n : Nat) : Nat := (n + 7) / 8

/-- A zone of `n` blocks, with its bitmap at `a` and its sizes at `r`. -/
structure ZoneBits (w : World) (z n a r : Nat) : Prop where
  nonnull : z ≠ 0
  header : w.os.Mapped z ZoneT.sizeof
  blocks : (ldInt w.mem (z + ZoneT.numberOfBlocks)).toNat = n
  bitmapAt : ld w.mem 8 (z + ZoneT.bitmap) = a
  sizesAt : ld w.mem 8 (z + ZoneT.requestedSizes) = r
  bitmap : ∀ i, i < bitmapSize n → w.os.Mapped (a + i) 1
  sizes : ∀ k, k < n → w.os.Mapped (r + 8 * k) 8
  clear : ∀ i, n ≤ i → i < 8 * bitmapSize n → bit w.mem a i = false
  bitmapApart : a + bitmapSize n ≤ z ∨ z + ZoneT.sizeof ≤ a
  sizesApart : r + 8 * n ≤ z ∨ z + ZoneT.sizeof ≤ r
  arraysApart : a + bitmapSize n ≤ r ∨ r + 8 * n ≤ a

/-- The number of set bits of a bitmap of `n` bits. -/
def setBits (m : Mem) (a n : Nat) : Nat := popcount m a (8 * bitmapSize n)

/-- `i` is the least index of a set bit, or -1 and there is none. -/
def FirstSet (m : Mem) (a n : Nat) (i : Int) : Prop :=
  (i = -1 ∧ ∀ j, j < 8 * bitmapSize n → bit m a j = false) ∨
  ∃ k : Nat, i = k ∧ k < n ∧ bit m a k = true ∧ ∀ j, j < k → bit m a j = false

/-- Bit `k` of the bitmap is `v` now, nothing else of it changed, and `free_count` went by `d`. -/
structure Updated (w w' : World) (z n a k : Nat) (v : Bool) (d : Int) : Prop where
  changed : bit w'.mem a k = v
  others : ∀ j, j < 8 * bitmapSize n → j ≠ k → bit w'.mem a j = bit w.mem a j
  freeCount : ldInt w'.mem (z + ZoneT.freeCount) =
    wrapInt (ldInt w.mem (z + ZoneT.freeCount) + d)
  count : bit w.mem a k = !v → (setBits w'.mem a n : Int) = setBits w.mem a n + d
  inStep : bit w.mem a k = !v → ldInt w.mem (z + ZoneT.freeCount) = setBits w.mem a n →
    ldInt w'.mem (z + ZoneT.freeCount) = setBits w'.mem a n

/-! ## The search -/

/-- A clear bitmap. -/
theorem scanBytes_none {bm : Nat} (found : Nat → Int) : ∀ {k i : Nat},
    (∀ j, j < i + k → w.os.Mapped (bm + j) 1) →
    (∀ t, i * 8 ≤ t → t < (i + k) * 8 → bit w.mem bm t = false) →
    scanBytes bm found i k w = some (-1, w)
  | 0, _, _, _ => rfl
  | k + 1, i, hm, hlow => by
    have hmiss : scanByte (w.mem (bm + i)) i 0 8 = none := by
      refine scanByte_none (by omega) fun t _ ht => ?_
      have hbit := hlow (i * 8 + t) (by omega) (by omega)
      unfold bit at hbit
      rwa [show (i * 8 + t) / 8 = i by omega, show (i * 8 + t) % 8 = t by omega] at hbit
    unfold scanBytes
    refine Prog.bind_to (loadByte_of (hm i (by omega))) ?_
    rw [hmiss]
    exact scanBytes_none found (fun j hj => hm j (by omega)) fun t h1 h2 =>
      hlow t (by omega) (by omega)

/-- Either scan, with what it returns for the bit it finds. -/
theorem ZoneBits.scan (hz : ZoneBits w z n a r) (found : Nat → Int)
    (hfound : ∀ k : Nat, k < n → found k = k) :
    ∃ i, scanBytes a found 0 (bitmapSize n) w = some (i, w) ∧ FirstSet w.mem a n i := by
  by_cases hnone : ∀ j, j < 8 * bitmapSize n → bit w.mem a j = false
  · refine ⟨-1, scanBytes_none found (fun j hj => hz.bitmap j (by omega)) fun t _ ht =>
      hnone t (by omega), .inl ⟨rfl, hnone⟩⟩
  · have hsome : ∃ k, k < 8 * bitmapSize n ∧ bit w.mem a k = true := by
      by_contra h
      refine hnone fun j hj => ?_
      by_contra hb
      exact h ⟨j, hj, by simpa using hb⟩
    -- the first set bit is that of a block
    obtain ⟨hk, hset⟩ := Nat.find_spec hsome
    have hlow : ∀ j, j < Nat.find hsome → bit w.mem a j = false := fun j hj => by
      by_contra hb
      exact Nat.find_min hsome hj ⟨by omega, by simpa using hb⟩
    generalize Nat.find hsome = k at hk hset hlow
    have hkn : k < n := by
      by_contra hge
      rw [hz.clear k (by omega) hk] at hset
      cases hset
    refine ⟨k, ?_, .inr ⟨k, rfl, hkn, hset, hlow⟩⟩
    have hscan := scanBytes_run (w := w) (by omega : 0 * 8 ≤ k) (k := bitmapSize n) (by omega)
      (fun j hj => hz.bitmap j (by omega)) hset (fun t _ ht => hlow t ht) found
    rw [hscan, hfound k hkn]

theorem ZoneBits.field (hz : ZoneBits w z n a r) {o s : Nat} (h : o + s ≤ ZoneT.sizeof) :
    w.os.Mapped (z + o) s := by
  obtain ⟨g, hg, h1, h2⟩ := hz.header
  exact ⟨g, hg, by omega, by omega⟩

/-- An `int` in memory. -/
theorem le_ldInt (m : Mem) (a : Nat) : -2 ^ 31 ≤ ldInt m a := by
  have h := Int.le_bmod (x := (ld m 4 a : Int)) (m := 2 ^ 32) (by decide)
  unfold ldInt castInt
  omega

theorem ldInt_lt (m : Mem) (a : Nat) : ldInt m a < 2 ^ 31 := by
  have h := Int.bmod_lt (x := (ld m 4 a : Int)) (m := 2 ^ 32) (by decide)
  unfold ldInt castInt
  omega

/-- `num_bytes` of `find_set_bit`. -/
def numBytes (c : Int) : Nat := ((wrapInt (c + 7)).tdiv 8).toNat

theorem tdiv_nonpos {i : Int} (h : i ≤ 0) : i.tdiv 8 ≤ 0 := by
  have hneg := Int.tdiv_nonneg (by omega : 0 ≤ -i) (by decide : (0 : Int) ≤ 8)
  rw [Int.neg_tdiv] at hneg
  omega

theorem numBytes_eq {c : Int} (hlo : -2 ^ 31 ≤ c) (hc : c.toNat + 7 < 2 ^ 31) :
    numBytes c = bitmapSize c.toNat := by
  unfold numBytes bitmapSize
  rw [wrapInt_small (by omega) (by omega)]
  rcases Int.lt_or_le (c + 7) 0 with hneg | hpos
  · have hdiv := tdiv_nonpos (by omega : c + 7 ≤ 0)
    omega
  · rw [Int.tdiv_eq_ediv_of_nonneg hpos]
    omega

/-- The sum of the last seven numbers of blocks with 7 is no `int`. -/
theorem numBytes_overflow {c : Int} (h : 2 ^ 31 ≤ c.toNat + 7) (hc : c < 2 ^ 31) :
    numBytes c = 0 := by
  have hsum : c + 7 = (c.toNat + 7 : Nat) := by omega
  have hneg := wrapInt_over h (by omega)
  unfold numBytes
  rw [hsum]
  have hdiv := tdiv_nonpos hneg.le
  omega

/-- Both versions are a scan of the bitmap. -/
theorem ZoneBits.find_run (hz : ZoneBits w z n a r) {find : Nat → C Int}
    (hfind : find = findSetBit ∨ find = Bonus.findSetBit) :
    ∃ found : Nat → Int, (∀ k : Nat, k < n → found k = k) ∧ find z w =
      scanBytes a found 0 (numBytes (ldInt w.mem (z + ZoneT.numberOfBlocks))) w := by
  have hblocks := loadInt_of (hz.field (o := ZoneT.numberOfBlocks) (s := 4) (by decide))
  have hbitmap := load_to (hz.field (by decide)) hz.bitmapAt
  rcases hfind with rfl | rfl
  · refine ⟨fun b => b, fun k _ => rfl, ?_⟩
    exact Prog.if_false_run hz.nonnull (Prog.bind_to hblocks (Prog.bind_to hbitmap rfl))
  · refine ⟨fun b => if (b : Int) ≥ ldInt w.mem (z + ZoneT.numberOfBlocks) then -1 else b,
      fun k hk => ?_, ?_⟩
    · have hcount := hz.blocks
      exact if_neg (by omega)
    · exact Prog.if_false_run hz.nonnull (Prog.bind_to hblocks (Prog.bind_to hbitmap rfl))

/-- **`find_set_bit`**, either version. -/
theorem search_first (hz : ZoneBits w z n a r) (hn : n + 7 < 2 ^ 31) {find : Nat → C Int}
    (hfind : find = findSetBit ∨ find = Bonus.findSetBit) :
    ∃ i, find z w = some (i, w) ∧ FirstSet w.mem a n i := by
  obtain ⟨found, hfound, hrun⟩ := hz.find_run hfind
  have hcount := hz.blocks
  rw [numBytes_eq (le_ldInt _ _) (by rw [hcount]; exact hn), hcount] at hrun
  rw [hrun]
  exact hz.scan found hfound

/-! ## The updates -/

/-- A bitmap after a change of bit `k`, with its counter. -/
theorem Updated.of_bits {v : Bool} {d : Int} (hz : ZoneBits w z n a r) (hn : n + 7 < 2 ^ 31)
    (hk : k < n) (hd : d = if v then 1 else -1) (hbit : bit m' a k = v)
    (hothers : ∀ j, j < 8 * bitmapSize n → j ≠ k → bit m' a j = bit w.mem a j)
    (hcount : ldInt m' (z + ZoneT.freeCount) = wrapInt (ldInt w.mem (z + ZoneT.freeCount) + d)) :
    Updated w (w.setMem m') z n a k v d := by
  have hin : k < 8 * bitmapSize n := by
    unfold bitmapSize
    omega
  have hflip : bit w.mem a k = !v → (setBits m' a n : Int) = setBits w.mem a n + d := by
    intro hold
    unfold setBits
    cases v with
    | false =>
      rw [popcount_flip hin hbit hold fun j h1 h2 => (hothers j h1 h2).symm]
      subst hd
      simp
    | true =>
      rw [popcount_flip hin hold hbit hothers]
      subst hd
      simp
  have hmax : setBits m' a n ≤ n := popcount_le _ fun j h1 h2 => by
    rw [hothers j h2 (by omega)]
    exact hz.clear j h1 h2
  exact {
    changed := hbit
    others := hothers
    freeCount := hcount
    count := hflip
    inStep := fun hold heq => by
      refine hcount.trans ?_
      rw [heq, ← hflip hold]
      exact wrapInt_nat (by omega) }

/-- The zone stays one when its header and the bits past the end do. -/
theorem ZoneBits.keep (hz : ZoneBits w z n a r)
    (he : ∀ x, z ≤ x → x < z + ZoneT.freeCount → m' x = w.mem x)
    (hclear : ∀ i, n ≤ i → i < 8 * bitmapSize n → bit m' a i = false) :
    ZoneBits (w.setMem m') z n a r :=
  have hword : ∀ o s, o + s ≤ ZoneT.freeCount → ∀ x, z + o ≤ x → x < z + o + s → m' x = w.mem x :=
    fun o s ho x h1 h2 => he x (by omega) (by omega)
  { hz with
    blocks := (congrArg Int.toNat (ldInt_congr (hword ZoneT.numberOfBlocks 4 (by decide)))).trans
      hz.blocks
    bitmapAt := (ld_congr (hword ZoneT.bitmap 8 (by decide))).trans hz.bitmapAt
    sizesAt := (ld_congr (hword ZoneT.requestedSizes 8 (by decide))).trans hz.sizesAt
    clear := hclear }

theorem ZoneBits.updateBitmap_run (hz : ZoneBits w z n a r) (hk : k < n) (f : Byte → Byte) :
    updateBitmap z k f w =
      some ((), w.setMem (put w.mem (a + k / 8) (f (w.mem (a + k / 8))))) := by
  have hm : w.os.Mapped (a + k / 8) 1 := hz.bitmap _ (by unfold bitmapSize; omega)
  refine Prog.bind_to (load_to (hz.field (by decide)) hz.bitmapAt) ?_
  exact Prog.bind_to (loadByte_of hm) (storeByte_of hm)

/-- The counter goes with a change of bit `k` that left the header alone. -/
theorem ZoneBits.addFreeCount_run {v : Bool} {d : Int} (hz : ZoneBits w z n a r)
    (hn : n + 7 < 2 ^ 31) (hk : k < n) (hd : d = if v then 1 else -1)
    (hbits : ∀ j, j < 8 * bitmapSize n → bit m a j = if j = k then v else bit w.mem a j)
    (hheader : ∀ x, z ≤ x → x < z + ZoneT.sizeof → m x = w.mem x) :
    ∃ w', addFreeCount z d (w.setMem m) = some ((), w') ∧ ZoneBits w' z n a r ∧
      Updated w w' z n a k v d := by
  have hin : k < 8 * bitmapSize n := by
    unfold bitmapSize
    omega
  have happ := hz.bitmapApart
  have hcount : ldInt m (z + ZoneT.freeCount) = ldInt w.mem (z + ZoneT.freeCount) :=
    ldInt_congr fun x h1 h2 => hheader x (by omega) (by
      simp only [ZoneT.freeCount, ZoneT.sizeof] at *
      omega)
  -- the counter lies in the header
  have hstore : ∀ j, j < 8 * bitmapSize n →
      bit (stInt m (z + ZoneT.freeCount) (ldInt m (z + ZoneT.freeCount) + d)) a j = bit m a j :=
    fun j hj => bit_congr (st_out (by simp only [ZoneT.freeCount, ZoneT.sizeof] at *; omega))
  refine ⟨w.setMem (stInt m (z + ZoneT.freeCount) (ldInt m (z + ZoneT.freeCount) + d)),
    FtMalloc.addFreeCount_run (hz.field (by decide)), hz.keep (fun x h1 h2 => ?_) fun j h1 h2 => ?_,
    .of_bits hz hn hk hd ?_ (fun j hj hjk => ?_) ?_⟩
  · rw [stInt, st_out (by omega)]
    exact hheader x h1 (by simp only [ZoneT.freeCount, ZoneT.sizeof] at *; omega)
  · rw [hstore j h2, hbits j h2, if_neg (by omega)]
    exact hz.clear j h1 h2
  · rw [hstore k hin, hbits k hin, if_pos rfl]
  · rw [hstore j hj, hbits j hj, if_neg hjk]
  · rw [ldInt_stInt_wrap, hcount]

/-- **Releasing a slot.** -/
theorem releaseSlot_run (hz : ZoneBits w z n a r) (hn : n + 7 < 2 ^ 31) (hk : k < n) :
    ∃ w', releaseSlot z k w = some ((), w') ∧ ZoneBits w' z n a r ∧
      Updated w w' z n a k true 1 := by
  have happ := hz.bitmapApart
  have hin : k / 8 < bitmapSize n := by
    unfold bitmapSize
    omega
  obtain ⟨w', hrun, hkeep, hup⟩ := hz.addFreeCount_run (v := true) (d := 1) hn hk rfl
    (m := put w.mem (a + k / 8) (setByte (k % 8) (w.mem (a + k / 8))))
    (fun j _ => by
      rw [setByte_eq, bit_put_set]
      by_cases hjk : j = k <;> simp [hjk])
    fun x h1 h2 => put_out (by omega)
  exact ⟨w', Prog.bind_to (hz.updateBitmap_run hk _) hrun, hkeep, hup⟩

/-- **Taking a slot.** -/
theorem takeSlot_run (hz : ZoneBits w z n a r) (hn : n + 7 < 2 ^ 31) (hk : k < n) (size : Nat) :
    ∃ w', takeSlot z k size w = some ((), w') ∧ ZoneBits w' z n a r ∧
      Updated w w' z n a k false (-1) := by
  have happ := hz.bitmapApart
  have hsapp := hz.sizesApart
  have haapp := hz.arraysApart
  have hin : k / 8 < bitmapSize n := by
    unfold bitmapSize
    omega
  have hkeep : ∀ x, z ≤ x → x < z + ZoneT.sizeof →
      put w.mem (a + k / 8) (clearedByte (k % 8) (w.mem (a + k / 8))) x = w.mem x :=
    fun x h1 h2 => put_out (by omega)
  obtain ⟨w', hrun, hzone, hup⟩ := hz.addFreeCount_run (v := false) (d := -1) hn hk rfl
    (m := st (put w.mem (a + k / 8) (clearedByte (k % 8) (w.mem (a + k / 8)))) 8 (r + 8 * k) size)
    (fun j hj => by
      rw [bit_congr (st_out (by omega)), clearedByte_eq, bit_put_clear]
      by_cases hjk : j = k <;> simp [hjk])
    fun x h1 h2 => (st_out (by omega)).trans (hkeep x h1 h2)
  refine ⟨w', ?_, hzone, hup⟩
  refine Prog.bind_to (hz.updateBitmap_run hk _) ?_
  have hsizes : ld (put w.mem (a + k / 8) (clearedByte (k % 8) (w.mem (a + k / 8)))) 8
      (z + ZoneT.requestedSizes) = r :=
    (ld_congr fun x h1 h2 => hkeep x (by omega)
      (by simp only [ZoneT.requestedSizes, ZoneT.sizeof] at *; omega)).trans hz.sizesAt
  refine Prog.bind_to (load_to (hz.field (by decide)) hsizes) ?_
  exact Prog.bind_to (store_of (hz.sizes k hk)) hrun

/-! ## Both together -/

/-- **Searching, taking and releasing slots**: `findFreeBlockWith find` is `find_free_block` with
the search `find`, and `freeZoneBlock` is what `free` does with a block of a zone. -/
theorem bitmap_slots [Platform] (hz : ZoneBits w z n a r) (hn : n + 7 < 2 ^ 31) :
    (∀ find, find = findSetBit ∨ find = Bonus.findSetBit →
      ∃ i, find z w = some (i, w) ∧ FirstSet w.mem a n i ∧
        ∀ size, (i = -1 → findFreeBlockWith find z size w = some (null, w)) ∧
          (i ≠ -1 → ∃ w', takeSlot z i.toNat size w = some ((), w') ∧
            findFreeBlockWith find z size w = afterTake z i.toNat w' ∧
            ZoneBits w' z n a r ∧ Updated w w' z n a i.toNat false (-1))) ∧
    ∀ k, k < n → ∃ w', releaseSlot z k w = some ((), w') ∧
      freeZoneBlock z k w = afterRelease z w' ∧
      ZoneBits w' z n a r ∧ Updated w w' z n a k true 1 := by
  constructor
  · intro find hfind
    obtain ⟨i, hrun, hfirst⟩ := search_first hz hn hfind
    refine ⟨i, hrun, hfirst, fun size => ⟨fun hi => ?_, fun hi => ?_⟩⟩
    · rw [findFreeBlockWith_take]
      refine Prog.if_false_run hz.nonnull (Prog.bind_to hrun ?_)
      exact Prog.if_true_run hi rfl
    · obtain ⟨k, rfl, hk, -⟩ := hfirst.resolve_left fun h => hi h.1
      obtain ⟨w', htake, hzone, hup⟩ := takeSlot_run hz hn hk size
      refine ⟨w', htake, ?_, hzone, hup⟩
      rw [findFreeBlockWith_take]
      refine Prog.if_false_run hz.nonnull (Prog.bind_to hrun ?_)
      exact Prog.if_false_run hi (Prog.bind_of htake)
  · intro k hk
    obtain ⟨w', hrelease, hzone, hup⟩ := releaseSlot_run hz hn hk
    refine ⟨w', hrelease, ?_, hzone, hup⟩
    rw [freeZoneBlock_release, Prog.bind_of hrelease]

/-- The header and the bitmap of a zone of `n` blocks of which the first one is free. -/
def oneFreeMem (n : Nat) : Mem :=
  put (st (st (stInt (fun _ => 0) (4096 + ZoneT.numberOfBlocks) n)
    8 (4096 + ZoneT.bitmap) 8192) 8 (4096 + ZoneT.requestedSizes) (2 ^ 30)) 8192 1

/-- That zone in a region of its own. -/
def oneFree (n : Nat) : World where
  heap := Heap.init
  mem := oneFreeMem n
  os := ⟨4096, [⟨4096, 2 ^ 36⟩], [], []⟩

theorem oneFree_bit (n i : Nat) : bit (oneFree n).mem 8192 i = decide (i = 0) := by
  change (oneFreeMem n (8192 + i / 8)).getLsbD (i % 8) = decide (i = 0)
  unfold oneFreeMem
  rcases Nat.lt_or_ge i 8 with hi | hi
  · rw [Nat.div_eq_of_lt hi, Nat.mod_eq_of_lt hi, Nat.add_zero, put_same]
    exact (BitVec.getLsbD_one (w := 8)).trans (by simp)
  · have hne : i ≠ 0 := by omega
    have hdiv : 1 ≤ i / 8 := by omega
    rw [put_out (by omega), st_out (by simp only [ZoneT.requestedSizes]; omega),
      st_out (by simp only [ZoneT.bitmap]; omega), stInt,
      st_out (by simp only [ZoneT.numberOfBlocks]; omega)]
    simp [hne]

theorem oneFree_mapped {x s : Nat} (h : 4096 ≤ x) (h' : x + s ≤ 4096 + 2 ^ 36) :
    (oneFree n).os.Mapped x s := by
  have hround : 2 ^ 36 ≤ roundUp 4096 (2 ^ 36) := Os.le_roundUp (by decide)
  refine ⟨⟨4096, 2 ^ 36⟩, List.mem_singleton_self _, h, ?_⟩
  change x + s ≤ 4096 + roundUp 4096 (2 ^ 36)
  omega

theorem oneFree_zone (h1 : 1 ≤ n) (hn : n < 2 ^ 31) :
    ZoneBits (oneFree n) 4096 n 8192 (2 ^ 30) where
  nonnull := by decide
  header := oneFree_mapped (by decide) (by decide)
  blocks := by
    have hld : ldInt (oneFree n).mem (4096 + ZoneT.numberOfBlocks) = n := by
      change castInt (ld (oneFreeMem n) 4 (4096 + ZoneT.numberOfBlocks)) = n
      unfold oneFreeMem
      rw [ld_put_apart (.inl (by decide)), ld_st_apart (.inl (by decide)),
        ld_st_apart (.inl (by decide))]
      exact ldInt_stInt (by omega) (by omega)
    rw [hld, Int.toNat_natCast]
  bitmapAt := by
    change ld (oneFreeMem n) 8 (4096 + ZoneT.bitmap) = 8192
    unfold oneFreeMem
    rw [ld_put_apart (.inl (by decide)), ld_st_apart (.inr (by decide)), ld_st_same (by decide)]
  sizesAt := by
    change ld (oneFreeMem n) 8 (4096 + ZoneT.requestedSizes) = 2 ^ 30
    unfold oneFreeMem
    rw [ld_put_apart (.inl (by decide)), ld_st_same (by decide)]
  bitmap := fun i hi => by
    unfold bitmapSize at hi
    exact oneFree_mapped (by omega) (by omega)
  sizes := fun k hk => oneFree_mapped (by omega) (by omega)
  clear := fun i hi _ => by
    rw [oneFree_bit]
    exact decide_eq_false (by omega)
  bitmapApart := .inr (by decide)
  sizesApart := .inr (by decide)
  arraysApart := .inl (by
    unfold bitmapSize
    omega)

theorem bitmap_slots_sample :
    (∃ i, Bonus.findSetBit 4096 (oneFree 9) = some (i, oneFree 9) ∧
      FirstSet (oneFree 9).mem 8192 9 i) ∧
    ∃ w', releaseSlot 4096 8 (oneFree 9) = some ((), w') ∧
      Updated (oneFree 9) w' 4096 9 8192 8 true 1 := by
  have hz := oneFree_zone (n := 9) (by decide) (by decide)
  obtain ⟨hsearch, hrelease⟩ := bitmap_slots hz (by decide)
  obtain ⟨i, hrun, hfirst, -⟩ := hsearch _ (.inr rfl)
  obtain ⟨w', hw, -, -, hup⟩ := hrelease 8 (by decide)
  exact ⟨⟨i, hrun, hfirst⟩, w', hw, hup⟩

/-! ## Where `n + 7` overflows -/

/-- From `2 ^ 31 - 7` blocks on, neither version looks at any byte. -/
theorem search_overflow (hz : ZoneBits w z n a r) (hn : 2 ^ 31 ≤ n + 7) {find : Nat → C Int}
    (hfind : find = findSetBit ∨ find = Bonus.findSetBit) : find z w = some (-1, w) := by
  obtain ⟨found, -, hrun⟩ := hz.find_run hfind
  rw [hrun, numBytes_overflow (by rw [hz.blocks]; exact hn) (ldInt_lt _ _)]
  rfl

/-- **`n = 2 ^ 31 - 1`**: a block is free, and neither version finds it. -/
theorem bitmap_overflow : ∃ w z n a r, n = 2 ^ 31 - 1 ∧ ZoneBits w z n a r ∧
    bit w.mem a 0 = true ∧ findSetBit z w = some (-1, w) ∧
    Bonus.findSetBit z w = some (-1, w) := by
  have hz := oneFree_zone (n := 2 ^ 31 - 1) (by decide) (by decide)
  exact ⟨_, _, _, _, _, rfl, hz, oneFree_bit _ 0, search_overflow hz (by decide) (.inl rfl),
    search_overflow hz (by decide) (.inr rfl)⟩

end FtMalloc
