import FtMalloc.Refine.Create
import FtMalloc.Run.Observe
import FtMalloc.Source.Arithmetic

/-!
# The layout of a zone, for every page and block size (`src/malloc.c:14-74`)

The rest of the development knows the zones of the two block sizes of `malloc.h`. Here the
arithmetic of `create_zone` and its initialisation of a mapped zone are taken at any page size and
any block size for which eight times `total_size` fits an `int`.

Results:
* `zone_layout`: no operation overflows, there are 100 to 2047 slots, the parts of the zone lie end
  to end inside it, and after the initialisation the bitmap has the bits of the slots and no other
  (`LaidOut`).
* `initZone_sound`: the initialisation of any mapped zone.
-/

namespace FtMalloc

open Lib

/-! ## Parts laid end to end -/

/-- The parts, each a start and a length, lie one directly after the other from `s` to `e`. -/
def EndToEnd (s : Nat) : List (Nat × Nat) → Nat → Prop
  | [], e => s = e
  | p :: ps, e => p.1 = s ∧ EndToEnd (s + p.2) ps e

section Parts

variable {s e d n k : Nat} {ps qs : List (Nat × Nat)}

theorem EndToEnd.append {u : Nat} (h : EndToEnd s ps u) (h' : EndToEnd u qs e) :
    EndToEnd s (ps ++ qs) e := by
  induction ps generalizing s with
  | nil => exact h ▸ h'
  | cons p ps ih => exact ⟨h.1, ih h.2⟩

theorem EndToEnd.le (h : EndToEnd s ps e) : s ≤ e := by
  induction ps generalizing s with
  | nil => exact h.le
  | cons p ps ih => exact (Nat.le_add_right _ _).trans (ih h.2)

theorem EndToEnd.inside (h : EndToEnd s ps e) : ∀ p ∈ ps, s ≤ p.1 ∧ p.1 + p.2 ≤ e := by
  induction ps generalizing s with
  | nil => exact fun _ hp => absurd hp List.not_mem_nil
  | cons p ps ih =>
    intro q hq
    obtain ⟨rfl, hrest⟩ := h
    rcases List.mem_cons.mp hq with rfl | hq
    · exact ⟨Nat.le_refl _, hrest.le⟩
    · have := ih hrest q hq
      omega

/-- Parts that lie end to end are apart. -/
theorem EndToEnd.apart (h : EndToEnd s ps e) : ps.Pairwise fun p q => p.1 + p.2 ≤ q.1 := by
  induction ps generalizing s with
  | nil => exact List.Pairwise.nil
  | cons p ps ih =>
    obtain ⟨rfl, hrest⟩ := h
    exact List.Pairwise.cons (fun q hq => (hrest.inside q hq).1) (ih hrest)

/-- An array of `n` elements of `k` bytes. -/
theorem endToEnd_array : ∀ n, EndToEnd d ((List.range n).map fun i => (d + i * k, k)) (d + n * k)
  | 0 => by simp [EndToEnd]
  | n + 1 => by
    rw [List.range_succ, List.map_append]
    refine (endToEnd_array n).append ⟨rfl, ?_⟩
    change d + n * k + k = d + (n + 1) * k
    rw [Nat.succ_mul]
    omega

end Parts

/-! ## The initialisation of a mapped zone -/

/-- What an initialised zone of the layout `L` holds: its size and slots, where its arrays are, and
in the bitmap a set bit for every slot and no other. -/
structure ZoneSound (L : ZoneLayout) (w : World) (z : Nat) : Prop where
  size : w.zoneSize z = L.totalSize
  blocks : w.numberOfBlocks z = L.nBlocks
  bitmap : w.bitmap z = z + ZoneT.sizeof
  sizes : w.requestedSizes z = z + ZoneT.sizeof + L.bitmapBytes
  memory : ld w.mem 8 (z + ZoneT.memory) = z + L.dataOffset + 8
  bits : ∀ i, i < 8 * L.bitmapBytes → bit w.mem (w.bitmap z) i = decide (i < L.nBlocks)
  count : popcount w.mem (w.bitmap z) (8 * L.bitmapBytes) = L.nBlocks

variable {P b n z d : Nat} {w : World} {m : Mem}

/-- The loop over the header words leaves the bytes below the slots alone. -/
theorem writeHeaders_below (hmap : ∀ i, i < n → w.os.Mapped (z + d + i * (8 + b)) 8) :
    ∃ m', writeHeaders z d b (n : Int) w = some ((), w.setMem m') ∧
      ∀ a, a < z + d → m' a = w.mem a := by
  let I : Nat → World → Prop := fun _ t => ∃ m', t = w.setMem m' ∧ ∀ a, a < z + d → m' a = w.mem a
  have hstep : ∀ i t, 0 ≤ i → i < 0 + n → I i t → ∃ t',
      store 8 (z + d + i * (8 + b)) (metaPack z i) t = some ((), t') ∧ I (i + 1) t' := by
    rintro i t - hi ⟨m', rfl, hm'⟩
    refine ⟨_, store_of (hmap i (by omega)), _, rfl, fun a ha => ?_⟩
    rw [World.setMem_mem, st_out (Or.inl (by omega))]
    exact hm' a ha
  obtain ⟨t, hrun, m', rfl, hm'⟩ := Prog.forUp_run (I := I) ⟨w.mem, rfl, fun _ _ => rfl⟩ hstep
  exact ⟨m', hrun, hm'⟩

/-- The fields and the bits that are there before the loop, and the place of the slots, make a sound
zone. -/
theorem ZoneSound.of_start {bytes total off : Nat} {code : Int} {m' : Mem}
    (hf : FieldsRep (zoneStart m z total n code) z total n code bytes)
    (hbytes : (n + 7) / 8 = bytes) (hoff : 72 + bytes ≤ off) (hend : z + off + 8 < 2 ^ 64)
    (hsame : ∀ a, a < z + off → m' a = zoneStart m z total n code a) :
    ZoneSound ⟨total, n, bytes, off⟩ (w.setMem (st m' 8 (z + ZoneT.memory) (z + off + 8))) z := by
  subst hbytes
  let m₅ := st m' 8 (z + ZoneT.memory) (z + off + 8)
  have hout : ∀ a, a < z + 40 ∨ z + 48 ≤ a → m₅ a = m' a := fun a ha => st_out ha
  have hf₅ : FieldsRep m₅ z total n code ((n + 7) / 8) := hf.congr fun a _ ha => by
    rw [hout a (by omega), hsame a (by omega)]
  have hbit : ∀ i, i < 8 * ((n + 7) / 8) → bit m₅ (z + 72) i = decide (i < n) := by
    intro i hi
    have hbits : bit m₅ (z + 72) i = bit (zoneStart m z total n code) (z + 72) i := by
      refine bit_congr ?_
      rw [hout _ (by omega), hsame _ (by omega)]
    rw [hbits]
    exact zoneStart_bit hi
  have hmem : ld m₅ 8 (z + ZoneT.memory) = z + off + 8 := ld_st_same hend
  have hbitmap : (w.setMem m₅).bitmap z = z + 72 := hf₅.bitmapAt
  refine ⟨hf₅.zoneSize, hf₅.blocks, hf₅.bitmapAt, hf₅.sizesAt, hmem, ?_, ?_⟩
  · rw [hbitmap]
    exact hbit
  · rw [hbitmap]
    exact popcount_fresh (by simp only; omega) hbit

/-- **The initialisation** of a zone whose parts fit. -/
theorem initZone_sound (hfit : ZoneFits P b n) (hend : z + totalSize P b ≤ 2 ^ 64)
    (hmap : ∀ {a k}, z ≤ a → a + k ≤ z + totalSize P b → w.os.Mapped a k) :
    ∃ w', initZone z (totalSize P b) b (n : Int) w = some ((), w') ∧
      ZoneSound ⟨totalSize P b, n, bitmapBytes n, dataOffset n⟩ w' z := by
  have hroom := hfit.room
  have henough := hfit.enough
  have hcap := hfit.cap
  have hdata := hfit.data
  have hT : totalSize P b < 2 ^ 64 := Nat.mod_lt _ (by decide)
  have hslots := Nat.mul_le_mul_left n (Nat.le_add_right 8 b)
  let code : Int := if b = tinyBlockSize then tinyBlock else smallBlock
  have hcode : -2 ^ 31 ≤ code ∧ code < 2 ^ 31 := by
    unfold code
    split <;> decide
  let m₀ := zoneStart w.mem z (totalSize P b) n code
  have hheaders : ∀ i, i < n → w.os.Mapped (z + dataOffset n + i * (8 + b)) 8 := fun i hi => by
    have hmul := Nat.mul_le_mul_right (8 + b) (Nat.succ_le_of_lt hi)
    rw [Nat.succ_mul] at hmul
    rw [hdata]
    exact hmap (by omega) (by omega)
  obtain ⟨m', hhead, hsame⟩ := writeHeaders_below (w := w.setMem m₀) hheaders
  refine ⟨_, initZone_stores _ (by omega) (by omega) hfit.bitmap
    (fun h1 h2 => hmap h1 (by omega)) hhead, ?_⟩
  have hfields : FieldsRep (zoneFields w.mem z (totalSize P b) n code ((n + 7) / 8)) z
      (totalSize P b) n code ((n + 7) / 8) := by
    refine zoneFields_rep (by omega) hT (by omega) hcode ?_
    simp only [ZoneT.sizeof]
    omega
  have hstart : FieldsRep m₀ z (totalSize P b) n code ((n + 7) / 8) :=
    hfields.congr fun a _ ha => zoneStart_low (by omega) (by omega)
  rw [hfit.bitmap]
  exact ZoneSound.of_start hstart rfl (by omega) (by omega) hsame

/-! ## The layout -/

/-- The layout `L` of zones of `b`-byte blocks is what the machine computes at page size `P`, its
parts fit, and the initialisation of a mapped zone makes it so. -/
structure LaidOut (P b : Nat) (L : ZoneLayout) : Prop where
  total : totalSize P b = L.totalSize
  slots : FtMalloc.nBlocks P b = L.nBlocks
  bytes : bitmapBytes L.nBlocks = L.bitmapBytes
  data : dataOffset L.nBlocks = L.dataOffset
  enough : 100 ≤ L.nBlocks
  cap : L.nBlocks ≤ 2047
  consecutive : ∃ e, EndToEnd 0 (L.parts b) e ∧ e ≤ L.totalSize
  apart : (L.parts b).Pairwise fun p q => p.1 + p.2 ≤ q.1
  inside : ∀ p ∈ L.parts b, p.1 + p.2 ≤ L.totalSize
  headers : ∀ i, i < L.nBlocks → ∃ k, Checked.headerOffset L.dataOffset b i = some k ∧
    (L.parts b)[3 + i]? = some (k, 8 + b)
  mask : ∃ r, Checked.lastByte L.nBlocks L.bitmapBytes = some r
  initialised : ∀ {w : World} {z}, z + L.totalSize ≤ 2 ^ 64 →
    (∀ {a k}, z ≤ a → a + k ≤ z + L.totalSize → w.os.Mapped a k) →
    ∃ w', initZone z L.totalSize b L.nBlocks w = some ((), w') ∧ ZoneSound L w' z

/-- The parts of the exact layout lie end to end. -/
theorem exactLayout_endToEnd : EndToEnd 0 ((exactLayout P b).parts b)
    ((exactLayout P b).dataOffset + (exactLayout P b).nBlocks * (8 + b)) := by
  refine ⟨rfl, ?_, ?_, ?_⟩
  · simp [ZoneT.sizeof]
  · simp [ZoneT.sizeof]
  · have hstart : 0 + ZoneT.sizeof + (exactLayout P b).bitmapBytes + 8 * (exactLayout P b).nBlocks =
        (exactLayout P b).dataOffset := by
      simp only [exactLayout, ZoneT.sizeof, Nat.zero_add]
    rw [hstart]
    exact endToEnd_array _

/-- **The layout of a zone.** For every page size and every block size for which eight times the
zone's size fits an `int`, no operation of its computation overflows, and it is a sound layout. -/
theorem zone_layout (hP : 1 ≤ P) (hT : 8 * roundTotal P b < 2 ^ 31) :
    ∃ L, Checked.zoneLayout P b = some L ∧ L.totalSize = roundTotal P b ∧ LaidOut P b L := by
  have hfit := fits_of_small hP hT
  have htotal := hfit.total
  have hroom := hfit.room
  have henough := hfit.enough
  have hend : (exactLayout P b).dataOffset + (exactLayout P b).nBlocks * (8 + b) ≤
      roundTotal P b := by
    rw [htotal] at hroom
    exact hroom
  refine ⟨exactLayout P b, Checked.zoneLayout_of hP hT, rfl, htotal, hfit.slots, hfit.bitmap,
    hfit.data, hfit.enough, hfit.cap, ⟨_, exactLayout_endToEnd, hend⟩, exactLayout_endToEnd.apart,
    fun p hp => (exactLayout_endToEnd.inside p hp).2.trans hend, fun i hi => ?_,
    ⟨_, Checked.lastByte_of (n := slotCount P b) (by omega)⟩, fun hz hmap => ?_⟩
  · refine ⟨_, Checked.headerOffset_of hP hT hi, ?_⟩
    have hi : i < (exactLayout P b).nBlocks := hi
    simp [ZoneLayout.parts, Nat.add_comm 3 i, hi]
  · have hL : (⟨totalSize P b, slotCount P b, bitmapBytes (slotCount P b),
        dataOffset (slotCount P b)⟩ : ZoneLayout) = exactLayout P b := by
      rw [htotal, hfit.bitmap, hfit.data]
      rfl
    obtain ⟨w', hrun, hsound⟩ := initZone_sound hfit (by rw [htotal]; exact hz)
      (by rw [htotal]; exact hmap)
    rw [hL] at hsound
    rw [htotal] at hrun
    exact ⟨w', hrun, hsound⟩

/-- Pages of 4096 bytes and the blocks of a tiny zone. -/
theorem zone_layout_tiny : ∃ L, Checked.zoneLayout 4096 64 = some L ∧
    L.totalSize = roundTotal 4096 64 ∧ LaidOut 4096 64 L :=
  zone_layout (by decide) (by decide)

end FtMalloc
