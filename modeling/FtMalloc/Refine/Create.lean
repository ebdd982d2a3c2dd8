import FtMalloc.Abstract.Steps
import FtMalloc.Refine.Links
import FtMalloc.Source.Malloc

/-!
# Mapping zones and blocks (`malloc.c:14-103`)

* `initZone_run`: the stores of `create_zone` turn memory `m` into `zoneMem P c z m`, in which `z`
  is a zone with every slot free (`zoneMem_rep`).
* `createZone_writes`, `setupGlobalHeap_writes` and `ensureSetup_writes`: the functions are
  `AHeap.createZone`, `AHeap.setup` and `AHeap.ready`, at every outcome of their `mmap` calls.
  `createZoneMem`, `setupMem` and `readyMem` are what they do to memory.
* `createBlock_granted`: a granted block has its size and its header word.
-/

namespace FtMalloc

open Lib

variable {P : Nat} {w : World} {m m' : Mem} {A : AHeap} {z b s a k n o o' v : Nat} {i : Int}
  {c : Cls}

/-! ## Fields at offsets -/

theorem ld_st_off (h : o + k ≤ o' ∨ o' + n ≤ o) :
    ld (st m n (z + o') v) k (z + o) = ld m k (z + o) :=
  ld_st_apart (by omega)

theorem ldInt_st_off (h : o + 4 ≤ o' ∨ o' + n ≤ o) :
    ldInt (st m n (z + o') v) (z + o) = ldInt m (z + o) :=
  congrArg castInt (ld_st_off h)

theorem ld_stInt_off (h : o + k ≤ o' ∨ o' + 4 ≤ o) :
    ld (stInt m (z + o') i) k (z + o) = ld m k (z + o) :=
  ld_st_off h

theorem ldInt_stInt_off (h : o + 4 ≤ o' ∨ o' + 4 ≤ o) :
    ldInt (stInt m (z + o') i) (z + o) = ldInt m (z + o) :=
  congrArg castInt (ld_st_off h)

/-- A load whose value is known. -/
theorem load_to (h : w.os.Mapped a n) (hv : ld w.mem n a = v) : load n a w = some (v, w) := by
  rw [load_of h, hv]

theorem loadInt_to (h : w.os.Mapped a 4) (hv : ldInt w.mem a = i) : loadInt a w = some (i, w) := by
  rw [loadInt_of h, hv]

theorem Cls.code_bounds (c : Cls) : -2 ^ 31 ≤ c.code ∧ c.code < 2 ^ 31 := by
  cases c <;> simp [Cls.code]

/-! ## The loops of `create_zone` -/

theorem ftMemset_run {p len : Nat} {d : Byte} (hm : ∀ i, i < len → w.os.Mapped (p + i) 1) :
    ftMemset p d len w = some ((), w.setMem (fill w.mem p len d)) := by
  have hnone : fill w.mem p 0 d = w.mem := by
    funext x
    exact fill_out (by omega)
  have hone : ∀ i, put (fill w.mem p i d) (p + i) d = fill w.mem p (i + 1) d := by
    intro i
    funext x
    by_cases hx : x = p + i
    · rw [hx, put_same, fill_in (by omega) (by omega)]
    · rw [put_out hx]
      by_cases hin : p ≤ x ∧ x < p + i
      · rw [fill_in hin.1 hin.2, fill_in hin.1 (by omega)]
      · rw [fill_out (by omega), fill_out (by omega)]
  -- after `i` rounds the first `i` bytes are set
  let I : Nat → World → Prop := fun i t => t = w.setMem (fill w.mem p i d)
  have hstart : I 0 w := by
    change w = w.setMem (fill w.mem p 0 d)
    rw [hnone]
    rfl
  have hstep : ∀ i t, 0 ≤ i → i < 0 + len → I i t →
      ∃ t', storeByte (p + i) d t = some ((), t') ∧ I (i + 1) t' := by
    intro i t _ hi ht
    obtain rfl : t = w.setMem (fill w.mem p i d) := ht
    refine ⟨_, storeByte_of (hm i (by omega)), ?_⟩
    change w.setMem (put (fill w.mem p i d) (p + i) d) = w.setMem (fill w.mem p (i + 1) d)
    rw [hone]
  obtain ⟨t, hrun, ht⟩ := Prog.forUp_run hstart hstep
  obtain rfl : t = w.setMem (fill w.mem p (0 + len) d) := ht
  rwa [Nat.zero_add] at hrun

/-- The memory after the last bitmap byte was masked to the bits of existing slots
(`malloc.c:55-56`). -/
def maskMem (m : Mem) (p n : Nat) : Mem :=
  if n % 8 ≠ 0 then put m (p + ((n + 7) / 8 - 1)) (lowMask (n % 8)) else m

/-- The memory after the first header words of a zone were written (`malloc.c:60-63`). -/
def headersMem (P : Nat) (c : Cls) (z : Nat) (m : Mem) : Nat → Mem
  | 0 => m
  | i + 1 => st (headersMem P c z m i) 8 (c.headerAddr P z i) (metaPack z i)

theorem maskLastByte_run {p n : Nat} (hm : w.os.Mapped (p + ((n + 7) / 8 - 1)) 1) :
    maskLastByte p ((n + 7) / 8) (n : Int) w = some ((), w.setMem (maskMem w.mem p n)) := by
  have hmod : (n : Int).tmod 8 = ((n % 8 : Nat) : Int) := by
    rw [Int.tmod_eq_emod_of_nonneg (Int.natCast_nonneg n)]
    rfl
  unfold maskLastByte maskMem
  rw [hmod, Int.toNat_natCast, Prog.ite_run]
  by_cases h8 : n % 8 = 0
  · rw [if_neg (by simp [h8]), if_neg (not_not_intro h8)]
    rfl
  · rw [if_pos (by exact_mod_cast h8), if_pos h8, storeByte_of hm]

theorem maskMem_byte {p n : Nat} (hones : ∀ j, j < (n + 7) / 8 → m (p + j) = 0xFF#8) :
    ∀ j, j < (n + 7) / 8 → maskMem m p n (p + j) =
      if n % 8 ≠ 0 ∧ j = (n + 7) / 8 - 1 then lowMask (n % 8) else 0xFF#8 := by
  intro j hj
  unfold maskMem
  by_cases h8 : n % 8 = 0
  · rw [if_neg (not_not_intro h8), hones j hj, if_neg fun h => h.1 h8]
  · rw [if_pos h8]
    by_cases hlast : j = (n + 7) / 8 - 1
    · rw [hlast, put_same, if_pos ⟨h8, rfl⟩]
    · rw [put_out (by omega), hones j hj, if_neg fun h => hlast h.2]

theorem maskMem_confined {p n : Nat} (hn : 0 < n) :
    Confined (Within p ((n + 7) / 8)) Nowhere fun m => maskMem m p n := by
  unfold maskMem
  by_cases h8 : n % 8 = 0
  · simp only [h8, ne_eq, not_true_eq_false, if_false]
    exact Confined.id
  · simp only [h8, ne_eq, not_false_eq_true, if_true]
    refine Confined.put.mono fun a ha => ?_
    unfold Within at *
    omega

theorem headersMem_word (hz : z % 4096 = 0) (hz64 : z + 4096 ≤ 2 ^ 64) :
    ∀ {n j : Nat}, n ≤ 2048 → j < n →
      ld (headersMem P c z m n) 8 (c.headerAddr P z j) = metaPack z j
  | n + 1, j, hn, hj => by
    rcases Nat.lt_succ_iff_lt_or_eq.mp hj with hlt | rfl
    · have hstr := stride_lt (c := c) hlt
      rw [headersMem, ld_st_apart (Or.inl (by unfold Cls.headerAddr; omega))]
      exact headersMem_word hz hz64 (by omega) hlt
    · exact ld_st_same (metaPack_lt hz hz64 (by omega))

theorem headersMem_confined : ∀ {n : Nat}, Confined
    (fun a => z + c.dataOff P ≤ a ∧ a < z + c.dataOff P + n * (8 + c.size)) Nowhere
      fun m => headersMem P c z m n
  | 0 => Confined.id
  | n + 1 => by
    refine (headersMem_confined.mono fun a ha => ?_).then
      (Confined.st (a := c.headerAddr P z n)) fun a ha => Or.inl ?_
    · rw [Nat.succ_mul]
      omega
    · obtain ⟨h1, h2⟩ := ha
      unfold Cls.headerAddr at h1 h2
      rw [Nat.succ_mul]
      omega

theorem writeHeaders_run (hP : ValidPage P) (hat : NodeAt w z (c.total P)) :
    writeHeaders z (c.dataOff P) c.size (c.cells P : Int) w =
      some ((), w.setMem (headersMem P c z w.mem (c.cells P))) := by
  have hL := hP.layout c
  -- after `i` rounds the first `i` header words are written
  let I : Nat → World → Prop := fun i t => t = w.setMem (headersMem P c z w.mem i)
  have hstart : I 0 w := rfl
  have hstep : ∀ i t, 0 ≤ i → i < 0 + c.cells P → I i t → ∃ t',
      store 8 (z + c.dataOff P + i * (8 + c.size)) (metaPack z i) t = some ((), t') ∧
        I (i + 1) t' := by
    intro i t _ hi ht
    obtain rfl : t = w.setMem (headersMem P c z w.mem i) := ht
    have hslot := hL.slot_le (z := z) (i := i) (by omega)
    have hge : z ≤ c.headerAddr P z i := by
      unfold Cls.headerAddr
      omega
    have hmap : w.os.Mapped (c.headerAddr P z i) 8 := hat.mapped hge (by omega)
    exact ⟨_, store_of hmap, rfl⟩
  obtain ⟨t, hrun, ht⟩ := Prog.forUp_run hstart hstep
  obtain rfl : t = w.setMem (headersMem P c z w.mem (0 + c.cells P)) := ht
  rwa [Nat.zero_add] at hrun

/-! ## A new zone -/

/-- The scalar fields `create_zone` stores before the arrays (`malloc.c:38-51`), in the order in
which it stores them. -/
def zoneFields (m : Mem) (z total : Nat) (n code : Int) (bytes : Nat) : Mem :=
  let m := st m 8 (z + ZoneT.base) z
  let m := st m 8 (z + ZoneT.zoneSize) total
  let m := stInt m (z + ZoneT.numberOfBlocks) n
  let m := stInt m (z + ZoneT.freeCount) n
  let m := st m 8 (z + ZoneT.next) null
  let m := st m 8 (z + ZoneT.prev) null
  let m := stInt m (z + ZoneT.type) code
  let m := st m 8 (z + ZoneT.bitmap) (z + ZoneT.sizeof)
  st m 8 (z + ZoneT.requestedSizes) (z + ZoneT.sizeof + bytes)

/-- What the scalar fields hold (`malloc.c:38-51`), whatever was stored after them elsewhere: the
loop over the header words and the bitmap leave them alone. -/
structure FieldsRep (m : Mem) (z total : Nat) (n code : Int) (bytes : Nat) : Prop where
  base : ld m 8 (z + ZoneT.base) = z
  type : ldInt m (z + ZoneT.type) = code
  blocks : ldInt m (z + ZoneT.numberOfBlocks) = n
  zoneSize : ld m 8 (z + ZoneT.zoneSize) = total
  sizesAt : ld m 8 (z + ZoneT.requestedSizes) = z + ZoneT.sizeof + bytes
  bitmapAt : ld m 8 (z + ZoneT.bitmap) = z + ZoneT.sizeof
  count : ldInt m (z + ZoneT.freeCount) = n

theorem zoneFields_rep {total bytes : Nat} {n code : Int} (hz : z < 2 ^ 64) (ht : total < 2 ^ 64)
    (hn : -2 ^ 31 ≤ n ∧ n < 2 ^ 31) (hc : -2 ^ 31 ≤ code ∧ code < 2 ^ 31)
    (hb : z + ZoneT.sizeof + bytes < 2 ^ 64) :
    FieldsRep (zoneFields m z total n code bytes) z total n code bytes := by
  have h8 : 256 ^ 8 = 2 ^ 64 := by decide
  unfold zoneFields
  constructor <;>
    simp (disch := decide) only [ld_st_off, ldInt_st_off, ld_stInt_off, ldInt_stInt_off]
  · exact ld_st_same (h8 ▸ hz)
  · exact ldInt_stInt hc.1 hc.2
  · exact ldInt_stInt hn.1 hn.2
  · exact ld_st_same (h8 ▸ ht)
  · exact ld_st_same (h8 ▸ hb)
  · exact ld_st_same (h8 ▸ (by omega))
  · exact ldInt_stInt hn.1 hn.2

theorem zoneFields_confined {total bytes : Nat} {n code : Int} :
    Confined (Within z 72) Nowhere fun m => zoneFields m z total n code bytes := by
  have hst : ∀ {o v : Nat}, o + 8 ≤ 72 →
      Confined (Within z 72) Nowhere fun m => st m 8 (z + o) v := fun ho =>
    Confined.st.mono fun a ha => by unfold Within at *; omega
  have hint : ∀ {o : Nat} {i : Int}, o + 4 ≤ 72 →
      Confined (Within z 72) Nowhere fun m => stInt m (z + o) i := fun ho =>
    Confined.st.mono fun a ha => by unfold Within at *; omega
  have hin : ∀ a, Within z 72 a → Within z 72 a ∨ Nowhere a := fun a ha => Or.inl ha
  unfold zoneFields
  refine Confined.then ?_ (hst (by decide)) hin
  refine Confined.then ?_ (hst (by decide)) hin
  refine Confined.then ?_ (hint (by decide)) hin
  refine Confined.then ?_ (hst (by decide)) hin
  refine Confined.then ?_ (hst (by decide)) hin
  refine Confined.then ?_ (hint (by decide)) hin
  refine Confined.then ?_ (hint (by decide)) hin
  refine Confined.then ?_ (hst (by decide)) hin
  exact hst (by decide)

/-- The scalar fields lie below `memory`, but for `free_count` just above it. -/
theorem FieldsRep.congr {total bytes : Nat} {n code : Int} (hf : FieldsRep m z total n code bytes)
    (he : ∀ a, z ≤ a → a < z + 40 ∨ z + 48 ≤ a ∧ a < z + 52 → m' a = m a) :
    FieldsRep m' z total n code bytes := by
  have hword : ∀ o, o + 8 ≤ 40 → ld m' 8 (z + o) = ld m 8 (z + o) := fun o ho =>
    ld_congr fun a h1 h2 => he a (by omega) (Or.inl (by omega))
  have hint : ∀ o, o + 4 ≤ 40 ∨ o = 48 → ldInt m' (z + o) = ldInt m (z + o) := fun o ho =>
    ldInt_congr fun a h1 h2 => he a (by omega) (by omega)
  exact ⟨(hword _ (by decide)).trans hf.base, (hint _ (by decide)).trans hf.type,
    (hint _ (by decide)).trans hf.blocks, (hword _ (by decide)).trans hf.zoneSize,
    (hword _ (by decide)).trans hf.sizesAt, (hword _ (by decide)).trans hf.bitmapAt,
    (hint _ (by decide)).trans hf.count⟩

/-- The fields, a bitmap with the bits of all slots, and the header words make a fresh zone. -/
theorem FieldsRep.fresh (hf : FieldsRep m z (c.total P) (c.cells P) c.code (c.bitmapLen P))
    (hmem : ld m 8 (z + ZoneT.memory) = z + c.dataOff P + 8)
    (hbit : ∀ i, i < 8 * c.bitmapLen P → bit m (z + 72) i = decide (i < c.cells P))
    (hhead : ∀ i, i < c.cells P → ld m 8 (c.headerAddr P z i) = metaPack z i) :
    ZoneRep P m c z (List.replicate (c.cells P) none) := by
  refine ⟨hf.base, hf.type, hf.blocks, hf.zoneSize, hf.sizesAt, hf.bitmapAt, hmem, ?_, ?_, ?_,
    hhead⟩
  · rw [hf.count, List.countP_replicate]
    rfl
  · intro i hi
    rw [hbit i hi, List.getElem?_replicate]
    refine decide_eq_decide.mpr ?_
    by_cases hlt : i < c.cells P
    · simp [hlt]
    · simp [hlt]
  · intro i r hr
    rw [List.getElem?_replicate] at hr
    split at hr <;> cases hr

/-- The memory before the header words are written: the scalar fields and the bits of `n` slots. -/
def zoneStart (m : Mem) (z total n : Nat) (code : Int) : Mem :=
  let m := zoneFields m z total n code ((n + 7) / 8)
  let m := fill m (z + 72) ((n + 7) / 8) 0xFF#8
  maskMem m (z + 72) n

theorem zoneStart_low {total n a : Nat} {code : Int} (hn : 0 < n) (ha : a < z + 72) :
    zoneStart m z total n code a = zoneFields m z total n code ((n + 7) / 8) a := by
  have hmask := (maskMem_confined (p := z + 72) hn).frame (a := a)
    (m := fill (zoneFields m z total n code ((n + 7) / 8)) (z + 72) ((n + 7) / 8) 0xFF#8)
    (by unfold Within; omega) fun hn => hn
  exact hmask.trans (fill_out (Or.inl ha))

theorem zoneStart_bit {total n i : Nat} {code : Int} (hi : i < 8 * ((n + 7) / 8)) :
    bit (zoneStart m z total n code) (z + 72) i = decide (i < n) :=
  bit_fresh (maskMem_byte fun j hj => fill_in (by omega) (by omega)) hi

/-- **The stores of `create_zone`**, around the loop over the header words, for zones of any block
size and any number of slots (`malloc.c:38-64`). -/
theorem initZone_stores {b n : Nat} (total : Nat) (hn : 0 < n) (hz : z + 72 < 2 ^ 64)
    (hbitmap : bitmapBytes (n : Int) = (n + 7) / 8)
    (hmap : ∀ {a k}, z ≤ a → a + k ≤ z + (72 + (n + 7) / 8) → w.os.Mapped a k)
    (hhead : writeHeaders z (dataOffset (n : Int)) b (n : Int) (w.setMem (zoneStart w.mem z total n
      (if b = tinyBlockSize then tinyBlock else smallBlock))) = some ((), w.setMem m')) :
    initZone z total b (n : Int) w =
      some ((), w.setMem (st m' 8 (z + ZoneT.memory) (z + dataOffset (n : Int) + 8))) := by
  have hfield : ∀ {o k}, o + k ≤ 72 → w.os.Mapped (z + o) k := fun ho =>
    hmap (by omega) (by omega)
  let m₁ := zoneFields w.mem z total n (if b = tinyBlockSize then tinyBlock else smallBlock)
    ((n + 7) / 8)
  let m₂ := fill m₁ (z + 72) ((n + 7) / 8) 0xFF#8
  have hset : ftMemset (z + 72) 0xFF#8 ((n + 7) / 8) (w.setMem m₁) = some ((), w.setMem m₂) :=
    ftMemset_run (w := w.setMem m₁) fun i hi => hmap (by omega) (by omega)
  have hmask : maskLastByte (z + 72) ((n + 7) / 8) (n : Int) (w.setMem m₂) =
      some ((), w.setMem (maskMem m₂ (z + 72) n)) :=
    maskLastByte_run (w := w.setMem m₂) (p := z + 72) (hmap (by omega) (by omega))
  unfold initZone
  refine Prog.bind_to (store_of (hfield (by decide))) ?_
  refine Prog.bind_to (store_of (hfield (by decide))) ?_
  refine Prog.bind_to (storeInt_of (hfield (by decide))) ?_
  refine Prog.bind_to (storeInt_of (hfield (by decide))) ?_
  refine Prog.bind_to (store_of (hfield (by decide))) ?_
  refine Prog.bind_to (store_of (hfield (by decide))) ?_
  refine Prog.bind_to (storeInt_of (hfield (by decide))) ?_
  refine Prog.bind_to (store_of (hfield (by decide))) ?_
  refine Prog.bind_to (load_to (v := z + 72) (hfield (by decide)) (ld_st_same hz)) ?_
  rw [hbitmap]
  refine Prog.bind_to (store_of (hfield (by decide))) ?_
  refine Prog.bind_to hset ?_
  refine Prog.bind_to hmask ?_
  refine Prog.bind_to hhead ?_
  exact store_of (hfield (by decide))

/-- The memory after a zone was initialised (`malloc.c:37-64`): the scalar fields, a bitmap of ones
whose last byte is masked, the header words, and `memory`, which the source stores last. -/
def zoneMem (P : Nat) (c : Cls) (z : Nat) (m : Mem) : Mem :=
  let m₁ := zoneFields m z (c.total P) (c.cells P) c.code (c.bitmapLen P)
  let m₂ := fill m₁ (z + 72) (c.bitmapLen P) 0xFF#8
  let m₃ := maskMem m₂ (z + 72) (c.cells P)
  let m₄ := headersMem P c z m₃ (c.cells P)
  st m₄ 8 (z + ZoneT.memory) (z + c.dataOff P + 8)

/-- The initialisation of a zone stays in its mapping: fields, arrays and header words are all
inside `total_size`. -/
theorem zoneMem_confined (hP : ValidPage P) :
    Confined (Within z (c.total P)) Nowhere (zoneMem P c z) := by
  have hL := hP.layout c
  have hroom := hL.room
  have hhd := hL.header
  have henough := hL.enough
  have hlen : (c.cells P + 7) / 8 = c.bitmapLen P := rfl
  have hin : ∀ {S : Nat → Prop} a, S a → S a ∨ Nowhere a := fun a ha => Or.inl ha
  have hfields : Confined (Within z (c.total P)) Nowhere fun m =>
      zoneFields m z (c.total P) (c.cells P) c.code (c.bitmapLen P) :=
    zoneFields_confined.mono fun a ha => by unfold Within at *; omega
  have hfill : Confined (Within z (c.total P)) Nowhere fun m =>
      fill m (z + 72) (c.bitmapLen P) 0xFF#8 := by
    refine ⟨fun h1 _ => fill_out (by unfold Within at h1; omega), fun he a ha => ?_⟩
    by_cases hb : z + 72 ≤ a ∧ a < z + 72 + c.bitmapLen P
    · rw [fill_in hb.1 hb.2, fill_in hb.1 hb.2]
    · rw [fill_out (by omega), fill_out (by omega)]
      exact he a (ha.resolve_right fun hn => hn)
  have hmask : Confined (Within z (c.total P)) Nowhere fun m =>
      maskMem m (z + 72) (c.cells P) :=
    (maskMem_confined (by omega)).mono fun a ha => by unfold Within at *; omega
  have hheads : Confined (Within z (c.total P)) Nowhere fun m =>
      headersMem P c z m (c.cells P) :=
    headersMem_confined.mono fun a ha => by unfold Within; omega
  have hmem : Confined (Within z (c.total P)) Nowhere fun m =>
      st m 8 (z + ZoneT.memory) (z + c.dataOff P + 8) :=
    Confined.st.mono fun a ha => by unfold Within ZoneT.memory at *; omega
  exact (((hfields.then hfill hin).then hmask hin).then hheads hin).then hmem hin

/-- **The initialisation of a mapped zone** (`malloc.c:37-64`) runs, and leaves the memory
`zoneMem`. -/
theorem initZone_run (hP : ValidPage P) (hat : NodeAt w z (c.total P)) :
    initZone z (c.total P) c.size (c.cells P : Int) w =
      some ((), w.setMem (zoneMem P c z w.mem)) := by
  have hL := hP.layout c
  have hend := hat.end_le
  have hroom := hL.room
  have hhd := hL.header
  have henough := hL.enough
  have hlen : (c.cells P + 7) / 8 = c.bitmapLen P := rfl
  have hcode : (if c.size = tinyBlockSize then tinyBlock else smallBlock) = c.code := by
    cases c <;> rfl
  have hhead : writeHeaders z (dataOffset (c.cells P : Int)) c.size (c.cells P : Int)
      (w.setMem (zoneStart w.mem z (c.total P) (c.cells P)
        (if c.size = tinyBlockSize then tinyBlock else smallBlock))) =
      some ((), w.setMem (headersMem P c z (zoneStart w.mem z (c.total P) (c.cells P) c.code)
        (c.cells P))) := by
    rw [hL.data, hcode]
    exact writeHeaders_run (w := w.setMem _) hP
      ⟨hat.ne_zero, hat.aligned, hat.end_le, hat.mapped⟩
  have hrun := initZone_stores (c.total P) (by omega) (by omega) hL.bitmap
    (fun h1 h2 => hat.mapped h1 (by omega)) hhead
  rwa [hL.data] at hrun

/-- An initialised zone is a fresh one: every slot is free, counted and has its header word. -/
theorem zoneMem_rep (hP : ValidPage P) (hat : NodeAt w z (c.total P)) :
    ZoneRep P (zoneMem P c z m) c z (List.replicate (c.cells P) none) := by
  have hL := hP.layout c
  have h31 := hL.total_lt
  have hend := hat.end_le
  have hroom := hL.room
  have hcap := hL.cap
  have hhd := hL.header
  have hbits := hL.bits
  have henough := hL.enough
  have hlen : (c.cells P + 7) / 8 = c.bitmapLen P := rfl
  have hfirst := stride_lt (c := c) (i := 0) (j := c.cells P) (by omega)
  have hpos := hL.size_pos
  have h8 : 256 ^ 8 = 2 ^ 64 := by decide
  -- the scalar fields
  let m₁ := zoneFields m z (c.total P) (c.cells P) c.code (c.bitmapLen P)
  have hf₁ : FieldsRep m₁ z (c.total P) (c.cells P) c.code (c.bitmapLen P) := by
    refine zoneFields_rep (by omega) (by omega) (by omega) c.code_bounds ?_
    simp only [ZoneT.sizeof]
    omega
  -- the bitmap and the header words
  let m₂ := fill m₁ (z + 72) (c.bitmapLen P) 0xFF#8
  let m₃ := maskMem m₂ (z + 72) (c.cells P)
  let m₄ := headersMem P c z m₃ (c.cells P)
  have hag₃ : ∀ {a}, a < z + 72 ∨ z + 72 + c.bitmapLen P ≤ a → m₃ a = m₂ a := fun ha =>
    (maskMem_confined (by omega)).frame (by unfold Within; omega) fun hn => hn
  have hag₄ : ∀ {a}, a < z + c.dataOff P → m₄ a = m₃ a := fun ha =>
    headersMem_confined.frame (by omega) fun hn => hn
  have hbelow : ∀ a, a < z + 72 → m₄ a = m₁ a := fun a ha => by
    rw [hag₄ (by omega), hag₃ (Or.inl ha)]
    exact fill_out (Or.inl ha)
  have hmem : ∀ a, a < z + 40 ∨ z + 48 ≤ a → zoneMem P c z m a = m₄ a := fun a ha => st_out ha
  have hf₅ : FieldsRep (zoneMem P c z m) z (c.total P) (c.cells P) c.code (c.bitmapLen P) :=
    hf₁.congr fun a h1 h2 => (hmem a (by omega)).trans (hbelow a (by omega))
  refine hf₅.fresh (ld_st_same (by omega)) (fun i hi => ?_) fun i hi => ?_
  · have hbit : bit (zoneMem P c z m) (z + 72) i = bit m₃ (z + 72) i := by
      refine bit_congr ?_
      rw [hmem _ (by omega), hag₄ (by omega)]
    rw [hbit]
    refine bit_fresh (maskMem_byte fun j hj => ?_) (by rw [hlen]; exact hi)
    exact fill_in (by omega) (by omega)
  · have hz4096 : z + 4096 ≤ 2 ^ 64 := by
      have := hat.aligned
      omega
    rw [← headersMem_word (P := P) (c := c) (m := m₃) hat.aligned hz4096
      (n := c.cells P) (by omega) hi]
    refine ld_congr fun a h1 h2 => hmem a (Or.inr ?_)
    unfold Cls.headerAddr at h1
    omega

/-! ## `create_zone` -/

/-- What a granted `mmap` does to memory: whole pages of zeros. -/
def grantMem (P b n : Nat) (m : Mem) : Mem := fill m b (roundUp P n) 0

namespace AHeap

/-- What `create_zone` does to memory (`malloc.c:33-72`): a refused `mmap` writes nothing, a granted
one is initialised and linked. -/
def createZoneMem (P : Nat) (A : AHeap) (os : Os) (c : Cls) : Mem → Mem :=
  match os.reply (c.total P) with
  | some b => fun m => A.appendMem b c.freeHead (zoneMem P c b (grantMem P b (c.total P) m))
  | none => id

/-- What `setup_global_heap` does to memory (`malloc.c:91-103`): a tiny zone, and a small one if the
tiny one could be made. -/
def setupMem (P : Nat) (A : AHeap) (os : Os) (m : Mem) : Mem :=
  let r := A.createZone P os .tiny
  let m' := A.createZoneMem P os .tiny m
  if r.1 then r.2.1.createZoneMem P r.2.2 .small m' else m'

/-- What the lazy setup does to memory (`malloc.c:213-219`), once in the life of the heap. -/
def readyMem (P : Nat) (A : AHeap) (os : Os) (m : Mem) : Mem :=
  if A.initialized then m else A.setupMem P os m

end AHeap

/-- `Rep` survives a change of the system that keeps every mapping, so a call of `mmap`, and a
change of memory outside of what the heap keeps there. -/
theorem Rep.system (hP : ValidPage P) (hr : Rep P w A) {os : Os} (hb : A.Backed P os)
    (hp : os.pageSize = P) (he : Agrees w.mem m' (A.Meta P)) :
    Rep P { w with mem := m', os := os } A :=
  have hf := hr.frame hP he
  ⟨hp, hf.flag, hf.wf, hb, hf.lists, hf.nodes⟩

theorem Rep.refused (hP : ValidPage P) (hr : Rep P w A) :
    Rep P { w with os := w.os.mmap n } A :=
  hr.system hP hr.backed.mmap hr.page (Agrees.refl _ _)

/-- The world after `mmap` returned the region `b`: whole pages that are zero. -/
def World.granted (w : World) (b n : Nat) : World where
  heap := w.heap
  mem := fill w.mem b (roundUp w.os.pageSize n) 0
  os := w.os.mmap n

theorem granted_agrees (hb : A.Backed P w.os) (h : w.os.reply n = some b) :
    Agrees w.mem (w.granted b n).mem (A.InNode P) := fun _ ha => fill_out (hb.outside h ha)

theorem Rep.granted (hP : ValidPage P) (hr : Rep P w A) (h : w.os.reply n = some b) :
    Rep P (w.granted b n) A :=
  hr.system hP hr.backed.mmap hr.page
    ((granted_agrees hr.backed h).mono fun _ ha => ha.inNode hP)

theorem granted_region (h : w.os.reply n = some b) : ⟨b, n⟩ ∈ (w.granted b n).os.regions := by
  rw [show (w.granted b n).os = w.os.mmap n from rfl, Os.mmap_granted h]
  exact List.mem_cons_self

theorem granted_ne_mapFailed (h : w.os.reply n = some b) : b ≠ mapFailed := by
  obtain ⟨-, -, hal, -⟩ := Os.reply_grants h
  rintro rfl
  cases hal

theorem insertZone_eq (c : Cls) (z : Nat) :
    insertZone c.size z = addBack c.freeHead.node c.freeHead z := by
  cases c <;> rfl

theorem createZone_refused (hp : w.os.pageSize = P)
    (h : w.os.reply (c.total P) = none) :
    createZone c.size w = some (1, { w with os := w.os.mmap (c.total P) }) := by
  unfold createZone
  refine Prog.bind_to rfl ?_
  rw [hp]
  exact Prog.bind_to (mmap_fail h) (Prog.if_true_run rfl rfl)

theorem createZone_granted (hP : ValidPage P) (hr : Rep P w A)
    (h : w.os.reply (c.total P) = some b) :
    Writes P w A (createZone c.size) 0 (A.addZone P c b, w.os.mmap (c.total P))
      (A.createZoneMem P w.os c) := by
  have hf := hr.backed.fresh h
  have hreg := granted_region h
  have hr₁ := hr.granted hP h
  have hat : NodeAt (w.granted b (c.total P)) b (c.total P) := hr₁.backed.system.nodeAt hreg
  let m₂ := zoneMem P c b (w.granted b (c.total P)).mem
  have hinit := initZone_run hP hat
  have hz : ZoneRep P m₂ c b (List.replicate (c.cells P) none) := zoneMem_rep hP hat
  have hag : Agrees (w.granted b (c.total P)).mem m₂ fun a => a < b ∨ b + c.total P ≤ a :=
    fun _ ha => (zoneMem_confined hP).frame (by unfold Within; omega) fun hn => hn
  have hlim : b + c.total P ≤ w.os.limit ⟨b, c.total P⟩ := hr.backed.system.le_limit ⟨b, c.total P⟩
  have hkeep : Agrees w.mem m₂ (A.InNode P) :=
    (granted_agrees hr.backed h).trans (hag.mono fun a ha => by
      have := hr.backed.outside h ha
      omega)
  -- the new zone's slots, before it is linked
  let A₁ : AHeap := { A with slots := Function.update A.slots b (List.replicate (c.cells P) none) }
  have hslots : ∀ {y}, y ≠ b → A₁.slots y = A.slots y := fun hy => Function.update_of_ne hy _ _
  have hself : A₁.slots b = List.replicate (c.cells P) none := Function.update_self _ _ _
  have hr₂ : Rep P ((w.granted b (c.total P)).setMem m₂) A₁ := by
    have hr₂ := hr₁.frame hP (hag.mono fun a ha => by
      have := hr.backed.outside h (ha.inNode hP)
      omega)
    refine ⟨hr₂.page, hr₂.flag, ⟨hr₂.wf.nodup, hr₂.wf.once, fun {c' y} hy => ?_⟩,
      ⟨hr₂.backed.system, hr₂.backed.region⟩, hr₂.lists, fun g y hy => ?_⟩
    · obtain ⟨g, -, hm⟩ := AHeap.HasZone.mem hy
      rw [hslots (hf.ne_of_mem hm)]
      exact hr.wf.cells hy
    · have hn := hr₂.nodes g y hy
      unfold NodeRep at hn ⊢
      rwa [hslots (hf.ne_of_mem hy)]
  have hnode : NodeRep P m₂ A₁ c.freeHead b := by
    unfold NodeRep
    rw [c.cls_freeHead]
    simp only
    rw [hself]
    exact hz
  obtain ⟨w', hins, hos, hr', hag', hmem⟩ := hr₂.append_writes hP hf
    (by rw [AHeap.len_of_cls c.cls_freeHead]; exact hreg) hnode fun c' hc => by
      rw [c.cls_freeHead] at hc
      cases hc
      rw [hself, List.length_replicate]
  refine ⟨w', ?_, hos, hr', ?_, ?_⟩
  · unfold createZone
    refine Prog.bind_to rfl ?_
    rw [hr.page]
    have htotal : totalSize P c.size = c.total P := rfl
    rw [htotal, (hP.layout c).blocks]
    refine Prog.bind_to (mmap_of h) (Prog.if_false_run (granted_ne_mapFailed h) ?_)
    rw [← insertZone_eq] at hins
    exact Prog.bind_to hinit (Prog.bind_to hins rfl)
  · refine (hkeep.mono fun a ha => ha.inNode hP).trans (hag'.mono fun a ha hm => ?_)
    obtain ⟨k, hk, h1, h2⟩ := ha
    obtain ⟨g, x, hx, ho⟩ := hm
    have hg := AHeap.grows_addZone (P := P) (c := c) hf
    refine hr'.backed.payload_not_own hP hr'.wf (hg.cell hk) h1 ?_ hx ho
    exact (hg.cap hk).symm ▸ h2
  · obtain rfl := hr.page
    rw [hmem]
    unfold AHeap.createZoneMem
    rw [h]
    rfl

/-- **`create_zone` (`malloc.c:14-74`) is `AHeap.createZone`**: a fresh zone at the end of the free
list of its class, or no change and the error 1. -/
theorem createZone_writes (hP : ValidPage P) (hr : Rep P w A) (c : Cls) :
    let r := A.createZone P w.os c
    Writes P w A (createZone c.size) (if r.1 then 0 else 1) r.2 (A.createZoneMem P w.os c) := by
  unfold AHeap.createZone
  cases h : w.os.reply (c.total P) with
  | none =>
    refine ⟨_, createZone_refused hr.page h, rfl, hr.refused hP, Agrees.refl _ _, ?_⟩
    unfold AHeap.createZoneMem
    rw [h]
    rfl
  | some b => exact createZone_granted hP hr h

theorem createZone_run (hP : ValidPage P) (hr : Rep P w A) (c : Cls) :
    let r := A.createZone P w.os c
    Refines P w A (createZone c.size) (if r.1 then 0 else 1) r.2 :=
  (createZone_writes hP hr c).refines

/-! ## The lazy setup -/

theorem Rep.init (hr : Rep P w A) :
    Rep P { w with heap := { w.heap with initialized := 1 } } A.init :=
  ⟨hr.page, rfl, ⟨hr.wf.nodup, hr.wf.once, hr.wf.cells⟩, hr.backed.init,
    fun h => by cases h <;> exact hr.lists _, hr.nodes⟩

/-- Payload of a heap is payload of any heap it grows to, as no cell is lost. -/
theorem AHeap.Grows.payload {A' : AHeap} (hg : AHeap.Grows P A A') (ha : A.Payload P a) :
    A'.Payload P a := by
  obtain ⟨k, hk, h1, h2⟩ := ha
  exact ⟨k, hg.cell hk, h1, (hg.cap hk).symm ▸ h2⟩

/-- **`setup_global_heap` (`malloc.c:91-103`) is `AHeap.setup`**, also when the second zone cannot
be made and the first stays. -/
theorem setupGlobalHeap_writes (hP : ValidPage P) (hr : Rep P w A) :
    let r := A.setup P w.os
    Writes P w A setupGlobalHeap (if r.1 then 0 else 1) r.2 (A.setupMem P w.os) := by
  obtain ⟨w₁, hrun₁, hos₁, hr₁, hag₁, hmem₁⟩ := createZone_writes hP hr .tiny
  have hg := AHeap.createZone_grows (c := .tiny) hr.backed
  unfold AHeap.setup AHeap.setupMem setupGlobalHeap
  generalize A.createZone P w.os .tiny = r at *
  by_cases h1 : r.1 = true
  · rw [if_pos h1] at hrun₁
    simp only [h1, if_true]
    obtain ⟨w₂, hrun₂, hos₂, hr₂, hag₂, hmem₂⟩ := createZone_writes hP hr₁ .small
    rw [hos₁] at hrun₂ hos₂ hr₂ hmem₂
    rw [hmem₁] at hmem₂
    have hag := hag₁.trans (hag₂.mono fun a ha => hg.payload ha)
    generalize r.2.1.createZone P r.2.2 .small = r' at *
    by_cases h2 : r'.1 = true
    · rw [if_pos h2] at hrun₂
      simp only [h2, if_true]
      refine ⟨_, ?_, ?_, hr₂.init, hag, hmem₂⟩
      · refine Prog.bind_to hrun₁ (Prog.if_false_run (by decide) ?_)
        exact Prog.bind_to hrun₂ (Prog.if_false_run (by decide) rfl)
      · exact hos₂
    · rw [if_neg h2] at hrun₂
      simp only [if_neg h2]
      refine ⟨_, ?_, hos₂, hr₂, hag, hmem₂⟩
      refine Prog.bind_to hrun₁ (Prog.if_false_run (by decide) ?_)
      exact Prog.bind_to hrun₂ (Prog.if_true_run (by decide) rfl)
  · rw [if_neg h1] at hrun₁
    simp only [if_neg h1]
    exact ⟨_, Prog.bind_to hrun₁ (Prog.if_true_run (by decide) rfl), hos₁, hr₁, hag₁, hmem₁⟩

/-- **The lazy setup (`malloc.c:213-219`) is `AHeap.ready`**: nothing when the heap is initialised,
`setup_global_heap` otherwise. -/
theorem ensureSetup_writes (hP : ValidPage P) (hr : Rep P w A) :
    let r := A.ready P w.os
    Writes P w A ensureSetup (if r.1 then 0 else 1) r.2 (A.readyMem P w.os) := by
  have hflag := hr.flag
  unfold AHeap.ready AHeap.readyMem ensureSetup
  cases hi : A.initialized with
  | true =>
    rw [hi] at hflag
    simp only [if_true]
    refine ⟨w, ?_, rfl, hr, Agrees.refl _ _, rfl⟩
    refine Prog.bind_to rfl (Prog.if_false_run ?_ rfl)
    rw [hflag]
    decide
  | false =>
    rw [hi] at hflag
    obtain ⟨w', hrun, hrest⟩ := setupGlobalHeap_writes hP hr
    exact ⟨w', Prog.bind_to rfl (Prog.if_true_run hflag hrun), hrest⟩

theorem ensureSetup_run (hP : ValidPage P) (hr : Rep P w A) :
    let r := A.ready P w.os
    Refines P w A ensureSetup (if r.1 then 0 else 1) r.2 :=
  (ensureSetup_writes hP hr).refines

/-! ## A new block -/

/-- The memory after a block was initialised (`malloc.c:83-87`): size, type, the `free` mark and the
header word, which is the block's own address. The links are those of fresh pages, NULL. -/
def blockMem (b s : Nat) (m : Mem) : Mem :=
  st (stInt (stInt (st m 8 (b + BlockT.size) s) (b + BlockT.type) largeBlock)
    (b + BlockT.free) 1) 8 (b + BlockT.sizeof) b

/-- The initialisation of a block stays in its first 48 bytes, the header and the word that refers
to it. -/
theorem blockMem_confined : Confined (Within b 48) Nowhere (blockMem b s) := by
  have hst : ∀ {o v : Nat}, o + 8 ≤ 48 →
      Confined (Within b 48) Nowhere fun m => st m 8 (b + o) v := fun ho =>
    Confined.st.mono fun a ha => by unfold Within at *; omega
  have hint : ∀ {o : Nat} {i : Int}, o + 4 ≤ 48 →
      Confined (Within b 48) Nowhere fun m => stInt m (b + o) i := fun ho =>
    Confined.st.mono fun a ha => by unfold Within at *; omega
  have hin : ∀ a, Within b 48 a → Within b 48 a ∨ Nowhere a := fun a ha => Or.inl ha
  unfold blockMem
  refine Confined.then ?_ (hst (by decide)) hin
  refine Confined.then ?_ (hint (by decide)) hin
  refine Confined.then ?_ (hint (by decide)) hin
  exact hst (by decide)

/-- **`create_block`** (`malloc.c:83-88`) on a mapping whose length did not wrap: the block is
large, marked free and in no list. -/
theorem createBlock_granted [Platform] (hP : ValidPage P) (hr : Rep P w A) (hlt : 48 + s < 2 ^ 64)
    (h : w.os.reply (48 + s) = some b) :
    ∃ w', createBlock s w = some (b, w') ∧ w'.os = w.os.mmap (48 + s) ∧
      w'.heap = w.heap ∧ Rep P w' A ∧ BlockRep w'.mem b s ∧
      Agrees w.mem w'.mem (A.InNode P) ∧
      w'.mem = blockMem b s (grantMem P b (48 + s) w.mem) := by
  have hreg := granted_region h
  have hr₁ := hr.granted hP h
  have hat : NodeAt (w.granted b (48 + s)) b (48 + s) := hr₁.backed.system.nodeAt hreg
  have hend := hat.end_le
  have h8 : 256 ^ 8 = 2 ^ 64 := by decide
  have hlim : b + (48 + s) ≤ w.os.limit ⟨b, 48 + s⟩ := hr.backed.system.le_limit ⟨b, 48 + s⟩
  have hfield : ∀ {o k}, o + k ≤ 48 → (w.granted b (48 + s)).os.Mapped (b + o) k := fun ho =>
    hat.mapped (by omega) (by omega)
  let m₀ := (w.granted b (48 + s)).mem
  let m₁ := blockMem b s m₀
  have hag : Agrees m₀ m₁ fun a => a < b ∨ b + 48 ≤ a := fun _ ha =>
    blockMem_confined.frame (by unfold Within; omega) fun hn => hn
  have hout : ∀ a, A.InNode P a → a < b ∨ b + 48 ≤ a := fun a ha => by
    have := hr.backed.outside h ha
    omega
  refine ⟨(w.granted b (48 + s)).setMem m₁, ?_, rfl, rfl, ?_, ?_, ?_, ?_⟩
  · unfold createBlock
    rw [show wrap (BlockT.sizeof + 8 + s) = 48 + s from wrap_of_lt hlt]
    refine Prog.bind_to (mmap_of h) (Prog.if_false_run (granted_ne_mapFailed h) ?_)
    refine Prog.bind_to (store_of (hfield (by decide))) ?_
    refine Prog.bind_to (storeInt_of (hfield (by decide))) ?_
    refine Prog.bind_to (storeInt_of (hfield (by decide))) ?_
    exact Prog.bind_to (store_of (hfield (by decide))) rfl
  · exact hr₁.frame hP (hag.mono fun a ha => hout a (ha.inNode hP))
  · constructor <;>
      simp (disch := decide) only [m₁, blockMem, World.setMem_mem, ld_st_off, ldInt_st_off,
        ld_stInt_off, ldInt_stInt_off]
    · exact ld_st_same (by omega)
    · exact ldInt_stInt (by decide) (by decide)
    · exact ld_st_same (by omega)
  · exact (granted_agrees hr.backed h).trans (hag.mono hout)
  · obtain rfl := hr.page
    rfl

theorem createBlock_refused [Platform] (h : w.os.reply (wrap (48 + s)) = none) :
    createBlock s w = some (0, { w with os := w.os.mmap (wrap (48 + s)) }) :=
  Prog.bind_to (mmap_fail h) (Prog.if_true_run rfl (Prog.bind_to (Platform.perror_quiet _) rfl))

end FtMalloc
