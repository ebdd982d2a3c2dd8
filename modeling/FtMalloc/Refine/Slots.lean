import FtMalloc.Refine.Create

/-!
# Taking and releasing a slot (`malloc.c:105-146`, `233-241`)

* `findSetBit_run`: the bitmap scan finds the first free slot of a zone.
* `takenMem_rep`: clearing the bit, recording the size and decrementing `free_count` is
  `AHeap.setSlot` to `some s`.
* `releasedMem_rep`: setting the bit and incrementing `free_count` is `AHeap.setSlot` to `none`.
-/

namespace FtMalloc

open Lib

variable {P : Nat} {w : World} {m m' : Mem} {A : AHeap} {z s a i j k n : Nat} {c : Cls}
  {slots slots' : List (Option Nat)} {o : Option Nat}

/-! ## The bitmap scan -/

theorem scanByte_some {byte : Byte} : ∀ {k j : Nat}, j + k = 8 → j ≤ n → n < 8 →
    byte.getLsbD n = true → (∀ t, j ≤ t → t < n → byte.getLsbD t = false) →
    scanByte byte i j k = some (i * 8 + n)
  | 0, j, hj, h1, h2, _, _ => by omega
  | k + 1, j, hj, h1, h2, hn, hlow => by
    unfold scanByte
    by_cases hjn : j = n
    · subst hjn
      rw [if_pos ((and_bitMask_ne_zero byte h2).mpr hn)]
    · have hzero : ¬byte &&& bitMask j ≠ 0#8 := fun h => by
        have hset := (and_bitMask_ne_zero byte (by omega)).mp h
        rw [hlow j (Nat.le_refl j) (by omega)] at hset
        cases hset
      rw [if_neg hzero]
      exact scanByte_some (by omega) (by omega) h2 hn fun t h3 h4 => hlow t (by omega) h4

theorem scanByte_none {byte : Byte} : ∀ {k j : Nat}, j + k = 8 →
    (∀ t, j ≤ t → t < 8 → byte.getLsbD t = false) → scanByte byte i j k = none
  | 0, _, _, _ => rfl
  | k + 1, j, hj, hlow => by
    have hzero : ¬byte &&& bitMask j ≠ 0#8 := fun h => by
      have hset := (and_bitMask_ne_zero byte (by omega)).mp h
      rw [hlow j (Nat.le_refl j) (by omega)] at hset
      cases hset
    unfold scanByte
    rw [if_neg hzero]
    exact scanByte_none (by omega) fun t h3 h4 => hlow t (by omega) h4

/-- The scan from byte `i` on (`malloc.c:111-120`) finds bit `n` when it is the first one set
there. -/
theorem scanBytes_run {bm : Nat} : ∀ {k i : Nat}, i * 8 ≤ n →
    n < (i + k) * 8 → (∀ j, j < i + k → w.os.Mapped (bm + j) 1) → bit w.mem bm n = true →
    (∀ t, i * 8 ≤ t → t < n → bit w.mem bm t = false) →
    ∀ found : Nat → Int, scanBytes bm found i k w = some (found n, w)
  | 0, i, h1, h2, _, _, _, _ => by omega
  | k + 1, i, h1, h2, hm, hn, hlow, found => by
    have hbyte : ∀ t, (w.mem (bm + i)).getLsbD t = bit w.mem bm (i * 8 + t) ∨ 8 ≤ t := by
      intro t
      rcases Nat.lt_or_ge t 8 with ht | ht
      · left
        unfold bit
        rw [show (i * 8 + t) / 8 = i by omega, show (i * 8 + t) % 8 = t by omega]
      · exact Or.inr ht
    unfold scanBytes
    refine Prog.bind_to (loadByte_of (hm i (by omega))) ?_
    by_cases hlast : n < (i + 1) * 8
    · have hhit : scanByte (w.mem (bm + i)) i 0 8 = some n := by
        have hsplit : n = i * 8 + (n - i * 8) := by omega
        rw [hsplit]
        refine scanByte_some (by omega) (by omega) (by omega) ?_ fun t _ ht => ?_
        · rw [(hbyte _).resolve_right (by omega), ← hsplit]
          exact hn
        · rw [(hbyte _).resolve_right (by omega)]
          exact hlow _ (by omega) (by omega)
      rw [hhit]
      rfl
    · have hmiss : scanByte (w.mem (bm + i)) i 0 8 = none := by
        refine scanByte_none (by omega) fun t _ ht => ?_
        rw [(hbyte _).resolve_right (by omega)]
        exact hlow _ (by omega) (by omega)
      rw [hmiss]
      exact scanBytes_run (by omega) (by omega) (fun j hj => hm j (by omega)) hn
        (fun t h3 h4 => hlow t (by omega) h4) found

/-- A function that finds the first free slot of a represented zone: what the two files'
`find_set_bit` have in common. -/
def Finds (P : Nat) (find : Nat → C Int) : Prop :=
  ∀ {w : World} {A : AHeap} {c : Cls} {z i : Nat}, Rep P w A → A.HasZone c z →
    A.leastFree z = some i → find z w = some ((i : Int), w)

/-- The first free slot is the first set bit of the bitmap. -/
theorem leastFree_bit (hP : ValidPage P) (hr : Rep P w A) (hz : A.HasZone c z)
    (hi : A.leastFree z = some i) : i < c.cells P ∧ bit w.mem (z + 72) i = true ∧
      ∀ t, t < i → bit w.mem (z + 72) t = false := by
  obtain ⟨hlt, he, hmin⟩ := List.findIdx?_eq_some_iff_getElem.mp hi
  have hzr := (hr.zone hz).1
  have hbits := (hP.layout c).bits
  have hcells := hr.wf.cells hz
  refine ⟨by omega, ?_, fun t ht => ?_⟩
  · rw [hzr.bits i (by omega), List.getElem?_eq_getElem hlt, Option.isNone_iff_eq_none.mp he]
    rfl
  · rw [hzr.bits t (by omega), decide_eq_false_iff_not, List.getElem?_eq_getElem (by omega)]
    intro h
    exact hmin t ht (by rw [Option.some.inj h]; rfl)

/-- The number of bytes of the bitmap, as the scan computes it (`malloc.c:110`). -/
theorem bitmap_bytes (P : Nat) (c : Cls) :
    (((c.cells P : Nat) : Int) + 7).tdiv 8 = (c.bitmapLen P : Nat) := by
  rw [Int.tdiv_eq_ediv_of_nonneg (by omega)]
  rfl

/-- The scan covers them all: for at most 2047 slots the sum does not leave `int`. -/
theorem scan_bytes (hP : ValidPage P) (c : Cls) :
    (wrapInt (((c.cells P : Nat) : Int) + 7)).tdiv 8 = (c.bitmapLen P : Nat) := by
  have hcap := (hP.layout c).cap
  rw [wrapInt_small (by omega) (by omega)]
  exact bitmap_bytes P c

/-- The bytes of the bitmap, which either scan reads, are mapped. -/
theorem scan_mapped (hP : ValidPage P) (hr : Rep P w A) (hz : A.HasZone c z)
    (hj : j < c.bitmapLen P) : w.os.Mapped (z + 72 + j) 1 := by
  have hL := hP.layout c
  have hroom := hL.room
  have hhd := hL.header
  exact (hr.zone hz).2.mapped (by omega) (by omega)

theorem zone_mapped (hP : ValidPage P) (hr : Rep P w A) (hz : A.HasZone c z) (h : n + k ≤ 72) :
    w.os.Mapped (z + n) k := by
  have hL := hP.layout c
  have hroom := hL.room
  have hhd := hL.header
  exact (hr.zone hz).2.mapped (by omega) (by omega)

/-- **`find_set_bit` (`malloc.c:105-123`) finds the first free slot**, and -1 when there is none: no
bit past the last slot is ever set. -/
theorem findSetBit_run (hP : ValidPage P) : Finds P findSetBit := by
  intro w A c z i hr hz hi
  obtain ⟨hlt, hset, hlow⟩ := leastFree_bit hP hr hz hi
  obtain ⟨hzr, hat⟩ := hr.zone hz
  have hbits := (hP.layout c).bits
  refine Prog.if_false_run hat.ne_zero ?_
  refine Prog.bind_to (loadInt_to (zone_mapped hP hr hz (by decide)) hzr.blocks) ?_
  refine Prog.bind_to (load_to (zone_mapped hP hr hz (by decide)) hzr.bitmapAt) ?_
  rw [scan_bytes hP, Int.toNat_natCast]
  exact scanBytes_run (by omega) (by omega) (fun j hj => scan_mapped hP hr hz (by omega)) hset
    (fun t _ ht => hlow t ht) _

/-! ## Changing one slot -/

/-- A zone whose arrays and counter change, the rest of what it owns staying. -/
theorem ZoneRep.update (hz : ZoneRep P m c z slots)
    (he : ∀ a, z ≤ a → a < z + 48 ∨ z + c.dataOff P ≤ a → m' a = m a)
    (hc : ldInt m' (z + ZoneT.freeCount) = (slots'.countP (·.isNone) : Nat))
    (hb : ∀ i, i < 8 * c.bitmapLen P → bit m' (z + 72) i = decide (slots'[i]? = some none))
    (hs : ∀ i r, slots'[i]? = some (some r) →
      ld m' 8 (z + 72 + c.bitmapLen P + 8 * i) = r) : ZoneRep P m' c z slots' := by
  have hword : ∀ o, o + 8 ≤ 48 → ld m' 8 (z + o) = ld m 8 (z + o) := fun o ho =>
    ld_congr fun a h1 h2 => he a (by omega) (Or.inl (by omega))
  have hint : ∀ o, o + 4 ≤ 48 → ldInt m' (z + o) = ldInt m (z + o) := fun o ho =>
    ldInt_congr fun a h1 h2 => he a (by omega) (Or.inl (by omega))
  refine ⟨(hword _ (by decide)).trans hz.base, (hint _ (by decide)).trans hz.type,
    (hint _ (by decide)).trans hz.blocks, (hword _ (by decide)).trans hz.zoneSize,
    (hword _ (by decide)).trans hz.sizesAt, (hword _ (by decide)).trans hz.bitmapAt,
    (hword _ (by decide)).trans hz.memoryAt, hc, hb, hs, fun i hi => ?_⟩
  rw [← hz.headers i hi]
  refine ld_congr fun a h1 h2 => ?_
  unfold Cls.headerAddr at h1
  exact he a (by omega) (Or.inr (by omega))

/-- A byte of the arrays or the counter of a zone, which a slot that is taken or released
changes. -/
def SlotByte (P : Nat) (c : Cls) (z a : Nat) : Prop :=
  z + 48 ≤ a ∧ a < z + 52 ∨ z + 72 ≤ a ∧ a < z + c.dataOff P

theorem SlotByte.own (hP : ValidPage P) {h : Head} (hc : h.cls = some c) (hs : SlotByte P c z a) :
    OwnByte P h z a ∧ ¬h.node.LinkByte z a := by
  have hhd := (hP.layout c).header
  rw [ownByte_zone hc, Cls.node_eq hc]
  simp only [NodeLayout.LinkByte, zoneNode, ZoneT.next, ZoneT.prev]
  unfold SlotByte at hs
  omega

/-- **A change of one slot** of a zone in memory is `AHeap.setSlot`, when nothing but the arrays and
the counter of that zone has changed. -/
theorem Rep.setSlot (hP : ValidPage P) (hr : Rep P w A) (hz : A.HasZone c z)
    (he : Agrees w.mem m' fun a => ¬SlotByte P c z a)
    (hzr : ZoneRep P m' c z ((A.slots z).set i o)) :
    Rep P (w.setMem m') (A.setSlot z i o) ∧ Agrees w.mem m' (A.Payload P) := by
  obtain ⟨g, hg, hm⟩ := hz.mem
  have hother : ∀ {h : Head} {x a : Nat}, x ∈ A.lists h → OwnByte P h x a →
      x ≠ z ∨ h.node.LinkByte x a → m' a = w.mem a := by
    intro h x a hx ho hn
    refine he a fun hs => ?_
    obtain ⟨hoz, hnl⟩ := hs.own hP hg
    obtain rfl := hr.backed.own_unique hP hx hm ho hoz
    obtain rfl := hr.wf.once hx hm
    rcases hn with hn | hn
    · exact hn rfl
    · exact hnl hn
  refine ⟨⟨hr.page, hr.flag, hr.wf.setSlot, hr.backed.setSlot, fun h => ?_, fun h x hx => ?_⟩,
    he.mono fun a ha hs => ?_⟩
  · exact (hr.lists h).frame fun x hx a hl => hother hx (own_of_link hP hl) (Or.inr hl)
  · by_cases hxz : x = z
    · subst hxz
      obtain rfl := hr.wf.once hx hm
      unfold NodeRep
      rw [hg]
      simp only
      rw [AHeap.slots_setSlot_self]
      exact hzr
    · have hn : NodeRep P m' A h x := (hr.nodes h x hx).congr hP
        (fun _ hc => hr.wf.cells (AHeap.hasZone_of_mem hc hx))
        fun a ho _ => hother hx ho (Or.inl hxz)
      unfold NodeRep at hn ⊢
      rwa [AHeap.slots_setSlot, if_neg hxz]
  · obtain ⟨k, hk, h1, h2⟩ := ha
    exact hr.backed.payload_not_own hP hr.wf hk h1 h2 hm (hs.own hP hg).1

/-! ## Taking a slot -/

theorem updateBitmap_run (hP : ValidPage P) (hr : Rep P w A) (hz : A.HasZone c z)
    (hi : i < c.cells P) (f : Byte → Byte) : updateBitmap z i f w =
      some ((), w.setMem (put w.mem (z + 72 + i / 8) (f (w.mem (z + 72 + i / 8))))) := by
  have hbits := (hP.layout c).bits
  have hm : w.os.Mapped (z + 72 + i / 8) 1 := scan_mapped hP hr hz (by omega)
  refine Prog.bind_to (load_to (zone_mapped hP hr hz (by decide)) (hr.zone hz).1.bitmapAt) ?_
  exact Prog.bind_to (loadByte_of hm) (storeByte_of hm)

theorem addFreeCount_run {d : Int} (hm : w.os.Mapped (z + ZoneT.freeCount) 4) :
    addFreeCount z d w = some ((), w.setMem (stInt w.mem (z + ZoneT.freeCount)
      (ldInt w.mem (z + ZoneT.freeCount) + d))) :=
  Prog.bind_to (loadInt_of hm) (storeInt_of hm)

/-- The memory after a slot was taken (`malloc.c:141-143`): its bit is cleared, its requested size
stored, and the counter one less. -/
def takenMem (m : Mem) (z i s bytes : Nat) : Mem :=
  let m₁ := put m (z + 72 + i / 8) (m (z + 72 + i / 8) &&& ~~~bitMask (i % 8))
  let m₂ := st m₁ 8 (z + 72 + bytes + 8 * i) s
  stInt m₂ (z + ZoneT.freeCount) (ldInt m₂ (z + ZoneT.freeCount) + -1)

/-- The memory after a slot was released (`malloc.c:238-239`): its bit is set and the counter one
more. -/
def releasedMem (m : Mem) (z i : Nat) : Mem :=
  let m₁ := put m (z + 72 + i / 8) (m (z + 72 + i / 8) ||| bitMask (i % 8))
  stInt m₁ (z + ZoneT.freeCount) (ldInt m₁ (z + ZoneT.freeCount) + 1)

/-- The counter is computed from the counter, so the store depends on no other byte. -/
theorem addCount_confined {d : Int} : Confined (Within (z + ZoneT.freeCount) 4) Nowhere fun m =>
    stInt m (z + ZoneT.freeCount) (ldInt m (z + ZoneT.freeCount) + d) :=
  Confined.update fun he => by rw [ldInt_congr fun x h1 h2 => he x ⟨h1, h2⟩]

/-- The three stores of a taken slot stay in the arrays and the counter, and are computed from
these. -/
theorem takenMem_confined (hL : c.Layout P) (hi : i < c.cells P) :
    Confined (SlotByte P c z) Nowhere fun m => takenMem m z i s (c.bitmapLen P) := by
  have hhd := hL.header
  have hbits := hL.bits
  have hbit : ∀ a, Within (z + 72 + i / 8) 1 a → SlotByte P c z a := fun a ha => by
    unfold Within SlotByte at *
    omega
  have hsize : ∀ a, Within (z + 72 + c.bitmapLen P + 8 * i) 8 a → SlotByte P c z a :=
    fun a ha => by
      unfold Within SlotByte at *
      omega
  have hcount : ∀ a, Within (z + ZoneT.freeCount) 4 a → SlotByte P c z a := fun a ha => by
    unfold Within SlotByte ZoneT.freeCount at *
    omega
  have hput : Confined (SlotByte P c z) Nowhere fun m =>
      put m (z + 72 + i / 8) (m (z + 72 + i / 8) &&& ~~~bitMask (i % 8)) :=
    (Confined.modify (c := (· &&& ~~~bitMask (i % 8)))).mono hbit
  have hstore : Confined (SlotByte P c z) Nowhere fun m =>
      st (put m (z + 72 + i / 8) (m (z + 72 + i / 8) &&& ~~~bitMask (i % 8))) 8
        (z + 72 + c.bitmapLen P + 8 * i) s :=
    hput.then Confined.st fun a ha => Or.inl (hsize a ha)
  have hall := hstore.then (addCount_confined (d := -1)) fun a ha => Or.inl (hcount a ha)
  exact hall

theorem releasedMem_confined (hL : c.Layout P) (hi : i < c.cells P) :
    Confined (SlotByte P c z) Nowhere fun m => releasedMem m z i := by
  have hhd := hL.header
  have hbits := hL.bits
  have hput : Confined (SlotByte P c z) Nowhere fun m =>
      put m (z + 72 + i / 8) (m (z + 72 + i / 8) ||| bitMask (i % 8)) :=
    (Confined.modify (c := (· ||| bitMask (i % 8)))).mono fun a ha => by
      unfold Within SlotByte at *
      omega
  have hcount : ∀ a, Within (z + ZoneT.freeCount) 4 a → SlotByte P c z a := fun a ha => by
    unfold Within SlotByte ZoneT.freeCount at *
    omega
  have hall := hput.then (addCount_confined (d := 1)) fun a ha => Or.inl (hcount a ha)
  exact hall

theorem takenMem_agrees (hL : c.Layout P) (hi : i < c.cells P) :
    Agrees m (takenMem m z i s (c.bitmapLen P)) fun a => ¬SlotByte P c z a :=
  fun _ ha => (takenMem_confined hL hi).frame ha fun hn => hn

theorem releasedMem_agrees (hL : c.Layout P) (hi : i < c.cells P) :
    Agrees m (releasedMem m z i) fun a => ¬SlotByte P c z a :=
  fun _ ha => (releasedMem_confined hL hi).frame ha fun hn => hn

theorem getElem?_set_ne_none_iff (hi : slots[i]? = some none) (j : Nat) :
    (slots.set i (some s))[j]? = some none ↔ slots[j]? = some none ∧ j ≠ i := by
  rw [List.getElem?_set]
  have hlt := (List.getElem?_eq_some_iff.mp hi).1
  by_cases hij : i = j
  · subst hij
    simp [hlt]
  · simp [hij, Ne.symm hij]

theorem getElem?_set_none_iff {r : Nat} (hi : slots[i]? = some (some r)) (j : Nat) :
    (slots.set i none)[j]? = some none ↔ slots[j]? = some none ∨ j = i := by
  rw [List.getElem?_set]
  have hlt := (List.getElem?_eq_some_iff.mp hi).1
  by_cases hij : i = j
  · subst hij
    simp [hlt]
  · simp [hij, Ne.symm hij]

theorem SlotByte.low (h : z ≤ a ∧ (a < z + 48 ∨ z + c.dataOff P ≤ a)) (hL : c.Layout P) :
    ¬SlotByte P c z a := by
  have hhd := hL.header
  unfold SlotByte
  omega

/-- A counter of free slots is an `int`, and one more or less does not wrap. -/
theorem Rep.count_bounds (hP : ValidPage P) (hr : Rep P w A) (hz : A.HasZone c z) :
    ldInt w.mem (z + ZoneT.freeCount) = (A.freeCount z : Nat) ∧ A.freeCount z ≤ 2047 := by
  have hle := AHeap.freeCount_le (A := A) (z := z)
  rw [hr.wf.cells hz] at hle
  exact ⟨(hr.zone hz).1.count, hle.trans (hP.layout c).cap⟩

/-- **Taking a free slot** in memory is taking it in the abstract heap: its bit, its requested size
and the count change, and no other slot does. -/
theorem takenMem_rep (hP : ValidPage P) (hr : Rep P w A) (hz : A.HasZone c z)
    (hi : (A.slots z)[i]? = some none) (hs : s < 256 ^ 8) :
    Rep P (w.setMem (takenMem w.mem z i s (c.bitmapLen P))) (A.setSlot z i (some s)) ∧
      Agrees w.mem (takenMem w.mem z i s (c.bitmapLen P)) (A.Payload P) := by
  have hL := hP.layout c
  have hzr := (hr.zone hz).1
  have hlt : i < c.cells P := by
    rw [← hr.wf.cells hz]
    exact (List.getElem?_eq_some_iff.mp hi).1
  have hag := takenMem_agrees (m := w.mem) (z := z) (s := s) hL hlt
  obtain ⟨hcount, hmax⟩ := hr.count_bounds hP hz
  have htake := AHeap.freeCount_take (s := s) hi
  refine hr.setSlot hP hz hag (hzr.update (fun a h1 h2 => hag a (SlotByte.low ⟨h1, h2⟩ hL))
    ?_ (fun j hj => ?_) fun j r hj => ?_)
  · have hkeep : ldInt (st (put w.mem (z + 72 + i / 8)
        (w.mem (z + 72 + i / 8) &&& ~~~bitMask (i % 8))) 8 (z + 72 + c.bitmapLen P + 8 * i) s)
        (z + ZoneT.freeCount) = (A.freeCount z : Nat) := by
      rw [← hcount]
      refine ldInt_congr fun a h1 h2 => ?_
      simp only [ZoneT.freeCount] at h1 h2
      rw [st_out (by omega), put_out (by omega)]
    unfold takenMem
    simp only
    rw [hkeep, ldInt_stInt (by omega) (by omega)]
    unfold AHeap.freeCount at htake ⊢
    rw [AHeap.slots_setSlot_self] at htake
    omega
  · have hbyte : takenMem w.mem z i s (c.bitmapLen P) (z + 72 + j / 8) =
        put w.mem (z + 72 + i / 8) (w.mem (z + 72 + i / 8) &&& ~~~bitMask (i % 8))
          (z + 72 + j / 8) := by
      simp only [takenMem, stInt, ZoneT.freeCount]
      rw [st_out (by omega), st_out (by omega)]
    rw [bit_congr hbyte, bit_put_clear, hzr.bits j hj]
    by_cases hj' : j = i
    · simp [hj', (getElem?_set_ne_none_iff hi i)]
    · simp [hj', (getElem?_set_ne_none_iff hi j)]
  · have hbits := hL.bits
    rw [List.getElem?_set] at hj
    have hword : ld (takenMem w.mem z i s (c.bitmapLen P)) 8 (z + 72 + c.bitmapLen P + 8 * j) =
        ld (st (put w.mem (z + 72 + i / 8) (w.mem (z + 72 + i / 8) &&& ~~~bitMask (i % 8)))
          8 (z + 72 + c.bitmapLen P + 8 * i) s) 8 (z + 72 + c.bitmapLen P + 8 * j) := by
      refine ld_st_apart ?_
      simp only [ZoneT.freeCount]
      omega
    rw [hword]
    split at hj
    · rename_i e
      subst e
      split at hj
      · cases hj
        exact ld_st_same hs
      · cases hj
    · rename_i hne
      rw [← hzr.sizes j r hj, ld_st_apart (by omega)]
      exact ld_put_apart (by omega)

/-- **Releasing a slot** in memory is releasing it in the abstract heap; its requested size is
forgotten there and stays here. -/
theorem releasedMem_rep {r : Nat} (hP : ValidPage P) (hr : Rep P w A) (hz : A.HasZone c z)
    (hi : (A.slots z)[i]? = some (some r)) :
    Rep P (w.setMem (releasedMem w.mem z i)) (A.setSlot z i none) ∧
      Agrees w.mem (releasedMem w.mem z i) (A.Payload P) := by
  have hL := hP.layout c
  have hzr := (hr.zone hz).1
  have hlt : i < c.cells P := by
    rw [← hr.wf.cells hz]
    exact (List.getElem?_eq_some_iff.mp hi).1
  have hag := releasedMem_agrees (m := w.mem) (z := z) hL hlt
  obtain ⟨hcount, hmax⟩ := hr.count_bounds hP hz
  have hrel := AHeap.freeCount_release hi
  refine hr.setSlot hP hz hag (hzr.update (fun a h1 h2 => hag a (SlotByte.low ⟨h1, h2⟩ hL))
    ?_ (fun j hj => ?_) fun j r' hj => ?_)
  · have hkeep : ldInt (put w.mem (z + 72 + i / 8) (w.mem (z + 72 + i / 8) ||| bitMask (i % 8)))
        (z + ZoneT.freeCount) = (A.freeCount z : Nat) := by
      rw [← hcount]
      refine ldInt_congr fun a h1 h2 => put_out ?_
      simp only [ZoneT.freeCount] at h1 h2
      omega
    unfold releasedMem
    simp only
    rw [hkeep, ldInt_stInt (by omega) (by omega)]
    unfold AHeap.freeCount at hrel ⊢
    rw [AHeap.slots_setSlot_self] at hrel
    omega
  · have hbyte : releasedMem w.mem z i (z + 72 + j / 8) =
        put w.mem (z + 72 + i / 8) (w.mem (z + 72 + i / 8) ||| bitMask (i % 8))
          (z + 72 + j / 8) := by
      simp only [releasedMem, stInt, ZoneT.freeCount]
      rw [st_out (by omega)]
    rw [bit_congr hbyte, bit_put_set, hzr.bits j hj]
    by_cases hj' : j = i
    · simp [hj', (getElem?_set_none_iff hi i)]
    · simp [hj', (getElem?_set_none_iff hi j)]
  · have hbits := hL.bits
    rw [List.getElem?_set] at hj
    split at hj
    · split at hj <;> cases hj
    · rw [← hzr.sizes j r' hj]
      refine (ld_st_apart ?_).trans (ld_put_apart ?_)
      · simp only [ZoneT.freeCount]
        omega
      · omega

end FtMalloc
