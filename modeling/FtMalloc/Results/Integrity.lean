import FtMalloc.Run.Observe

/-!
# Integrity of the heap along client runs

Results, for every reachable configuration of the mandatory allocator:
* `live_exclusive`: live allocations are disjoint, mapped and apart from the allocator's data.
* `header_decodes`: the word below a live pointer names its owner.
* `zone_lists_sound`: the zone lists are well linked, and a zone's list, type, counter and bitmap
  agree.
-/

namespace FtMalloc

open Lib

variable {P : Nat} {w : World} {A : AHeap} {c : Config World} {z i : Nat} {cl : Cls}

/-! ## Allocations -/

/-- No byte is in both allocations. -/
def Alloc.Apart (x y : Alloc) : Prop := x.ptr + x.size ≤ y.ptr ∨ y.ptr + y.size ≤ x.ptr

/-- What is the allocator's is some node's own. -/
theorem Rep.metadata_own (hP : ValidPage P) (hr : Rep P w A) {a n : Nat} (hm : w.Metadata a n) :
    ∀ b, a ≤ b → b < a + n → A.Meta P b := by
  have hzone : ∀ {c : Cls} {z : Nat}, w.InClass c z → ∃ h : Head, h.cls = some c ∧ z ∈ A.lists h :=
    fun hz => (hr.inClass_iff.mp hz).mem
  have hfields : ∀ {c : Cls} {z : Nat}, w.InClass c z → ZoneFieldsOf P w c z :=
    fun hz => hr.zone_fields (hr.inClass_iff.mp hz)
  intro b h1 h2
  cases hm with
  | @zone c z hz =>
    obtain ⟨h, hc, hx⟩ := hzone hz
    have hhd := (hP.layout c).header
    simp only [ZoneT.sizeof] at h2
    exact ⟨h, _, hx, (ownByte_zone hc).mpr (Or.inl ⟨h1, by omega⟩)⟩
  | @bitmap c z hz =>
    obtain ⟨h, hc, hx⟩ := hzone hz
    have hhd := (hP.layout c).header
    rw [(hfields hz).bitmap] at h1 h2
    rw [(hfields hz).bytes] at h2
    exact ⟨h, _, hx, (ownByte_zone hc).mpr (Or.inl ⟨by omega, by omega⟩)⟩
  | @sizes c z hz =>
    obtain ⟨h, hc, hx⟩ := hzone hz
    have hhd := (hP.layout c).header
    rw [(hfields hz).sizes] at h1 h2
    rw [(hfields hz).number, Int.toNat_natCast] at h2
    exact ⟨h, _, hx, (ownByte_zone hc).mpr (Or.inl ⟨by omega, by omega⟩)⟩
  | @header c z i hz hi =>
    obtain ⟨h, hc, hx⟩ := hzone hz
    rw [(hfields hz).number] at hi
    rw [(hfields hz).address, Cls.slotAddr_eq, Nat.add_sub_cancel] at h1 h2
    exact ⟨h, _, hx, (ownByte_zone hc).mpr (Or.inr ⟨i, by exact_mod_cast hi, h1, h2⟩)⟩
  | block hc hb =>
    rw [hr.nodes_eq] at hb
    simp only [BlockT.sizeof] at h2
    exact ⟨_, _, hb, (ownByte_block hc).mpr ⟨h1, by omega⟩⟩
  | @blockHeader h b' hc hb =>
    rw [hr.nodes_eq] at hb
    simp only [BlockT.sizeof] at h1 h2
    exact ⟨_, _, hb, (ownByte_block hc).mpr ⟨by omega, by omega⟩⟩

/-- A held cell's range of `s` bytes lies in its node's mapping. -/
theorem Rep.cell_region (hP : ValidPage P) (hr : Rep P w A) {k : Cell} (hk : A.HasCell P k) :
    ∃ r ∈ w.os.regions, r.base = k.base ∧ r.base ≤ k.addr P ∧
      k.addr P + A.cap k ≤ r.base + r.len := by
  obtain ⟨h, hm, h1, h2⟩ := hk.node hP
  exact ⟨_, hr.backed.region hm, rfl, h1, h2⟩

/-- Live allocations have no byte in common. -/
theorem Inv.live_apart (hP : ValidPage P) (hI : Inv P c A) : c.live.Pairwise Alloc.Apart := by
  have hr := hI.rep
  refine (List.pairwise_map.mp hI.owned.nodup).imp_of_mem fun {x y} hx hy hne => ?_
  obtain ⟨k, hk, hkx, hsx⟩ := hI.owned.cell x hx
  obtain ⟨k', hk', hky, hsy⟩ := hI.owned.cell y hy
  have hkk : k ≠ k' := by
    rintro rfl
    exact hne (hkx.symm.trans hky)
  have hap := hr.backed.cells_apart hP hr.wf (hr.wf.hasCell hk) (hr.wf.hasCell hk') hkk
  unfold Alloc.Apart
  omega

/-- **Live allocations are exclusive**: disjoint from each other, inside the mapping of one
`mmap` call that is still in place, and apart from everything the allocator keeps for itself. -/
theorem live_exclusive [Platform] (hc : Reachable P c) :
    c.live.Pairwise Alloc.Apart ∧
    (∀ x ∈ c.live, ∃ r ∈ c.state.os.regions, r.base ≤ x.ptr ∧ x.ptr + x.size ≤ r.base + r.len) ∧
    ∀ x ∈ c.live, ∀ a n, c.state.Metadata a n →
      ∀ b, a ≤ b → b < a + n → ¬(x.ptr ≤ b ∧ b < x.ptr + x.size) := by
  obtain ⟨A, hI⟩ := reachable_inv hc
  have hP := hc.1
  have hr := hI.rep
  refine ⟨hI.live_apart hP, fun x hx => ?_, fun x hx a n hm b h1 h2 hin => ?_⟩
  · obtain ⟨k, hk, hkx, hsx⟩ := hI.owned.cell x hx
    obtain ⟨r, hreg, -, h1, h2⟩ := hr.cell_region hP (hr.wf.hasCell hk)
    exact ⟨r, hreg, by omega, by omega⟩
  · obtain ⟨k, hk, hkx, hsx⟩ := hI.owned.cell x hx
    have hpay : A.Payload P b := ⟨k, hr.wf.hasCell hk, by omega, by omega⟩
    exact hr.payload_not_meta hP hpay (hr.metadata_own hP hm b h1 h2)

theorem live_exclusive_sample : ∃ c : Config World, c.live = sampleLive ∧
    c.live.Pairwise Alloc.Apart ∧
    (∀ x ∈ c.live, ∃ r ∈ c.state.os.regions, r.base ≤ x.ptr ∧ x.ptr + x.size ≤ r.base + r.len) ∧
    ∀ x ∈ c.live, ∀ a n, c.state.Metadata a n →
      ∀ b, a ≤ b → b < a + n → ¬(x.ptr ≤ b ∧ b < x.ptr + x.size) := by
  obtain ⟨c, hc, hlive⟩ := reachable_sample
  exact ⟨c, hlive, live_exclusive hc⟩

/-! ## Header words -/

/-- `p` lies in the mapping of the zone `z` of class `c`. -/
def World.FromZone (w : World) (c : Cls) (z p : Nat) : Prop :=
  w.InClass c z ∧ z ≤ p ∧ p < z + w.zoneSize z

/-- `p` lies in the mapping of the large block `b`. -/
def World.FromBlock (w : World) (b p : Nat) : Prop :=
  (b ∈ w.nodes .freeLargeBlocks ∨ b ∈ w.nodes .fullLargeBlocks) ∧ b ≤ p ∧
    p < b + BlockT.sizeof + 8 + ld w.mem 8 (b + BlockT.size)

/-- The word below `p` decodes to the owner of `p`: a pointer into a zone has that zone's flag and
address and the index of its slot, whose bit is clear; a pointer into a large block has the
block's address, and the block is handed out. -/
structure World.HeaderDecodes (w : World) (p : Nat) : Prop where
  owned : (∃ cl z, w.FromZone cl z p) ∨ ∃ b, w.FromBlock b p
  zone : ∀ cl z, w.FromZone cl z p →
    let word := ld w.mem 8 (p - 8)
    metaIsZone word = true ∧ metaZone word = z ∧ w.zoneType z = cl.code ∧
      (metaBlockNum word : Int) < w.numberOfBlocks z ∧
      calculateZoneBlockAddress z (metaBlockNum word) w = some (p, w) ∧
      bit w.mem (w.bitmap z) (metaBlockNum word) = false
  block : ∀ b, w.FromBlock b p →
    let word := ld w.mem 8 (p - 8)
    metaIsZone word = false ∧ word = b ∧ b ∈ w.nodes .fullLargeBlocks ∧ p = b + BlockT.sizeof + 8

/-- A byte is in one node's mapping at most. -/
theorem AHeap.Sound.node_unique {os : Os} {h h' : Head} {x y a : Nat} (hs : A.Sound P os)
    (hx : x ∈ A.lists h) (hy : y ∈ A.lists h') (h1 : x ≤ a) (h2 : a < x + A.len P h x)
    (h3 : y ≤ a) (h4 : a < y + A.len P h' y) : x = y ∧ h = h' := by
  have hxy : x = y := by
    by_contra hne
    have := hs.backed.apart hx hy hne
    omega
  subst hxy
  exact ⟨rfl, hs.ok.once hx hy⟩

/-- The node a cell's pointer lies in, whatever the observer finds. -/
theorem Inv.fromZone (hP : ValidPage P) (hI : Inv P c A) {k : Cell} (hk : A.Holds k)
    (hz : c.state.FromZone cl z (k.addr P)) : ∃ i, k = .slot cl z i := by
  obtain ⟨hz, h1, h2⟩ := hz
  have hzone := hI.rep.inClass_iff.mp hz
  rw [(hI.rep.zone_fields hzone).size] at h2
  obtain ⟨h, hc, hm⟩ := hzone.mem
  obtain ⟨g, hg, h3, h4⟩ := (hI.rep.wf.hasCell hk).node hP
  have hpos := hI.ok.cap_pos hP hk
  rw [← AHeap.len_of_cls (A := A) (x := z) (P := P) hc] at h2
  obtain ⟨hbase, rfl⟩ := hI.sound.node_unique hm hg h1 h2 h3 (by omega)
  cases k with
  | slot c' z' i =>
    obtain rfl : z = z' := hbase
    obtain rfl := hI.rep.wf.cls_unique hzone hk.1
    exact ⟨i, rfl⟩
  | block b =>
    have hb : b ∈ A.lists .fullLargeBlocks := hk
    rw [hI.rep.wf.once hg hb] at hc
    cases hc

theorem Inv.fromBlock (hP : ValidPage P) (hI : Inv P c A) {k : Cell} {b : Nat} (hk : A.Holds k)
    (hb : c.state.FromBlock b (k.addr P)) : k = .block b := by
  obtain ⟨hb, h1, h2⟩ := hb
  rw [hI.rep.nodes_eq, hI.rep.nodes_eq] at hb
  obtain ⟨h, hc, hm⟩ : ∃ h : Head, h.cls = none ∧ b ∈ A.lists h := by
    rcases hb with hb | hb
    · exact ⟨_, rfl, hb⟩
    · exact ⟨_, rfl, hb⟩
  rw [(hI.rep.block hc hm).1.size] at h2
  obtain ⟨g, hg, h3, h4⟩ := (hI.rep.wf.hasCell hk).node hP
  have hpos := hI.ok.cap_pos hP hk
  have h5 : k.addr P < b + A.len P h b := by
    rw [AHeap.len_of_large hc]
    simp only [BlockT.sizeof] at h2
    omega
  obtain ⟨hbase, rfl⟩ := hI.sound.node_unique hm hg h1 h5 h3 (by omega)
  cases k with
  | slot c' z' i =>
    obtain rfl : b = z' := hbase
    obtain ⟨e, he, hm'⟩ := hk.1.mem
    rw [hI.rep.wf.once hm hm', he] at hc
    cases hc
  | block b' => exact congrArg Cell.block hbase.symm

/-- A cell's pointer lies in the mapping of a zone or of a block of the lists. -/
theorem Inv.has_owner (hP : ValidPage P) (hI : Inv P c A) {k : Cell} (hk : A.Holds k) :
    (∃ cl z, c.state.FromZone cl z (k.addr P)) ∨ ∃ b, c.state.FromBlock b (k.addr P) := by
  obtain ⟨g, hg, h3, h4⟩ := (hI.rep.wf.hasCell hk).node hP
  have hpos := hI.ok.cap_pos hP hk
  cases k with
  | slot cl z i =>
    obtain ⟨h, hc, hm⟩ := hk.1.mem
    obtain rfl := hI.rep.wf.once hg hm
    rw [AHeap.len_of_cls hc] at h4
    refine Or.inl ⟨cl, z, hI.rep.inClass_iff.mpr hk.1, h3, ?_⟩
    rw [(hI.rep.zone_fields hk.1).size]
    have : Cell.base (.slot cl z i) = z := rfl
    omega
  | block b =>
    have hb : b ∈ A.lists .fullLargeBlocks := hk
    refine Or.inr ⟨b, Or.inr (by rw [hI.rep.nodes_eq]; exact hb), h3, ?_⟩
    rw [(hI.rep.block rfl hb).1.size]
    change b + 48 < b + 40 + 8 + A.size b
    have : AHeap.cap A (.block b) = A.size b := rfl
    omega

/-- The word below a held cell's pointer decodes to the cell. -/
theorem Inv.decodes (hP : ValidPage P) (hI : Inv P c A) {k : Cell} (hk : A.Holds k) :
    c.state.HeaderDecodes (k.addr P) := by
  have hcell := hI.rep.wf.hasCell hk
  have hword := (hI.rep.header hP hcell).2.2
  refine ⟨hI.has_owner hP hk, fun cl z hz => ?_, fun b hb => ?_⟩
  · obtain ⟨i, rfl⟩ := hI.fromZone hP hk hz
    obtain ⟨hflag, hzone, hnum⟩ := hI.rep.slot_decodes hP hcell
    obtain ⟨hz, r, hslot⟩ := hk
    have hfields := hI.rep.zone_fields hz
    have hi : i < cl.cells P := hcell.2
    have hbits := (hP.layout cl).bits
    simp only
    rw [hword, hnum]
    refine ⟨hflag, hzone, hfields.type, ?_, ?_, ?_⟩
    · rw [hfields.number]
      exact_mod_cast hi
    · exact calculateZoneBlockAddress_run hP hI.rep hz i
    · rw [hfields.bitmap, (hI.rep.zone hz).1.bits i (by omega), hslot]
      rfl
  · obtain rfl := hI.fromBlock hP hk hb
    simp only
    rw [hword]
    refine ⟨hI.rep.block_decodes hcell, rfl, ?_, rfl⟩
    rw [hI.rep.nodes_eq]
    exact hk

/-- **The word below every live pointer decodes to its owner.** -/
theorem header_decodes [Platform] (hc : Reachable P c) :
    ∀ x ∈ c.live, c.state.HeaderDecodes x.ptr := by
  obtain ⟨A, hI⟩ := reachable_inv hc
  intro x hx
  obtain ⟨k, hk, hkx, -⟩ := hI.owned.cell x hx
  rw [← hkx]
  exact hI.decodes hc.1 hk

theorem header_decodes_sample : ∃ c : Config World, c.live = sampleLive ∧
    ∀ x ∈ c.live, c.state.HeaderDecodes x.ptr := by
  obtain ⟨c, hc, hlive⟩ := reachable_sample
  exact ⟨c, hlive, header_decodes hc⟩

/-! ## The zone lists -/

/-- The free slots of a zone are the set bits of its bitmap. -/
theorem ZoneRep.popcount_eq {m : Mem} {slots : List (Option Nat)} (hL : cl.Layout P)
    (hz : ZoneRep P m cl z slots) (hlen : slots.length = cl.cells P) :
    popcount m (z + 72) (cl.cells P) = slots.countP (·.isNone) := by
  have hbits := hL.bits
  have hrange : slots = (List.range slots.length).map fun i => slots.getD i none := by
    apply List.ext_getElem
    · simp
    · intro i h1 h2
      simp [List.getD_eq_getElem?_getD, h1]
  conv_rhs => rw [hrange, List.countP_map]
  unfold popcount
  rw [hlen]
  refine List.countP_congr fun i hi => ?_
  have hlt := List.mem_range.mp hi
  rw [hz.bits i (by omega)]
  obtain ⟨o, ho⟩ : ∃ o, slots[i]? = some o := ⟨_, List.getElem?_eq_getElem (by omega)⟩
  simp [List.getD_eq_getElem?_getD, ho]

/-- The four zone lists of a state, and what their zones hold. -/
structure World.ZonesSound (w : World) : Prop where
  /-- Each list is doubly linked from its head, with NULL at both ends. -/
  linked : ∀ cl : Cls, zoneNode.IsList w.mem (w.heap.get cl.freeHead) (w.nodes cl.freeHead) ∧
    zoneNode.IsList w.mem (w.heap.get cl.fullHead) (w.nodes cl.fullHead)
  /-- No zone occurs twice. -/
  once : (w.nodes .freeTinyZones ++ w.nodes .fullTinyZones ++ w.nodes .freeSmallZones ++
    w.nodes .fullSmallZones).Nodup
  /-- A zone's type is that of its lists. -/
  type : ∀ cl z, w.InClass cl z → w.zoneType z = cl.code
  /-- The counter is the number of set bits of existing slots. -/
  counted : ∀ cl z, w.InClass cl z →
    w.freeCount z = popcount w.mem (w.bitmap z) (w.numberOfBlocks z).toNat
  /-- The rest of the last bitmap byte is clear. -/
  padded : ∀ cl z, w.InClass cl z → ∀ i : Nat, w.numberOfBlocks z ≤ i →
    i < 8 * w.bitmapLen z → bit w.mem (w.bitmap z) i = false
  /-- A zone on a free list has a free slot. -/
  free : ∀ cl : Cls, ∀ z ∈ w.nodes cl.freeHead, 1 ≤ w.freeCount z
  /-- A zone on a full list has none. -/
  full : ∀ cl : Cls, ∀ z ∈ w.nodes cl.fullHead, w.freeCount z = 0

/-- Two lists have no node in common. -/
theorem AHeap.Wf.disjoint (hw : A.Wf P) {h h' : Head} (hne : h ≠ h') :
    List.Disjoint (A.lists h) (A.lists h') :=
  fun _ hx hx' => hne (hw.once hx hx')

/-- **The zone lists of every reachable configuration are sound.** -/
theorem zone_lists_sound [Platform] (hc : Reachable P c) : c.state.ZonesSound := by
  obtain ⟨A, hI⟩ := reachable_inv hc
  have hP := hc.1
  have hr := hI.rep
  have hnode := hr.nodes_eq
  refine ⟨fun cl => ?_, ?_, fun cl z hz => ?_, fun cl z hz => ?_, fun cl z hz i h1 h2 => ?_,
    fun cl z hz => ?_, fun cl z hz => ?_⟩
  · have hf := hr.lists cl.freeHead
    have hg := hr.lists cl.fullHead
    rw [Cls.node_eq cl.cls_freeHead] at hf
    rw [Cls.node_eq cl.cls_fullHead] at hg
    rw [hnode, hnode]
    exact ⟨hf, hg⟩
  · simp only [hnode]
    have hd := fun {h h' : Head} (hne : h ≠ h') => hr.wf.disjoint hne
    refine List.Nodup.append (List.Nodup.append (List.Nodup.append (hr.wf.nodup _) (hr.wf.nodup _)
      (hd (by decide))) (hr.wf.nodup _) ?_) (hr.wf.nodup _) ?_
    · exact List.disjoint_append_left.mpr ⟨hd (by decide), hd (by decide)⟩
    · exact List.disjoint_append_left.mpr
        ⟨List.disjoint_append_left.mpr ⟨hd (by decide), hd (by decide)⟩, hd (by decide)⟩
  · exact (hr.zone_fields (hr.inClass_iff.mp hz)).type
  · have hzone := hr.inClass_iff.mp hz
    have hf := hr.zone_fields hzone
    have hzr := (hr.zone hzone).1
    rw [hf.bitmap, hf.number, Int.toNat_natCast,
      hzr.popcount_eq (hP.layout cl) (hr.wf.cells hzone)]
    exact hzr.count
  · have hzone := hr.inClass_iff.mp hz
    have hf := hr.zone_fields hzone
    rw [hf.number] at h1
    rw [hf.bytes] at h2
    rw [hf.bitmap, (hr.zone hzone).1.bits i h2, decide_eq_false_iff_not,
      List.getElem?_eq_none (by rw [hr.wf.cells hzone]; exact_mod_cast h1)]
    exact fun h => by cases h
  · rw [hnode] at hz
    have hpos := hI.ok.hasFree hz
    have hcount := (hr.count_bounds hP (Or.inl hz)).1
    unfold World.freeCount
    omega
  · rw [hnode] at hz
    have hcount := (hr.count_bounds hP (Or.inr hz)).1
    rw [hI.ok.noFree hz] at hcount
    exact hcount

theorem zone_lists_sound_sample : ∃ c : Config World, c.live = sampleLive ∧
    c.state.ZonesSound := by
  obtain ⟨c, hc, hlive⟩ := reachable_sample
  exact ⟨c, hlive, zone_lists_sound hc⟩

end FtMalloc
