import FtMalloc.Abstract.Shape
import FtMalloc.Lib.Bitmap
import FtMalloc.Source.List

/-!
# The representation of the abstract heap in memory

`Rep P w A` says that the world `w` represents the abstract heap `A`: the six heads of
`global_heap` point at doubly linked lists of `A`'s nodes (`IsList`), every zone has its fields,
bitmap, `requested_sizes` and header words (`ZoneRep`), every large block its size and header
word (`BlockRep`), and every node its mapping (`Backed`).

A node owns bytes of its mapping (`OwnByte`): a zone everything up to its slots and the header
word of each slot, a block its first 48 bytes. The payload of the cells (`Payload`) is the rest
of what a node's mapping is used for.

Results:
* `own_lt`, `payload_not_own`: the bytes a node owns lie in its mapping, outside all payload.
* `Rep.frame`: `Rep` survives any change outside the owned bytes, in particular a client's
  writes to its allocations.
* `cells_apart`: distinct cells have disjoint payload.
-/

namespace FtMalloc

open Lib

/-- The links of a list's nodes: `zone_t` and `block_t` have `next` and `prev` at different
offsets. -/
def Head.node (h : Head) : NodeLayout :=
  match h.cls with
  | some _ => zoneNode
  | none => blockNode

/-! ## Nodes in memory -/

/-- The header word of slot `i` of the zone `z`, eight bytes before its payload. -/
def Cls.headerAddr (P : Nat) (c : Cls) (z i : Nat) : Nat := z + c.dataOff P + i * (8 + c.size)

/-- The memory of a zone: its fields, its bitmap (bit set = slot free), the requested sizes and
the header words. -/
structure ZoneRep (P : Nat) (m : Mem) (c : Cls) (z : Nat) (slots : List (Option Nat)) : Prop where
  base : ld m 8 (z + ZoneT.base) = z
  type : ldInt m (z + ZoneT.type) = c.code
  blocks : ldInt m (z + ZoneT.numberOfBlocks) = c.cells P
  zoneSize : ld m 8 (z + ZoneT.zoneSize) = c.total P
  sizesAt : ld m 8 (z + ZoneT.requestedSizes) = z + 72 + c.bitmapLen P
  bitmapAt : ld m 8 (z + ZoneT.bitmap) = z + 72
  memoryAt : ld m 8 (z + ZoneT.memory) = z + c.dataOff P + 8
  count : ldInt m (z + ZoneT.freeCount) = (slots.countP (·.isNone) : Nat)
  bits : ∀ i, i < 8 * c.bitmapLen P → bit m (z + 72) i = decide (slots[i]? = some none)
  sizes : ∀ i r, slots[i]? = some (some r) → ld m 8 (z + 72 + c.bitmapLen P + 8 * i) = r
  headers : ∀ i, i < c.cells P → ld m 8 (c.headerAddr P z i) = metaPack z i

/-- The memory of a large block: its size, its type and the word in front of its payload, which is
its own address. -/
structure BlockRep (m : Mem) (b s : Nat) : Prop where
  size : ld m 8 (b + BlockT.size) = s
  type : ldInt m (b + BlockT.type) = largeBlock
  header : ld m 8 (b + BlockT.sizeof) = b

/-- The memory of a node of the list `h`, a zone or a large block by the list's class. -/
def NodeRep (P : Nat) (m : Mem) (A : AHeap) (h : Head) (x : Nat) : Prop :=
  match h.cls with
  | some c => ZoneRep P m c x (A.slots x)
  | none => BlockRep m x (A.size x)

/-- **`w` represents `A`**: the heads, the links and the memory of every node say what `A` says, and
the nodes are mapped as the allocator mapped them. -/
structure Rep (P : Nat) (w : World) (A : AHeap) : Prop where
  page : w.os.pageSize = P
  flag : w.heap.initialized = if A.initialized then 1 else 0
  wf : A.Wf P
  backed : A.Backed P w.os
  lists : ∀ h : Head, h.node.IsList w.mem (w.heap.get h) (A.lists h)
  nodes : ∀ (h : Head) (x : Nat), x ∈ A.lists h → NodeRep P w.mem A h x

/-! ## Whose byte it is -/

/-- A byte the allocator keeps for itself in the node `x` of the list `h`: the fields, the bitmap
and the requested sizes of a zone and its header words, or the first 48 bytes of a large block. -/
def OwnByte (P : Nat) (h : Head) (x a : Nat) : Prop :=
  match h.cls with
  | some c => x ≤ a ∧ a < x + c.dataOff P ∨
      ∃ i, i < c.cells P ∧ c.headerAddr P x i ≤ a ∧ a < c.headerAddr P x i + 8
  | none => x ≤ a ∧ a < x + 48

/-- A byte of some node's own: the heap's metadata in memory. -/
def AHeap.Meta (P : Nat) (A : AHeap) (a : Nat) : Prop := ∃ h x, x ∈ A.lists h ∧ OwnByte P h x a

/-- A byte of some cell's payload, whether the cell is held or free. -/
def AHeap.Payload (P : Nat) (A : AHeap) (a : Nat) : Prop :=
  ∃ k, A.HasCell P k ∧ k.addr P ≤ a ∧ a < k.addr P + A.cap k

/-- From `w`, which represents `A`, the function `x` returns `v` in a world that represents `r.1`
over the system `r.2`, and no byte of `A`'s payload has changed. -/
abbrev Refines {α : Type} (P : Nat) (w : World) (A : AHeap) (x : C α) (v : α)
    (r : AHeap × Os) : Prop :=
  ∃ w', x w = some (v, w') ∧ w'.os = r.2 ∧ Rep P w' r.1 ∧ Agrees w.mem w'.mem (A.Payload P)

variable {P : Nat} {w : World} {m m' : Mem} {A : AHeap} {h h' : Head} {x y z i j a b s : Nat}
  {c : Cls} {slots : List (Option Nat)}

theorem Cls.node_eq {h : Head} (hc : h.cls = some c) : h.node = zoneNode := by
  unfold Head.node
  rw [hc]

theorem Head.node_large {h : Head} (hc : h.cls = none) : h.node = blockNode := by
  unfold Head.node
  rw [hc]

/-- Slots lie one after the other, a header word and a payload each. -/
theorem stride_lt (hij : i < j) : i * (8 + c.size) + (8 + c.size) ≤ j * (8 + c.size) := by
  have h := Nat.mul_le_mul_right (8 + c.size) hij
  rwa [Nat.succ_mul] at h

/-- A slot lies inside its zone, with its header word. -/
theorem Cls.Layout.slot_le (hL : c.Layout P) (hi : i < c.cells P) :
    c.headerAddr P z i + 8 + c.size ≤ z + c.total P := by
  have h1 := stride_lt (c := c) hi
  have h2 := hL.room
  unfold Cls.headerAddr
  omega

theorem Cls.slotAddr_eq : c.slotAddr P z i = c.headerAddr P z i + 8 := by
  unfold Cls.slotAddr Cls.headerAddr
  omega

theorem ownByte_zone (hc : h.cls = some c) : OwnByte P h x a ↔ x ≤ a ∧ a < x + c.dataOff P ∨
    ∃ i, i < c.cells P ∧ c.headerAddr P x i ≤ a ∧ a < c.headerAddr P x i + 8 := by
  unfold OwnByte
  rw [hc]

theorem ownByte_block (hc : h.cls = none) : OwnByte P h x a ↔ x ≤ a ∧ a < x + 48 := by
  unfold OwnByte
  rw [hc]

/-- The link words are the node's own, so a change of links is one of metadata. -/
theorem own_of_link (hP : ValidPage P) (hl : h.node.LinkByte x a) : OwnByte P h x a := by
  cases hc : h.cls with
  | some c =>
    rw [Cls.node_eq hc] at hl
    rw [ownByte_zone hc]
    have hL := hP.layout c
    have := hL.header
    simp only [NodeLayout.LinkByte, zoneNode, ZoneT.next, ZoneT.prev] at hl
    omega
  | none =>
    rw [Head.node_large hc] at hl
    rw [ownByte_block hc]
    simp only [NodeLayout.LinkByte, blockNode, BlockT.next, BlockT.prev] at hl
    omega

/-- What a node owns lies in its mapping, from its first byte on. -/
theorem own_lt (hP : ValidPage P) (ho : OwnByte P h x a) : x ≤ a ∧ a < x + A.len P h x := by
  cases hc : h.cls with
  | some c =>
    rw [ownByte_zone hc] at ho
    rw [AHeap.len_of_cls hc]
    have hL := hP.layout c
    have hroom := hL.room
    rcases ho with ho | ⟨i, hi, ho⟩
    · omega
    · have h1 := hL.slot_le (z := x) hi
      have h2 : x ≤ c.headerAddr P x i := by
        unfold Cls.headerAddr
        omega
      omega
  | none =>
    rw [ownByte_block hc] at ho
    rw [AHeap.len_of_large hc]
    omega

/-! ## Nodes and their mappings -/

/-- Where a node lies: at a page boundary, not at NULL, and all of it mapped. -/
structure NodeAt (w : World) (x n : Nat) : Prop where
  ne_zero : x ≠ 0
  aligned : x % 4096 = 0
  end_le : x + n ≤ 2 ^ 64
  mapped : ∀ {a k}, x ≤ a → a + k ≤ x + n → w.os.Mapped a k

theorem Os.Ok.nodeAt {n : Nat} (ok : w.os.Ok) (hr : ⟨x, n⟩ ∈ w.os.regions) : NodeAt w x n := by
  obtain ⟨-, h0, hal, hlim⟩ := ok.legal _ hr
  have hle := ok.le_limit ⟨x, n⟩
  simp only at h0 hal hle
  exact ⟨h0, hal, by omega, fun h1 h2 => Os.mapped_of_region hr h1 (by omega)⟩

theorem Rep.nodeAt (hr : Rep P w A) (hx : x ∈ A.lists h) : NodeAt w x (A.len P h x) :=
  hr.backed.system.nodeAt (hr.backed.region hx)

/-- The memory of a zone and its place, on whichever of the two lists of its class it is. -/
theorem Rep.zone (hr : Rep P w A) (hz : A.HasZone c z) :
    ZoneRep P w.mem c z (A.slots z) ∧ NodeAt w z (c.total P) := by
  obtain ⟨h, hc, hm⟩ := hz.mem
  have hn := hr.nodes h z hm
  have hat := hr.nodeAt hm
  unfold NodeRep at hn
  rw [hc] at hn
  rw [AHeap.len_of_cls hc] at hat
  exact ⟨hn, hat⟩

/-- The memory of a block and its place: the mapping is 48 bytes longer than the size. -/
theorem Rep.block (hr : Rep P w A) (hc : h.cls = none) (hb : b ∈ A.lists h) :
    BlockRep w.mem b (A.size b) ∧ NodeAt w b (48 + A.size b) := by
  have hn := hr.nodes h b hb
  have hat := hr.nodeAt hb
  unfold NodeRep at hn
  rw [hc] at hn
  rw [AHeap.len_of_large hc] at hat
  exact ⟨hn, hat⟩

/-- Distinct nodes have disjoint mappings, also on different lists: the kernel grants fresh
regions. -/
theorem AHeap.Backed.apart {os : Os} (hb : A.Backed P os) (hx : x ∈ A.lists h)
    (hy : y ∈ A.lists h') (hne : x ≠ y) :
    x + A.len P h x ≤ y ∨ y + A.len P h' y ≤ x := by
  have hap := hb.system.apart _ (hb.region hx) _ (hb.region hy) fun e =>
    hne (congrArg Region.base e)
  have h1 := hb.system.le_limit ⟨x, A.len P h x⟩
  have h2 := hb.system.le_limit ⟨y, A.len P h' y⟩
  simp only at hap h1 h2
  omega

theorem node_size_le (hP : ValidPage P) : h.node.size ≤ A.len P h x := by
  cases hc : h.cls with
  | some c =>
    rw [Cls.node_eq hc, AHeap.len_of_cls hc]
    have hL := hP.layout c
    have h1 := hL.room
    have h2 := hL.header
    simp only [zoneNode, ZoneT.sizeof]
    omega
  | none =>
    rw [Head.node_large hc, AHeap.len_of_large hc]
    simp only [blockNode, BlockT.sizeof]
    omega

/-- The headers of distinct nodes of a list do not overlap, which the list library asks of its
nodes. -/
theorem AHeap.Backed.node_apart {os : Os} (hP : ValidPage P) (hb : A.Backed P os)
    (hx : x ∈ A.lists h) (hy : y ∈ A.lists h) (hne : x ≠ y) : h.node.Apart x y := by
  have h1 := hb.apart hx hy hne
  have h2 := node_size_le (A := A) (h := h) (x := x) hP
  have h3 := node_size_le (A := A) (h := h) (x := y) hP
  unfold NodeLayout.Apart
  omega

/-- A byte is one node's at most, so a store into one node leaves every other as it is. -/
theorem AHeap.Backed.own_unique {os : Os} (hP : ValidPage P) (hb : A.Backed P os)
    (hx : x ∈ A.lists h) (hy : y ∈ A.lists h') (hox : OwnByte P h x a)
    (hoy : OwnByte P h' y a) : x = y := by
  by_contra hne
  have h1 := hb.apart hx hy hne
  have h2 := own_lt (A := A) hP hox
  have h3 := own_lt (A := A) hP hoy
  omega

/-! ## Frames -/

theorem ZoneRep.congr (hL : c.Layout P) (hz : ZoneRep P m c z slots)
    (he : ∀ a, (z ≤ a ∧ a < z + c.dataOff P ∨
      ∃ i, i < c.cells P ∧ c.headerAddr P z i ≤ a ∧ a < c.headerAddr P z i + 8) →
      ¬zoneNode.LinkByte z a → m' a = m a)
    (hlen : slots.length = c.cells P) : ZoneRep P m' c z slots := by
  have hhd := hL.header
  have hbits := hL.bits
  -- the fields lie below the links, the arrays above them
  have hlow : ∀ a, z ≤ a → a < z + 56 → m' a = m a := fun a h1 h2 => by
    refine he a (Or.inl ⟨h1, by omega⟩) fun hl => ?_
    simp only [NodeLayout.LinkByte, zoneNode, ZoneT.next, ZoneT.prev] at hl
    omega
  have hhigh : ∀ a, z + 72 ≤ a → a < z + c.dataOff P → m' a = m a := fun a h1 h2 => by
    refine he a (Or.inl ⟨by omega, h2⟩) fun hl => ?_
    simp only [NodeLayout.LinkByte, zoneNode, ZoneT.next, ZoneT.prev] at hl
    omega
  have hword : ∀ o, o + 8 ≤ 56 → ld m' 8 (z + o) = ld m 8 (z + o) := fun o ho =>
    ld_congr fun a h1 h2 => hlow a (by omega) (by omega)
  have hint : ∀ o, o + 4 ≤ 56 → ldInt m' (z + o) = ldInt m (z + o) := fun o ho =>
    ldInt_congr fun a h1 h2 => hlow a (by omega) (by omega)
  refine ⟨(hword _ (by decide)).trans hz.base, (hint _ (by decide)).trans hz.type,
    (hint _ (by decide)).trans hz.blocks, (hword _ (by decide)).trans hz.zoneSize,
    (hword _ (by decide)).trans hz.sizesAt, (hword _ (by decide)).trans hz.bitmapAt,
    (hword _ (by decide)).trans hz.memoryAt, (hint _ (by decide)).trans hz.count, ?_, ?_, ?_⟩
  · intro i hi
    rw [← hz.bits i hi]
    exact bit_congr (hhigh _ (by omega) (by omega))
  · intro i r hr
    have hi : i < slots.length := (List.getElem?_eq_some_iff.mp hr).1
    rw [← hz.sizes i r hr]
    exact ld_congr fun a h1 h2 => hhigh a (by omega) (by omega)
  · intro i hi
    rw [← hz.headers i hi]
    refine ld_congr fun a h1 h2 => he a (Or.inr ⟨i, hi, h1, h2⟩) fun hl => ?_
    simp only [NodeLayout.LinkByte, zoneNode, ZoneT.next, ZoneT.prev] at hl
    unfold Cls.headerAddr at h1
    omega

theorem BlockRep.congr (hb : BlockRep m b s)
    (he : ∀ a, b ≤ a → a < b + 48 → ¬blockNode.LinkByte b a → m' a = m a) : BlockRep m' b s := by
  have hedge : ∀ o k a, (o + k ≤ 24 ∨ 40 ≤ o ∧ o + k ≤ 48) → b + o ≤ a → a < b + o + k →
      m' a = m a := by
    intro o k a ho h1 h2
    refine he a (by omega) (by omega) fun hl => ?_
    simp only [NodeLayout.LinkByte, blockNode, BlockT.next, BlockT.prev] at hl
    omega
  refine ⟨(ld_congr fun a => hedge _ 8 a (by decide)).trans hb.size,
    (ldInt_congr fun a => hedge _ 4 a (by decide)).trans hb.type,
    (ld_congr fun a => hedge _ 8 a (by decide)).trans hb.header⟩

/-- A node's memory depends on what it owns, the links apart, which belong to the list. -/
theorem NodeRep.congr (hP : ValidPage P) (hn : NodeRep P m A h x)
    (hlen : ∀ c, h.cls = some c → (A.slots x).length = c.cells P)
    (he : ∀ a, OwnByte P h x a → ¬h.node.LinkByte x a → m' a = m a) : NodeRep P m' A h x := by
  unfold NodeRep at *
  cases hc : h.cls with
  | some c =>
    simp only [hc] at hn ⊢
    simp only [ownByte_zone hc, Cls.node_eq hc] at he
    exact hn.congr (hP.layout c) he (hlen c hc)
  | none =>
    simp only [hc] at hn ⊢
    simp only [ownByte_block hc, Head.node_large hc] at he
    exact hn.congr fun a h1 h2 => he a ⟨h1, h2⟩

/-- **`Rep` depends on the owned bytes only**: any other byte may change, and the world represents
the same heap. -/
theorem Rep.frame (hP : ValidPage P) (hr : Rep P w A) (he : Agrees w.mem m' (A.Meta P)) :
    Rep P (w.setMem m') A where
  page := hr.page
  flag := hr.flag
  wf := hr.wf
  backed := hr.backed
  lists := fun h => (hr.lists h).frame fun x hx a hl => he a ⟨h, x, hx, own_of_link hP hl⟩
  nodes := fun h x hx => (hr.nodes h x hx).congr hP
    (fun _ hc => hr.wf.cells (AHeap.hasZone_of_mem hc hx)) fun a ho _ => he a ⟨h, x, hx, ho⟩

/-! ## Payload -/

/-- The node a cell belongs to: the zone of a slot, or the block itself. -/
def Cell.base : Cell → Nat
  | slot _ z _ => z
  | block b => b

/-- A cell belongs to a node, and its payload lies in that node's mapping. -/
theorem AHeap.HasCell.node (hP : ValidPage P) {k : Cell} (hk : A.HasCell P k) :
    ∃ h, k.base ∈ A.lists h ∧ k.base ≤ k.addr P ∧
      k.addr P + A.cap k ≤ k.base + A.len P h k.base := by
  cases k with
  | slot c z i =>
    obtain ⟨hz, hi⟩ := hk
    obtain ⟨h, hc, hm⟩ := hz.mem
    have h1 := (hP.layout c).slot_le (z := z) hi
    refine ⟨h, hm, ?_, ?_⟩
    · simp only [Cell.base, Cell.addr, Cls.slotAddr]
      omega
    · rw [AHeap.len_of_cls hc]
      simp only [Cell.base, Cell.addr, AHeap.cap, Cls.slotAddr_eq]
      omega
  | block b =>
    obtain ⟨h, hc, hm⟩ := hk
    refine ⟨h, hm, ?_, ?_⟩
    · simp only [Cell.base, Cell.addr]
      omega
    · rw [AHeap.len_of_large hc]
      simp only [Cell.base, Cell.addr, AHeap.cap]
      omega

/-- **Payload is nobody's own byte**, neither of the node it lies in nor of another. -/
theorem AHeap.Backed.payload_not_own {os : Os} (hP : ValidPage P) (hw : A.Wf P)
    (hb : A.Backed P os) {k : Cell} (hk : A.HasCell P k) (h1 : k.addr P ≤ a)
    (h2 : a < k.addr P + A.cap k) (hx : x ∈ A.lists h) : ¬OwnByte P h x a := by
  intro ho
  obtain ⟨g, hm, h3, h4⟩ := hk.node hP
  by_cases hne : k.base = x
  · subst hne
    obtain rfl := hw.once hm hx
    cases k with
    | slot c z i =>
      obtain ⟨hz, hi⟩ := hk
      obtain ⟨g', hc', hm'⟩ := hz.mem
      obtain rfl := hw.once hm hm'
      rw [ownByte_zone hc'] at ho
      simp only [Cell.addr, Cls.slotAddr_eq, AHeap.cap, Cell.base, Cls.headerAddr] at h1 h2 ho
      rcases ho with ho | ⟨j, hj, ho⟩
      · omega
      · rcases Nat.lt_trichotomy i j with hij | rfl | hij
        · have := stride_lt (c := c) hij
          omega
        · omega
        · have := stride_lt (c := c) hij
          omega
    | block b =>
      obtain ⟨g', hc', hm'⟩ := hk
      obtain rfl := hw.once hm hm'
      rw [ownByte_block hc'] at ho
      simp only [Cell.addr, Cell.base] at h1 ho
      omega
  · have h5 := hb.apart hm hx hne
    have h6 := own_lt (A := A) hP ho
    omega

theorem Rep.payload_not_meta (hP : ValidPage P) (hr : Rep P w A) (hp : A.Payload P a) :
    ¬A.Meta P a := by
  rintro ⟨h, x, hx, ho⟩
  obtain ⟨k, hk, h1, h2⟩ := hp
  exact hr.backed.payload_not_own hP hr.wf hk h1 h2 hx ho

/-- A byte of some node's mapping, own or payload. -/
def AHeap.InNode (P : Nat) (A : AHeap) (a : Nat) : Prop :=
  ∃ h x, x ∈ A.lists h ∧ x ≤ a ∧ a < x + A.len P h x

theorem AHeap.Meta.inNode (hP : ValidPage P) (ha : A.Meta P a) : A.InNode P a := by
  obtain ⟨h, x, hx, ho⟩ := ha
  exact ⟨h, x, hx, own_lt hP ho⟩

theorem AHeap.Payload.inNode (hP : ValidPage P) (ha : A.Payload P a) : A.InNode P a := by
  obtain ⟨k, hk, h1, h2⟩ := ha
  obtain ⟨h, hm, h3, h4⟩ := hk.node hP
  exact ⟨h, k.base, hm, by omega, by omega⟩

/-- **A granted region holds no byte of a node**: every node's mapping is still in place, and the
kernel grants none twice. -/
theorem AHeap.Backed.outside {os : Os} {n : Nat} (hb : A.Backed P os) (hr : os.reply n = some b)
    (ha : A.InNode P a) : a < b ∨ os.limit ⟨b, n⟩ ≤ a := by
  obtain ⟨h, x, hx, h1, h2⟩ := ha
  obtain ⟨-, -, -, -, hap⟩ := Os.reply_grants hr
  have hreg := hap _ (hb.region hx)
  have hlim := hb.system.le_limit ⟨x, A.len P h x⟩
  simp only at hreg hlim
  omega

/-- **Distinct cells have disjoint payload**: slots of one zone lie one after the other, and the
rest is in different mappings. -/
theorem AHeap.Backed.cells_apart {os : Os} (hP : ValidPage P) (hw : A.Wf P) (hb : A.Backed P os)
    {k k' : Cell} (hk : A.HasCell P k) (hk' : A.HasCell P k') (hne : k ≠ k') :
    k.addr P + A.cap k ≤ k'.addr P ∨ k'.addr P + A.cap k' ≤ k.addr P := by
  obtain ⟨g, hm, h1, h2⟩ := hk.node hP
  obtain ⟨g', hm', h3, h4⟩ := hk'.node hP
  by_cases hbase : k.base = k'.base
  · cases k with
    | slot c z i =>
      cases k' with
      | slot c' z' j =>
        obtain rfl : z = z' := hbase
        obtain rfl := hw.cls_unique hk.1 hk'.1
        have hij : i ≠ j := by
          rintro rfl
          exact hne rfl
        simp only [Cell.addr, Cls.slotAddr, AHeap.cap]
        rcases Nat.lt_or_gt_of_ne hij with hlt | hlt
        · have := stride_lt (c := c) hlt
          omega
        · have := stride_lt (c := c) hlt
          omega
      | block b =>
        obtain ⟨e, he, hbm⟩ := hk'
        obtain ⟨e', he', hzm⟩ := hk.1.mem
        obtain rfl : z = b := hbase
        rw [hw.once hbm hzm, he'] at he
        cases he
    | block b =>
      cases k' with
      | slot c' z' j =>
        obtain ⟨e, he, hbm⟩ := hk
        obtain ⟨e', he', hzm⟩ := hk'.1.mem
        obtain rfl : b = z' := hbase
        rw [hw.once hbm hzm, he'] at he
        cases he
      | block b' => exact absurd (congrArg Cell.block hbase) hne
  · have := hb.apart hm hm' hbase
    omega

/-- A cell has room for at least one byte, so its pointer tells it from the others. -/
theorem AHeap.Backed.addr_inj {os : Os} (hP : ValidPage P) (hw : A.Wf P) (hb : A.Backed P os)
    {k k' : Cell} (hk : A.HasCell P k) (hk' : A.HasCell P k') (h0 : 0 < A.cap k)
    (h0' : 0 < A.cap k') (he : k.addr P = k'.addr P) : k = k' := by
  by_contra hne
  have := hb.cells_apart hP hw hk hk' hne
  omega

end FtMalloc
