import FtMalloc.Lib.Confined
import FtMalloc.Refine.Rep

/-!
# The list operations on a represented heap

`detach` and `addBack` at a list of the heap are `AHeap.detach` and `AHeap.append`:
`Rep.detach_writes`, `Rep.append_writes`, and for the two in a row `Rep.move_writes`. Each changes
link words of that list's nodes only (`Links`), so that every other list, every zone and every block
is represented as before.

The memory after each is a function of the memory before and the abstract lists: `detachMem`,
`appendMem` and `moveMem`. `Writes` says this of a run, on top of `Refines`.
-/

namespace FtMalloc

open Lib

/-- A byte of a link word, `next` or `prev`, of some node of the list `h`. -/
def AHeap.Links (A : AHeap) (h : Head) (a : Nat) : Prop := ∃ x ∈ A.lists h, h.node.LinkByte x a

/-- What `detach` does to memory: the links of the neighbours skip the node, and its own become NULL
(`list.c:43-57`). -/
def AHeap.detachMem (A : AHeap) (x : Nat) (h : Head) : Mem → Mem := h.node.cut (A.lists h) x

/-- What `addBack` does to memory: the links of the last node and of the new one (`list.c:3-21`). -/
def AHeap.appendMem (A : AHeap) (x : Nat) (h : Head) : Mem → Mem := h.node.join (A.lists h) x

/-- What the two in a row do to memory, for a node that changes lists. -/
def AHeap.moveMem (A : AHeap) (x : Nat) (h h' : Head) (m : Mem) : Mem :=
  (A.detach x h).appendMem x h' (A.detachMem x h m)

/-- `Refines`, and memory is changed by `f`: from `w`, which represents `A`, the function
returns `v` in a world that represents the heap `r.1` over the system `r.2`, with every payload
byte kept. -/
abbrev Writes {α : Type} (P : Nat) (w : World) (A : AHeap) (x : C α) (v : α) (r : AHeap × Os)
    (f : Mem → Mem) : Prop :=
  ∃ w', x w = some (v, w') ∧ w'.os = r.2 ∧ Rep P w' r.1 ∧ Agrees w.mem w'.mem (A.Payload P) ∧
    w'.mem = f w.mem

theorem Writes.refines {α : Type} {P : Nat} {w : World} {A : AHeap} {x : C α} {v : α}
    {r : AHeap × Os} {f : Mem → Mem} (h : Writes P w A x v r f) : Refines P w A x v r := by
  obtain ⟨w', hrun, hos, hr, hag, -⟩ := h
  exact ⟨w', hrun, hos, hr, hag⟩

variable {P : Nat} {w : World} {m m' : Mem} {A : AHeap} {g h h' : Head} {x y a : Nat} {c : Cls}

theorem AHeap.Links.isMeta (hP : ValidPage P) (hl : A.Links h a) : A.Meta P a := by
  obtain ⟨x, hx, hl⟩ := hl
  exact ⟨h, x, hx, own_of_link hP hl⟩

/-- A change of the links of one list touches no other list and no node's data. -/
theorem AHeap.Backed.link_frame {os : Os} (hP : ValidPage P) (hw : A.Wf P) (hb : A.Backed P os)
    (he : Agrees m m' fun a => ¬A.Links h a) (hx : x ∈ A.lists g) (ho : OwnByte P g x a)
    (hn : g ≠ h ∨ ¬g.node.LinkByte x a) : m' a = m a := by
  refine he a ?_
  rintro ⟨y, hy, hl⟩
  obtain rfl := hb.own_unique hP hx hy ho (own_of_link hP hl)
  obtain rfl := hw.once hx hy
  rcases hn with hn | hn
  · exact hn rfl
  · exact hn hl

/-- What the list operations need of the nodes of a list: both link words can be read and
written. -/
theorem Rep.link_mapped (hP : ValidPage P) (hr : Rep P w A) (hx : x ∈ A.lists h) :
    w.os.Mapped (x + h.node.next) 8 ∧ w.os.Mapped (x + h.node.prev) 8 := by
  have hat := hr.nodeAt hx
  have hs := node_size_le (A := A) (h := h) (x := x) hP
  have h1 := h.node.next_le
  have h2 := h.node.prev_le
  exact ⟨hat.mapped (by omega) (by omega), hat.mapped (by omega) (by omega)⟩

theorem Rep.pairwise_apart (hP : ValidPage P) (hr : Rep P w A) :
    (A.lists h).Pairwise h.node.Apart :=
  (hr.wf.nodup h).imp_of_mem fun hx hy hne => hr.backed.node_apart hP hx hy hne

/-- There are no more nodes than mappings, which bounds the walk of the two `add_back` functions. -/
theorem AHeap.Backed.length_le {os : Os} (hw : A.Wf P) (hb : A.Backed P os) :
    (A.lists h).length ≤ os.regions.length := by
  have hnd : ((A.lists h).map fun x => (⟨x, A.len P h x⟩ : Region)).Nodup :=
    (hw.nodup h).map fun x y e => congrArg Region.base e
  have hsub : ((A.lists h).map fun x => (⟨x, A.len P h x⟩ : Region)) ⊆ os.regions := by
    intro r hr
    obtain ⟨x, hx, rfl⟩ := List.mem_map.mp hr
    exact hb.region hx
  have hle := List.Nodup.length_le_of_subset hnd hsub
  rwa [List.length_map] at hle

/-- **A list is relinked**: the stores are to links of its nodes, in it before or after, and its
head may be assigned. `B` holds the nodes of both. -/
theorem Rep.relink {A' B : AHeap} {hp : Heap} (hP : ValidPage P) (hr : Rep P w A) (hw' : A'.Wf P)
    (hb' : A'.Backed P w.os) (hw : B.Wf P) (hb : B.Backed P w.os)
    (hflag : A'.initialized = A.initialized) (hinit : hp.initialized = w.heap.initialized)
    (hother : ∀ g, g ≠ h → A'.lists g = A.lists g ∧ hp.get g = w.heap.get g)
    (hsub : ∀ {g y}, y ∈ A'.lists g → y ∈ B.lists g)
    (hn : ∀ g y, y ∈ A'.lists g → NodeRep P w.mem A' g y)
    (hframe : Agrees w.mem m' fun a => ¬B.Links h a)
    (hlist : h.node.IsList m' (hp.get h) (A'.lists h)) :
    Rep P { w with mem := m', heap := hp } A' where
  page := hr.page
  flag := by
    rw [hflag]
    exact hinit.trans hr.flag
  wf := hw'
  backed := hb'
  lists := by
    intro g
    by_cases hg : g = h
    · subst hg
      exact hlist
    · obtain ⟨hl, hget⟩ := hother g hg
      rw [hl, show ({ w with mem := m', heap := hp } : World).heap.get g = _ from hget]
      refine (hr.lists g).frame fun y hy a ha => ?_
      exact hb.link_frame hP hw hframe (hsub (hl.symm ▸ hy)) (own_of_link hP ha) (Or.inl hg)
  nodes := fun g y hy =>
    (hn g y hy).congr hP (fun _ hc => hw'.cells (AHeap.hasZone_of_mem hc hy))
      fun _ ho hnl => hb.link_frame hP hw hframe (hsub hy) ho (Or.inr hnl)

/-! ## Taking a node out -/

/-- **`detach`** (`list.c:43-57, 59-73`) takes a node out of its list and leaves its data, so that
it can be unmapped or appended elsewhere. -/
theorem Rep.detach_writes (hP : ValidPage P) (hr : Rep P w A) (hx : x ∈ A.lists h) :
    ∃ w', FtMalloc.detach h.node h x w = some ((), w') ∧ w'.os = w.os ∧
      Rep P w' (A.detach x h) ∧ NodeRep P w'.mem A h x ∧
      (Agrees w.mem w'.mem fun a => ¬A.Meta P a) ∧ w'.mem = A.detachMem x h w.mem := by
  obtain ⟨ys, zs, hsplit⟩ := List.append_of_mem hx
  have hl := hr.lists h
  have hsep := hr.pairwise_apart (h := h) hP
  rw [hsplit] at hl hsep
  have hys : ∀ y ∈ ys, y ∈ A.lists h := fun y hy => by
    rw [hsplit]
    exact List.mem_append_left _ hy
  have hzs : ∀ z ∈ zs, z ∈ A.lists h := fun z hz => by
    rw [hsplit]
    exact List.mem_append_right _ (List.mem_cons_of_mem _ hz)
  obtain ⟨hn, hp⟩ := hr.link_mapped hP hx
  have hrun : FtMalloc.detach h.node h x w = _ := detach_run (hr.nodeAt hx).ne_zero hn hp
    (fun h0 => ⟨(hr.link_mapped hP (hys _ (hl.prevOf_mem h0))).1,
      (List.pairwise_append.mp hsep).2.2 _ (hl.prevOf_mem h0) _ List.mem_cons_self⟩)
    fun h0 => (hr.link_mapped hP (hzs _ (hl.nextOf_mem h0))).2
  have hframe : Agrees w.mem (h.node.unlink w.mem x) fun a => ¬A.Links h a := by
    refine NodeLayout.unlink_agrees.mono fun a ha => ⟨fun hb => ha ⟨x, hx, hb⟩, ?_, ?_⟩
    · exact fun h0 hb => ha ⟨_, hys _ (hl.prevOf_mem h0), hb⟩
    · exact fun h0 hb => ha ⟨_, hzs _ (hl.nextOf_mem h0), hb⟩
  have hnx : x ∉ ys := by
    have hnd := hr.wf.nodup h
    rw [hsplit] at hnd
    exact fun hmem => (List.nodup_append.mp hnd).2.2 x hmem x List.mem_cons_self rfl
  have hlist : (A.detach x h).lists h = ys ++ zs := by
    rw [AHeap.lists_detach, if_pos rfl, hsplit, List.erase_append_right _ hnx, List.erase_cons_head]
  have hkeep : NodeRep P (h.node.unlink w.mem x) A h x :=
    (hr.nodes h x hx).congr hP (fun _ hc => hr.wf.cells (AHeap.hasZone_of_mem hc hx))
      fun a ho hnl => hr.backed.link_frame hP hr.wf hframe hx ho (Or.inr hnl)
  refine ⟨_, hrun, rfl, ?_, hkeep, hframe.mono fun a ha hb => ha (hb.isMeta hP),
    (hr.lists h).unlink_eq_cut hx (hr.wf.nodup h)⟩
  refine hr.relink hP hr.wf.detach (hr.backed.detach hr.wf) hr.wf hr.backed rfl ?_
    (fun g hg => ⟨?_, ?_⟩) (fun hy => (hr.wf.mem_detach.mp hy).1)
    (fun g y hy => hr.nodes g y (hr.wf.mem_detach.mp hy).1) hframe ?_
  · split
    · exact Heap.initialized_set _ _ _
    · rfl
  · rw [AHeap.lists_detach, if_neg hg]
  · split
    · rw [Heap.get_set, if_neg hg]
    · rfl
  · rw [hlist]
    have hres := NodeLayout.isList_unlink hl hsep
    split at hres
    · rename_i h0
      rw [if_pos h0, Heap.get_set, if_pos rfl]
      exact hres
    · rename_i h0
      rw [if_neg h0]
      exact hres

/-! ## Appending a node -/

/-- **`addBack`** (`list.c:3-21, 23-41`) appends a mapped node with its data in place, after a walk
to the last node. -/
theorem Rep.append_writes (hP : ValidPage P) (hr : Rep P w A) (hf : A.Fresh x)
    (hreg : ⟨x, A.len P h x⟩ ∈ w.os.regions) (hn : NodeRep P w.mem A h x)
    (hlen : ∀ c, h.cls = some c → (A.slots x).length = c.cells P) :
    ∃ w', addBack h.node h x w = some ((), w') ∧ w'.os = w.os ∧ Rep P w' (A.append x h) ∧
      (Agrees w.mem w'.mem fun a => ¬(A.append x h).Meta P a) ∧
      w'.mem = A.appendMem x h w.mem := by
  have hw' : (A.append x h).Wf P := hr.wf.append hf hlen
  have hb' : (A.append x h).Backed P w.os := hr.backed.append hreg
  have hx' : x ∈ (A.append x h).lists h := AHeap.mem_append.mpr (Or.inr ⟨rfl, rfl⟩)
  have hold : ∀ {g y}, y ∈ A.lists g → y ∈ (A.append x h).lists g :=
    fun hy => AHeap.mem_append.mpr (Or.inl hy)
  have hnodes : ∀ (g : Head) (y : Nat), y ∈ (A.append x h).lists g → NodeRep P w.mem A g y := by
    intro g y hy
    rcases AHeap.mem_append.mp hy with hy | ⟨rfl, rfl⟩
    · exact hr.nodes g y hy
    · exact hn
  have hat : NodeAt w x (A.len P h x) := hr.backed.system.nodeAt hreg
  have hsize := node_size_le (A := A) (h := h) (x := x) hP
  have hnext := h.node.next_le
  have hprev := h.node.prev_le
  have hmn : w.os.Mapped (x + h.node.next) 8 := hat.mapped (by omega) (by omega)
  have hmp : w.os.Mapped (x + h.node.prev) 8 := hat.mapped (by omega) (by omega)
  -- the world the stores leave, whatever they are, represents the longer list
  have hfin : ∀ {m' : Mem} {hp : Heap}, (∀ g, g ≠ h → hp.get g = w.heap.get g) →
      hp.initialized = w.heap.initialized →
      Agrees w.mem m' (fun a => ¬(A.append x h).Links h a) →
      h.node.IsList m' (hp.get h) (A.lists h ++ [x]) →
      Rep P { w with mem := m', heap := hp } (A.append x h) := by
    intro m' hp hget hinit hframe hlist
    refine hr.relink hP hw' hb' hw' hb' rfl hinit (fun g hg => ⟨?_, hget g hg⟩) id hnodes hframe ?_
    · rw [AHeap.lists_append, if_neg hg]
    · rw [AHeap.lists_append, if_pos rfl]
      exact hlist
  by_cases hnil : A.lists h = []
  · have h0 : w.heap.get h = 0 := (hr.lists h).head_eq_zero_iff.mpr hnil
    have hframe : Agrees w.mem (h.node.linkOnly w.mem x) fun a => ¬(A.append x h).Links h a :=
      NodeLayout.linkOnly_agrees.mono fun a ha hb => ha ⟨x, hx', hb⟩
    have hmem : h.node.linkOnly w.mem x = A.appendMem x h w.mem := by
      unfold AHeap.appendMem
      rw [hnil]
      rfl
    refine ⟨_, addBack_within.trans (addBackWithin_nil_run hat.ne_zero hmn hmp h0), rfl, ?_,
      hframe.mono fun a ha hb => ha (hb.isMeta hP), hmem⟩
    refine hfin (fun g hg => ?_) (Heap.initialized_set _ _ _) hframe ?_
    · rw [Heap.get_set, if_neg hg]
    · rw [Heap.get_set, if_pos rfl, hnil]
      exact NodeLayout.isList_linkOnly hat.ne_zero
  · obtain ⟨q, hs⟩ := hr.lists h
    have hq := (hs.last hnil).1
    have hap : ∀ y ∈ A.lists h, h.node.Apart x y := fun y hy =>
      hb'.node_apart hP hx' (hold hy) (fun e => hf h (e ▸ hy))
    have hv : ∀ {y n}, 0 < n → NodeAt w y n → y < 256 ^ 8 := by
      intro y n hpos hn
      have h8 : 256 ^ 8 = 2 ^ 64 := by decide
      have := hn.end_le
      omega
    have hpos : ∀ y, 0 < A.len P h y := fun y => by
      have := node_size_le (A := A) (h := h) (x := y) hP
      omega
    have hframe : Agrees w.mem (h.node.linkBack w.mem q x) fun a => ¬(A.append x h).Links h a :=
      NodeLayout.linkBack_agrees.mono fun a ha =>
        ⟨fun hb => ha ⟨x, hx', hb⟩, fun hb => ha ⟨q, hold hq, hb⟩⟩
    have hrun := addBackWithin_run hat.ne_zero hmn hmp hs hnil (hr.backed.length_le hr.wf)
      (fun y hy => (hr.link_mapped hP hy).1) hap
    refine ⟨_, addBack_within.trans hrun, rfl, ?_,
      hframe.mono fun a ha hb => ha (hb.isMeta hP), NodeLayout.linkBack_eq_join hs hnil⟩
    exact hfin (fun g _ => rfl) rfl hframe (NodeLayout.isList_linkBack hs hnil
      (hr.pairwise_apart hP) hap hat.ne_zero (hv (hpos x) hat) (hv (hpos q) (hr.nodeAt hq)))

/-! ## Moving a node -/

theorem ownByte_of_cls (hc : h'.cls = h.cls) : OwnByte P h' x a ↔ OwnByte P h x a := by
  unfold OwnByte
  rw [hc]

theorem nodeRep_of_cls (hc : h'.cls = h.cls) : NodeRep P m A h' x ↔ NodeRep P m A h x := by
  unfold NodeRep
  rw [hc]

theorem AHeap.meta_move (hw : A.Wf P) (hx : x ∈ A.lists h) (hc : h'.cls = h.cls)
    (hm : (A.move x h h').Meta P a) : A.Meta P a := by
  obtain ⟨g, y, hy, ho⟩ := hm
  rcases (hw.mem_move hx).mp hy with ⟨-, hy⟩ | ⟨rfl, rfl⟩
  · exact ⟨g, y, hy, ho⟩
  · exact ⟨h, y, hx, (ownByte_of_cls hc).mp ho⟩

/-- **Moving a node** to the end of another list of its kind: a zone that fills up or is no longer
full, a large block that is taken or given back. -/
theorem Rep.move_writes (hP : ValidPage P) (hr : Rep P w A) (hx : x ∈ A.lists h)
    (hc : h'.cls = h.cls) :
    ∃ w₁ w', FtMalloc.detach h.node h x w = some ((), w₁) ∧
      addBack h'.node h' x w₁ = some ((), w') ∧ w'.os = w.os ∧ Rep P w' (A.move x h h') ∧
      (Agrees w.mem w'.mem fun a => ¬A.Meta P a) ∧ w'.mem = A.moveMem x h h' w.mem := by
  obtain ⟨w₁, hrun, hos, hr₁, hn, hfr, hmem⟩ := hr.detach_writes hP hx
  have hreg : ⟨x, (A.detach x h).len P h' x⟩ ∈ w₁.os.regions := by
    have := hr.backed.region hx
    rwa [← AHeap.len_eq_of_cls hc, ← hos] at this
  obtain ⟨w', hrun', hos', hr', hfr', hmem'⟩ := hr₁.append_writes hP (hr.wf.fresh_detach hx) hreg
    ((nodeRep_of_cls (A := A.detach x h) hc).mpr hn)
    fun c hc' => hr.wf.cells (AHeap.hasZone_of_mem (hc.symm.trans hc') hx)
  refine ⟨w₁, w', hrun, hrun', hos'.trans hos, hr',
    hfr.trans (hfr'.mono fun a ha hm => ha ?_), ?_⟩
  · exact AHeap.meta_move hr.wf hx hc hm
  · rw [hmem', hmem]
    rfl

end FtMalloc
