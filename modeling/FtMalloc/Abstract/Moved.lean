import FtMalloc.Abstract.Calls
import Mathlib.Data.List.Find

/-!
# The same heap at other addresses

`A.Moved ρ B`: the heap `B` is `A` with every node `x` at `ρ x`. `os.Moved ρ os'` says the same of
the mappings, and that the kernel granted and refused the same calls. The operations do the same to
both heaps and return the same cells, as long as the kernel goes on to grant and refuse the same
calls; what it was asked for is the same too.

A new mapping is at one address here and at another one there, so `ρ` grows with each of them
(`Follows`). Addresses are used again after an `munmap`: `ρ` says where the mappings are now.

Results: `malloc_moved`, `free_moved`, `realloc_moved`.
-/

namespace FtMalloc

open AHeap

/-! ## Outcomes -/

/-- Whether the calls of `mmap` were granted, latest first: all that a heap may depend on besides
the calls it gets. -/
def Os.outcomes (os : Os) : List Bool := os.log.filterMap fun
  | .mmap _ result => some result.isSome
  | .munmap _ _ => none

/-- The outcomes so far do not differ: those of one system are the first of the other's. -/
def Os.Agree (os os' : Os) : Prop := os.outcomes <:+ os'.outcomes ∨ os'.outcomes <:+ os.outcomes

variable {P : Nat} {A B : AHeap} {os os' f f' : Os} {ρ ρ' ρ'' : Nat → Nat} {n x y z i b b' s : Nat}
  {h h' : Head} {c : Cls} {o : Option Nat} {k : Cell} {g : Region}

theorem Os.Since.outcomes (hs : os.Since f) : os.outcomes <:+ f.outcomes := by
  obtain ⟨calls, hl⟩ := hs
  unfold Os.outcomes
  rw [hl, List.filterMap_append]
  exact List.suffix_append _ _

/-- What agrees agreed before, as logs only grow. -/
theorem Os.Agree.before (ha : f.Agree f') (hs : os.Since f) (hs' : os'.Since f') :
    os.Agree os' := by
  rcases ha with ha | ha
  · exact List.suffix_or_suffix_of_suffix (hs.outcomes.trans ha) hs'.outcomes
  · exact List.suffix_or_suffix_of_suffix hs.outcomes (hs'.outcomes.trans ha)

theorem Os.outcomes_mmap (os : Os) (n : Nat) :
    (os.mmap n).outcomes = (os.reply n).isSome :: os.outcomes := rfl

/-- A mapping stays while nothing is unmapped, whatever else is mapped. -/
theorem Os.MapsOnly.mem (hm : os.MapsOnly f) (hg : g ∈ os.regions) : g ∈ f.regions := by
  induction hm with
  | refl => exact hg
  | mmap n _ ih => exact Os.mem_mmap ih

/-- A call after the same outcomes has the same outcome. -/
theorem Os.Agree.reply (ha : (os.mmap n).Agree (os'.mmap n)) (he : os'.outcomes = os.outcomes) :
    (os'.reply n).isSome = (os.reply n).isSome := by
  have heq : (os'.mmap n).outcomes = (os.mmap n).outcomes := by
    have hlen : (os.mmap n).outcomes.length = (os'.mmap n).outcomes.length := by
      rw [Os.outcomes_mmap, Os.outcomes_mmap, List.length_cons, List.length_cons, he]
    rcases ha with ha | ha
    · exact (ha.eq_of_length hlen).symm
    · exact ha.eq_of_length hlen.symm
  rw [Os.outcomes_mmap, Os.outcomes_mmap] at heq
  exact (List.cons.inj heq).1

/-! ## Mappings -/

/-- Renaming and erasing, in either order, where nothing else gets the name. -/
theorem map_erase_of_inj {α β : Type} [DecidableEq α] [DecidableEq β] {r : α → β} {l : List α}
    {a : α} (h : ∀ x ∈ l, r x = r a → x = a) : (l.erase a).map r = (l.map r).erase (r a) := by
  induction l with
  | nil => rfl
  | cons x l ih =>
    have hrest := ih fun y hy => h y (List.mem_cons_of_mem _ hy)
    by_cases hx : x = a
    · rw [hx, List.erase_cons_head, List.map_cons, List.erase_cons_head]
    · have hne : r x ≠ r a := fun e => hx (h x List.mem_cons_self e)
      rw [List.erase_cons_tail (by simpa using hx), List.map_cons, List.map_cons,
        List.erase_cons_tail (by simpa using hne), hrest]

/-- A mapping at its other address. -/
def Region.moved (ρ : Nat → Nat) (g : Region) : Region := ⟨ρ g.base, g.len⟩

/-- The same mappings at other addresses, after the same outcomes: `ρ` renames their bases. -/
structure Os.Moved (ρ : Nat → Nat) (os os' : Os) : Prop where
  regions : os'.regions = os.regions.map (Region.moved ρ)
  outcomes : os'.outcomes = os.outcomes

/-- Where a new mapping is, on either side; all others are where they were. -/
def place (ρ : Nat → Nat) (b b' : Nat) : Nat → Nat := Function.update ρ b b'

/-- The other mappings are where they were when `ρ` gets a place for a new one. -/
theorem place_region (ok : os.Ok) (hr : os.reply n = some b) (hg : g ∈ os.regions) :
    place ρ b b' g.base = ρ g.base := Function.update_of_ne (ok.not_mem hr g hg) _ _

namespace Os.Moved

/-- **A call of `mmap`** has the same outcome in both systems, and a granted mapping gets a place on
either side. -/
theorem mmap (hm : os.Moved ρ os') (ok : os.Ok) (ha : (os.mmap n).Agree (os'.mmap n)) :
    (os.reply n = none ∧ os'.reply n = none ∧ (os.mmap n).Moved ρ (os'.mmap n)) ∨
      ∃ b b', os.reply n = some b ∧ os'.reply n = some b' ∧
        (os.mmap n).Moved (place ρ b b') (os'.mmap n) := by
  have hsame := ha.reply hm.outcomes
  have hout : (os'.mmap n).outcomes = (os.mmap n).outcomes := by
    rw [Os.outcomes_mmap, Os.outcomes_mmap, hsame, hm.outcomes]
  cases hr : os.reply n with
  | none =>
    have hr' : os'.reply n = none := by simpa [hr] using hsame
    refine Or.inl ⟨rfl, hr', ?_, hout⟩
    rw [mmap_refused hr, mmap_refused hr', hm.regions]
  | some b =>
    obtain ⟨b', hr'⟩ := Option.isSome_iff_exists.mp (hsame.trans (by rw [hr]; rfl))
    refine Or.inr ⟨b, b', rfl, hr', ?_, hout⟩
    have hnew : Region.moved (place ρ b b') ⟨b, n⟩ = ⟨b', n⟩ := by
      simp [Region.moved, place]
    have hold : os.regions.map (Region.moved (place ρ b b')) = os.regions.map (Region.moved ρ) :=
      List.map_congr_left fun g hg => by simp only [Region.moved, place_region ok hr hg]
    rw [mmap_granted hr, mmap_granted hr', List.map_cons, hnew, hold, hm.regions]

/-- An `munmap` of the same mapping keeps the others in step. -/
theorem munmap (hm : os.Moved ρ os') (ok : os'.Ok) (hg : g ∈ os.regions) :
    (os.munmap g).Moved ρ (os'.munmap (g.moved ρ)) := by
  have hinj := List.inj_on_of_nodup_map (hm.regions ▸ ok.nodup)
  refine ⟨?_, hm.outcomes⟩
  change os'.regions.erase (g.moved ρ) = (os.regions.erase g).map (Region.moved ρ)
  rw [hm.regions]
  exact (map_erase_of_inj fun x hx => hinj hx hg).symm

end Os.Moved

/-! ## Nodes -/

/-- The cell at its other address. -/
def Cell.moved (ρ : Nat → Nat) : Cell → Cell
  | .slot c z i => .slot c (ρ z) i
  | .block b => .block (ρ b)

namespace AHeap

/-- The same heap with its nodes at other addresses: the lists in the same order, with the same
slots and sizes. -/
structure Moved (ρ : Nat → Nat) (A B : AHeap) : Prop where
  flag : B.initialized = A.initialized
  lists : ∀ h, B.lists h = (A.lists h).map ρ
  slots : ∀ {c z}, A.HasZone c z → B.slots (ρ z) = A.slots z
  size : ∀ {h x}, h.cls = none → x ∈ A.lists h → B.size (ρ x) = A.size x

namespace Moved

theorem mem (hm : A.Moved ρ B) (hx : x ∈ A.lists h) : ρ x ∈ B.lists h := by
  rw [hm.lists]
  exact List.mem_map_of_mem hx

theorem hasZone (hm : A.Moved ρ B) (hz : A.HasZone c z) : B.HasZone c (ρ z) := hz.imp hm.mem hm.mem

/-- Nodes have addresses of their own, also after the renaming. -/
theorem inj (hm : A.Moved ρ B) (hw : B.Wf P) (hx : x ∈ A.lists h) (hy : y ∈ A.lists h')
    (he : ρ x = ρ y) : x = y := by
  have hx' := hm.mem hx
  have hy' := hm.mem hy
  rw [← he] at hy'
  obtain rfl := hw.once hx' hy'
  exact List.inj_on_of_nodup_map (hm.lists h ▸ hw.nodup h) hx hy he

theorem freeCount (hm : A.Moved ρ B) (hz : A.HasZone c z) : B.freeCount (ρ z) = A.freeCount z := by
  unfold AHeap.freeCount
  rw [hm.slots hz]

theorem holds (hm : A.Moved ρ B) (hk : A.Holds k) : B.Holds (k.moved ρ) := by
  cases k with
  | slot c z i =>
    obtain ⟨hz, r, hr⟩ := hk
    exact ⟨hm.hasZone hz, r, (congrArg (·[i]?) (hm.slots hz)).trans hr⟩
  | block b => exact hm.mem hk

/-- Held cells stay apart. -/
theorem moved_inj {k' : Cell} (hm : A.Moved ρ B) (hw : B.Wf P) (hk : A.Holds k) (hk' : A.Holds k')
    (he : k.moved ρ = k'.moved ρ) : k = k' := by
  cases k with
  | slot c z i =>
    cases k' with
    | slot c' z' i' =>
      obtain ⟨rfl, hz, rfl⟩ := Cell.slot.inj he
      obtain ⟨h, -, hmem⟩ := hk.1.mem
      obtain ⟨h', -, hmem'⟩ := hk'.1.mem
      rw [hm.inj hw hmem hmem' hz]
    | block b' => cases he
  | block b =>
    cases k' with
    | slot c' z' i' => cases he
    | block b' => rw [hm.inj hw hk hk' (Cell.block.inj he)]

theorem cap (hm : A.Moved ρ B) (hk : A.Holds k) : B.cap (k.moved ρ) = A.cap k := by
  cases k with
  | slot c z i => rfl
  | block b => exact hm.size rfl hk

/-! ### The updates -/

theorem init (hm : A.Moved ρ B) : A.init.Moved ρ B.init := ⟨rfl, hm.lists, hm.slots, hm.size⟩

theorem setSlot (hm : A.Moved ρ B) (hw : B.Wf P) (hz : A.HasZone c z) :
    (A.setSlot z i o).Moved ρ (B.setSlot (ρ z) i o) := by
  refine ⟨hm.flag, hm.lists, fun {c' y} hy => ?_, hm.size⟩
  rw [slots_setSlot, slots_setSlot]
  by_cases hyz : y = z
  · subst hyz
    rw [if_pos rfl, if_pos rfl, hm.slots hz]
  · obtain ⟨h, -, hmem⟩ := hz.mem
    obtain ⟨h', -, hmem'⟩ := HasZone.mem hy
    have hne : ρ y ≠ ρ z := fun e => hyz (hm.inj hw hmem' hmem e)
    rw [if_neg hyz, if_neg hne]
    exact hm.slots hy

theorem detach (hm : A.Moved ρ B) (hA : A.Wf P) (hw : B.Wf P) (hx : x ∈ A.lists h') :
    (A.detach x h).Moved ρ (B.detach (ρ x) h) := by
  refine ⟨hm.flag, fun g => ?_, fun {c z} hz => ?_, fun {g y} hc hy => ?_⟩
  · rw [lists_detach, lists_detach]
    split
    · rw [hm.lists]
      exact (map_erase_of_inj fun y hy he => hm.inj hw hy hx he).symm
    · exact hm.lists g
  · obtain ⟨g, hg, hmem⟩ := hz.mem
    exact hm.slots (hasZone_of_mem hg (hA.mem_detach.mp hmem).1)
  · exact hm.size hc (hA.mem_detach.mp hy).1

/-- A node that looks the same in both heaps is appended to the same list of both. -/
theorem append (hm : A.Moved ρ B) (hslots : ∀ c, h.cls = some c → B.slots (ρ x) = A.slots x)
    (hsize : h.cls = none → B.size (ρ x) = A.size x) :
    (A.append x h).Moved ρ (B.append (ρ x) h) := by
  refine ⟨hm.flag, fun h' => ?_, fun {c z} hz => ?_, fun {h' y} hc hy => ?_⟩
  · rw [lists_append, lists_append]
    split
    · rw [hm.lists, List.map_append, List.map_singleton]
    · exact hm.lists h'
  · obtain ⟨g, hg, hmem⟩ := hz.mem
    rcases mem_append.mp hmem with hmem | ⟨rfl, rfl⟩
    · exact hm.slots (hasZone_of_mem hg hmem)
    · exact hslots c hg
  · rcases mem_append.mp hy with hy | ⟨rfl, rfl⟩
    · exact hm.size hc hy
    · exact hsize hc

theorem move (hm : A.Moved ρ B) (hA : A.Wf P) (hw : B.Wf P) (hx : x ∈ A.lists h)
    (hc : h'.cls = h.cls) : (A.move x h h').Moved ρ (B.move (ρ x) h h') := by
  refine (hm.detach hA hw hx).append (fun c hc' => ?_) fun hc' => ?_
  · exact hm.slots (hasZone_of_mem (hc ▸ hc') hx)
  · exact hm.size (hc ▸ hc') hx

/-- Places for new mappings do not matter to the nodes that are there. -/
theorem place (hm : A.Moved ρ B) (hf : A.Fresh b) (b' : Nat) : A.Moved (place ρ b b') B := by
  have hold : ∀ {h x}, x ∈ A.lists h → FtMalloc.place ρ b b' x = ρ x := fun hx =>
    Function.update_of_ne (hf.ne_of_mem hx) _ _
  refine ⟨hm.flag, fun h => ?_, fun {c z} hz => ?_, fun {h x} hc hx => ?_⟩
  · rw [hm.lists]
    exact List.map_congr_left fun x hx => (hold hx).symm
  · obtain ⟨h, -, hmem⟩ := hz.mem
    rw [hold hmem]
    exact hm.slots hz
  · rw [hold hx]
    exact hm.size hc hx

/-- A new zone on both sides, at the place its mapping got. -/
theorem addZone (hm : A.Moved ρ B) (hf : A.Fresh b) (hf' : B.Fresh b') :
    (A.addZone P c b).Moved (FtMalloc.place ρ b b') (B.addZone P c b') := by
  have hplace : FtMalloc.place ρ b b' b = b' := Function.update_self _ _ _
  have hp := hm.place hf b'
  have hslots : ∀ {c' z}, A.HasZone c' z → (B.addZone P c b').slots (FtMalloc.place ρ b b' z) =
      (A.addZone P c b).slots z := by
    intro c' z hz
    obtain ⟨h, -, hmem⟩ := HasZone.mem hz
    rw [slots_addZone, slots_addZone, if_neg (hf.ne_of_mem hmem),
      if_neg (hf'.ne_of_mem (hp.mem hmem))]
    exact hp.slots hz
  have hnew : (B.addZone P c b').slots b' = (A.addZone P c b).slots b := by
    rw [slots_addZone, slots_addZone, if_pos rfl, if_pos rfl]
  refine ⟨hp.flag, fun h => ?_, fun {c' z} hz => ?_, fun {h x} hc hx => ?_⟩
  · unfold AHeap.addZone
    rw [lists_append, lists_append]
    split
    · rw [List.map_append, List.map_singleton, hplace]
      exact congrArg (· ++ [b']) (hp.lists _)
    · exact hp.lists h
  · rcases hasZone_addZone.mp hz with hz | ⟨rfl, rfl⟩
    · exact hslots hz
    · rw [hplace]
      exact hnew
  · rcases mem_addZone.mp hx with hx | ⟨rfl, rfl⟩
    · exact hp.size hc hx
    · cases c <;> cases hc

/-- A new large block on both sides, at the place its mapping got. -/
theorem addBlock (hm : A.Moved ρ B) (hf : A.Fresh b) (hf' : B.Fresh b') :
    (A.addBlock b s).Moved (FtMalloc.place ρ b b') (B.addBlock b' s) := by
  have hplace : FtMalloc.place ρ b b' b = b' := Function.update_self _ _ _
  have hp := hm.place hf b'
  refine ⟨hp.flag, fun h => ?_, fun {c' z} hz => ?_, fun {h x} hc hx => ?_⟩
  · unfold AHeap.addBlock
    rw [lists_append, lists_append]
    split
    · rw [List.map_append, List.map_singleton, hplace]
      exact congrArg (· ++ [b']) (hp.lists _)
    · exact hp.lists h
  · exact hp.slots (hasZone_addBlock.mp hz)
  · rw [size_addBlock, size_addBlock]
    rcases mem_addBlock.mp hx with hx | ⟨rfl, rfl⟩
    · rw [if_neg (hf.ne_of_mem hx), if_neg (hf'.ne_of_mem (hp.mem hx))]
      exact hp.size hc hx
    · rw [hplace, if_pos rfl, if_pos rfl]

/-- Both heaps take the same cached block: the search looks at sizes and order, not at addresses. -/
theorem fit (hm : A.Moved ρ B) (s : Nat) : B.fit s = (A.fit s).map ρ := by
  unfold AHeap.fit
  rw [hm.lists, List.find?_map]
  refine congrArg (Option.map ρ) (List.find?_congr fun x hx => ?_)
  simp only [Function.comp_apply, hm.size rfl hx]

theorem leastFree (hm : A.Moved ρ B) (hz : A.HasZone c z) :
    B.leastFree (ρ z) = A.leastFree z := by
  unfold AHeap.leastFree
  rw [hm.slots hz]

end Moved

/-! ## Allocation -/

/-- Both sides went the same way from a state with the mappings of `os`: what was mapped is where it
was, and what was mapped since has a place. -/
structure Follows (ρ : Nat → Nat) (os : Os) (r r' : AHeap × Os) (ρ' : Nat → Nat) : Prop where
  same : ∀ g ∈ os.regions, ρ' g.base = ρ g.base
  heap : r.1.Moved ρ' r'.1
  system : r.2.Moved ρ' r'.2

/-- One way after another, the first of which keeps every mapping. -/
theorem Follows.trans {r r' q q' : AHeap × Os} (h : Follows ρ os r r' ρ')
    (h' : Follows ρ' r.2 q q' ρ'') (hsub : ∀ g ∈ os.regions, g ∈ r.2.regions) :
    Follows ρ os q q' ρ'' :=
  ⟨fun g hg => (h'.same g (hsub g hg)).trans (h.same g hg), h'.heap, h'.system⟩

theorem createZone_backed (hb : A.Backed P os) :
    (A.createZone P os c).2.1.Backed P (A.createZone P os c).2.2 := by
  unfold createZone
  cases hr : os.reply (c.total P) with
  | none => exact hb.mmap
  | some b => exact hb.addZone hr

theorem createZone_os : (A.createZone P os c).2.2 = os.mmap (c.total P) := by
  unfold createZone
  cases os.reply (c.total P) <;> rfl

theorem createZone_since_setup :
    (A.createZone P os .tiny).2.2.Since (A.setup P os).2.2 := by
  unfold setup
  generalize A.createZone P os .tiny = r
  cases hr : r.1 with
  | false =>
    simp only [hr, Bool.false_eq_true, if_false]
    exact Os.Since.refl _
  | true =>
    have hsince : r.2.2.Since (r.2.1.createZone P r.2.2 .small).2.2 := createZone_mapsOnly.since
    simp only [hr, if_true]
    split
    · exact hsince
    · exact hsince

section Pair

variable (hA : A.Backed P os) (hB : B.Backed P os') (hm : A.Moved ρ B) (ho : os.Moved ρ os')
include hA hB hm ho

theorem createZone_moved
    (ha : (A.createZone P os c).2.2.Agree (B.createZone P os' c).2.2) :
    (B.createZone P os' c).1 = (A.createZone P os c).1 ∧
      ∃ ρ', Follows ρ os (A.createZone P os c).2 (B.createZone P os' c).2 ρ' := by
  rw [createZone_os, createZone_os] at ha
  unfold createZone
  rcases ho.mmap hA.system ha with ⟨hr, hr', ho'⟩ | ⟨b, b', hr, hr', ho'⟩
  · rw [hr, hr']
    exact ⟨rfl, ρ, fun _ _ => rfl, hm, ho'⟩
  · rw [hr, hr']
    refine ⟨rfl, place ρ b b', fun g hg => place_region hA.system hr hg, ?_, ho'⟩
    exact hm.addZone (hA.fresh hr) (hB.fresh hr')

theorem setup_moved (ha : (A.setup P os).2.2.Agree (B.setup P os').2.2) :
    (B.setup P os').1 = (A.setup P os).1 ∧
      ∃ ρ', Follows ρ os (A.setup P os).2 (B.setup P os').2 ρ' := by
  obtain ⟨hres, ρ₁, h₁⟩ := createZone_moved (c := .tiny) hA hB hm ho
    (ha.before createZone_since_setup createZone_since_setup)
  have hA₁ := createZone_backed (c := .tiny) hA
  have hB₁ := createZone_backed (c := .tiny) hB
  have hsub : ∀ g ∈ os.regions, g ∈ (A.createZone P os .tiny).2.2.regions := fun g hg =>
    createZone_mapsOnly.mem hg
  unfold setup at ha ⊢
  generalize A.createZone P os .tiny = r at *
  generalize B.createZone P os' .tiny = r' at *
  cases hr : r.1 with
  | false =>
    simp only [hres, hr, Bool.false_eq_true, if_false]
    exact ⟨trivial, ρ₁, h₁⟩
  | true =>
    simp only [hres, hr, if_true] at ha ⊢
    have ha₂ : (r.2.1.createZone P r.2.2 .small).2.2.Agree
        (r'.2.1.createZone P r'.2.2 .small).2.2 := by
      split at ha <;> split at ha <;> exact ha
    obtain ⟨hres₂, ρ₂, h₂⟩ := createZone_moved (c := .small) hA₁ hB₁ h₁.heap h₁.system ha₂
    generalize r.2.1.createZone P r.2.2 .small = q at *
    generalize r'.2.1.createZone P r'.2.2 .small = q' at *
    cases hq : q.1 with
    | false =>
      simp only [hres₂, hq, Bool.false_eq_true, if_false]
      exact ⟨trivial, ρ₂, h₁.trans h₂ hsub⟩
    | true =>
      simp only [hres₂, hq, if_true]
      exact ⟨trivial, ρ₂, (h₁.trans h₂ hsub).same, h₂.heap.init, h₂.system⟩

theorem ready_moved (ha : (A.ready P os).2.2.Agree (B.ready P os').2.2) :
    (B.ready P os').1 = (A.ready P os).1 ∧
      ∃ ρ', Follows ρ os (A.ready P os).2 (B.ready P os').2 ρ' := by
  unfold ready at ha ⊢
  rw [hm.flag] at ha ⊢
  split
  · exact ⟨rfl, ρ, fun _ _ => rfl, hm, ho⟩
  · rename_i hi
    rw [if_neg hi, if_neg hi] at ha
    exact setup_moved hA hB hm ho ha

end Pair

/-- NULL, or the two pointers of a held cell: what two clients in step may pass. -/
inductive Pointer (P : Nat) (A : AHeap) (ρ : Nat → Nat) : Nat → Nat → Prop
  | nil : Pointer P A ρ null null
  | cell {k : Cell} : A.Holds k → Pointer P A ρ (k.addr P) ((k.moved ρ).addr P)

/-- Both sides of an allocation on `A` went the same way and return NULL or the pointers of the same
new cell. -/
structure Grants (P : Nat) (A : AHeap) (ρ : Nat → Nat) (os : Os) (r r' : Nat × AHeap × Os)
    (ρ' : Nat → Nat) : Prop extends Follows ρ os r.2 r'.2 ρ' where
  result : r.1 = null ∧ r'.1 = null ∨
    ∃ k, ¬A.Holds k ∧ r.2.1.Holds k ∧ r.1 = k.addr P ∧ r'.1 = (k.moved ρ').addr P

theorem Grants.pointer {r r' : Nat × AHeap × Os} (h : Grants P A ρ os r r' ρ') :
    Pointer P r.2.1 ρ' r.1 r'.1 := by
  rcases h.result with ⟨h0, h0'⟩ | ⟨k, -, hk, hq, hq'⟩
  · rw [h0, h0']
    exact Pointer.nil
  · rw [hq, hq']
    exact Pointer.cell hk

/-- The node of a zone is where its mapping is, before and after. -/
theorem Follows.zone {r r' : AHeap × Os} (h : Follows ρ os r r' ρ') (hb : A.Backed P os)
    (hz : A.HasZone c z) : ρ' z = ρ z := by
  obtain ⟨g, -, hmem⟩ := hz.mem
  exact h.same _ (hb.region hmem)

/-- A held cell is where it was, so pointers the client kept stay in step. -/
theorem Follows.cell {r r' : AHeap × Os} (h : Follows ρ os r r' ρ') (hb : A.Backed P os)
    (hk : A.Holds k) : k.moved ρ' = k.moved ρ := by
  cases k with
  | slot c z i => exact congrArg (Cell.slot c · i) (h.zone hb hk.1)
  | block b => exact congrArg Cell.block (h.same _ (hb.region hk))

theorem ready_since_malloc (hsize : ¬(s = 0 ∨ ptrdiffMax < s)) :
    (A.ready P os).2.2.Since (A.malloc P os s).2.2 := by
  unfold malloc
  rw [if_neg hsize]
  cases hr : (A.ready P os).1 with
  | false =>
    simp only [hr, Bool.false_eq_true, if_false]
    exact Os.Since.refl _
  | true =>
    simp only [hr, if_true]
    exact alloc_mapsOnly.since

section Pair

variable (hA : A.Sound P os) (hB : B.Sound P os') (hm : A.Moved ρ B) (ho : os.Moved ρ os')
include hA hB hm ho

theorem takeSlot_moved (hz : z ∈ A.lists c.freeHead) (hslot : (A.slots z)[i]? = some none)
    (ha : (A.takeSlot P os c z i s).2.2.Agree (B.takeSlot P os' c (ρ z) i s).2.2) :
    ∃ ρ', Grants P A ρ os (A.takeSlot P os c z i s) (B.takeSlot P os' c (ρ z) i s) ρ' := by
  have hzone : A.HasZone c z := Or.inl hz
  have hw : (A.setSlot z i (some s)).Wf P := hA.ok.toWf.setSlot
  have hw' : (B.setSlot (ρ z) i (some s)).Wf P := hB.ok.toWf.setSlot
  have hm₁ := hm.setSlot (i := i) (o := some s) hB.ok.toWf hzone
  have hheld : (A.setSlot z i (some s)).Holds (.slot c z i) := holds_take hzone hslot
  have hcount := hm₁.freeCount (c := c) (z := z) hzone
  have hnew : ¬A.Holds (.slot c z i) := by
    rintro ⟨-, r, hr⟩
    rw [hslot] at hr
    cases hr
  unfold takeSlot at ha ⊢
  by_cases h0 : (A.setSlot z i (some s)).freeCount z = 0
  · simp only [hcount, h0, if_true] at ha ⊢
    have hb := hA.backed.setSlot.move hw hz c.cls_full_free
    have hb' := hB.backed.setSlot.move hw' (hm.mem hz) c.cls_full_free
    obtain ⟨hres, ρ', h⟩ := createZone_moved hb hb' (hm₁.move hw hw' hz c.cls_full_free) ho ha
    refine ⟨ρ', h, ?_⟩
    have hheld₂ : ((A.setSlot z i (some s)).move z c.freeHead c.fullHead).Holds (.slot c z i) :=
      (hw.holds_move hz c.cls_full_free c.cls_freeHead).mpr hheld
    have hk : (Cell.slot c z i).moved ρ' = .slot c (ρ z) i :=
      h.cell hb hheld₂
    rw [hres]
    cases hr : (((A.setSlot z i (some s)).move z c.freeHead c.fullHead).createZone P os c).1 with
    | false => exact Or.inl ⟨rfl, rfl⟩
    | true =>
      refine Or.inr ⟨.slot c z i, hnew, (createZone_grows hb).held hheld₂, rfl, ?_⟩
      rw [hk]
      rfl
  · simp only [hcount, h0, if_false]
    exact ⟨ρ, ⟨fun _ _ => rfl, hm₁, ho⟩, Or.inr ⟨.slot c z i, hnew, hheld, rfl, rfl⟩⟩

theorem allocZone_moved
    (ha : (A.allocZone P os c s).2.2.Agree (B.allocZone P os' c s).2.2) :
    ∃ ρ', Grants P A ρ os (A.allocZone P os c s) (B.allocZone P os' c s) ρ' := by
  have hl' : B.lists c.freeHead = (A.lists c.freeHead).map ρ := hm.lists _
  unfold allocZone at ha ⊢
  cases hl : A.lists c.freeHead with
  | nil =>
    rw [hl, List.map_nil] at hl'
    simp only [hl']
    exact ⟨ρ, ⟨fun _ _ => rfl, hm, ho⟩, Or.inl ⟨rfl, rfl⟩⟩
  | cons z rest =>
    have hz : z ∈ A.lists c.freeHead := first_mem hl
    rw [hl, List.map_cons] at hl'
    obtain ⟨i, hleast, hslot, -⟩ := exists_leastFree (hA.ok.hasFree hz)
    have hleast' : B.leastFree (ρ z) = some i := (hm.leastFree (Or.inl hz)).trans hleast
    simp only [hl, hl', hleast, hleast'] at ha ⊢
    exact takeSlot_moved hA hB hm ho hz hslot ha

theorem allocLarge_moved (ha : (A.allocLarge os s).2.2.Agree (B.allocLarge os' s).2.2) :
    ∃ ρ', Grants P A ρ os (A.allocLarge os s) (B.allocLarge os' s) ρ' := by
  have hfit' : B.fit s = (A.fit s).map ρ := hm.fit s
  have hw := hA.ok.toWf
  unfold allocLarge at ha ⊢
  cases hfit : A.fit s with
  | some b =>
    obtain ⟨hb, -⟩ := fit_some hfit
    rw [hfit, Option.map_some] at hfit'
    simp only [hfit']
    have hmoved := hm.move hw hB.ok.toWf hb Head.cls_large
    refine ⟨ρ, ⟨fun _ _ => rfl, hmoved, ho⟩, Or.inr ⟨.block b, fun hheld => ?_, ?_, rfl, rfl⟩⟩
    · cases hw.once hb hheld
    · exact (hw.mem_move hb).mpr (Or.inr ⟨rfl, rfl⟩)
  | none =>
    rw [hfit, Option.map_none] at hfit'
    simp only [hfit, hfit'] at ha ⊢
    have hag : (os.mmap (wrap (48 + s))).Agree (os'.mmap (wrap (48 + s))) := by
      split at ha <;> split at ha <;> exact ha
    rcases ho.mmap hA.backed.system hag with ⟨hr, hr', ho'⟩ | ⟨b, b', hr, hr', ho'⟩
    · simp only [hr, hr']
      exact ⟨ρ, ⟨fun _ _ => rfl, hm, ho'⟩, Or.inl ⟨rfl, rfl⟩⟩
    · simp only [hr, hr']
      have hmoved := hm.addBlock (s := s) (hA.backed.fresh hr) (hB.backed.fresh hr')
      have hplace : place ρ b b' b = b' := Function.update_self _ _ _
      refine ⟨place ρ b b', ⟨fun g hg => place_region hA.backed.system hr hg, hmoved, ho'⟩,
        Or.inr ⟨.block b, hA.backed.fresh hr _, mem_addBlock.mpr (Or.inr ⟨rfl, rfl⟩), rfl, ?_⟩⟩
      change b' + 48 = place ρ b b' b + 48
      rw [hplace]

theorem alloc_moved (ha : (A.alloc P os s).2.2.Agree (B.alloc P os' s).2.2) :
    ∃ ρ', Grants P A ρ os (A.alloc P os s) (B.alloc P os' s) ρ' := by
  unfold alloc at ha ⊢
  cases hc : Cls.ofSize s with
  | some c =>
    rw [hc] at ha
    exact allocZone_moved hA hB hm ho ha
  | none =>
    rw [hc] at ha
    exact allocLarge_moved hA hB hm ho ha

/-- **`malloc`** does the same to both heaps and returns the same cell. -/
theorem malloc_moved (hP : ValidPage P)
    (ha : (A.malloc P os s).2.2.Agree (B.malloc P os' s).2.2) :
    ∃ ρ', Grants P A ρ os (A.malloc P os s) (B.malloc P os' s) ρ' := by
  by_cases hsize : s = 0 ∨ ptrdiffMax < s
  · unfold malloc
    rw [if_pos hsize, if_pos hsize]
    exact ⟨ρ, ⟨fun _ _ => rfl, hm, ho⟩, Or.inl ⟨rfl, rfl⟩⟩
  · have hag : (A.ready P os).2.2.Agree (B.ready P os').2.2 :=
      ha.before (ready_since_malloc hsize) (ready_since_malloc hsize)
    obtain ⟨hres, ρ₁, h₁⟩ := ready_moved hA.backed hB.backed hm ho hag
    obtain ⟨hA₁, hgrows⟩ := ready_sound hP hA
    obtain ⟨hB₁, -⟩ := ready_sound hP hB
    have hsub : ∀ g ∈ os.regions, g ∈ (A.ready P os).2.2.regions := fun g hg =>
      ready_mapsOnly.mem hg
    unfold malloc at ha ⊢
    rw [if_neg hsize, if_neg hsize] at ha ⊢
    generalize A.ready P os = r at *
    generalize B.ready P os' = r' at *
    cases hr : r.1 with
    | false =>
      simp only [hres, hr, Bool.false_eq_true, if_false]
      exact ⟨ρ₁, h₁, Or.inl ⟨rfl, rfl⟩⟩
    | true =>
      simp only [hres, hr, if_true] at ha ⊢
      obtain ⟨ρ₂, h₂⟩ := alloc_moved hA₁ hB₁ h₁.heap h₁.system ha
      refine ⟨ρ₂, h₁.trans h₂.toFollows hsub, h₂.result.imp id ?_⟩
      rintro ⟨k, hnew, hk⟩
      exact ⟨k, fun hheld => hnew (hgrows.held hheld), hk⟩

/-! ## Release -/

theorem freeSlot_moved (hk : A.Holds (.slot c z i)) :
    Follows ρ os (A.freeSlot P os c z i) (B.freeSlot P os' c (ρ z) i) ρ := by
  obtain ⟨hz, r, hslot⟩ := hk
  have hw : (A.setSlot z i none).Wf P := hA.ok.toWf.setSlot
  have hw' : (B.setSlot (ρ z) i none).Wf P := hB.ok.toWf.setSlot
  have hm₁ := hm.setSlot (i := i) (o := none) hB.ok.toWf hz
  have hcount := hm₁.freeCount (c := c) (z := z) hz
  obtain ⟨h, hc, hmem⟩ := hz.mem
  have hfirst : B.lists c.freeHead = [ρ z] ↔ A.lists c.freeHead = [z] := by
    rw [hm.lists, List.map_eq_singleton_iff]
    constructor
    · rintro ⟨y, hy, he⟩
      have hin : y ∈ A.lists c.freeHead := first_mem hy
      rw [hy, hm.inj hB.ok.toWf hin hmem he]
    · intro hy
      exact ⟨z, hy, rfl⟩
  unfold freeSlot
  simp only [hcount, hfirst]
  split
  · split
    · exact ⟨fun _ _ => rfl, hm₁, ho⟩
    · have hreg := hA.backed.region hmem
      rw [len_of_cls hc] at hreg
      exact ⟨fun _ _ => rfl, hm₁.detach hw hw' hmem, ho.munmap hB.backed.system hreg⟩
  · split
    · rename_i hone
      have hzf : z ∈ A.lists c.fullHead := hA.ok.on_full hz hslot hone
      exact ⟨fun _ _ => rfl, hm₁.move hw hw' hzf c.cls_full_free.symm, ho⟩
    · exact ⟨fun _ _ => rfl, hm₁, ho⟩

theorem freeLarge_moved (hk : A.Holds (.block b)) :
    Follows ρ os (A.freeLarge os b) (B.freeLarge os' (ρ b)) ρ := by
  have hw := hA.ok.toWf
  have hb : b ∈ A.lists .fullLargeBlocks := hk
  have hsize : B.size (ρ b) = A.size b := hm.size rfl hb
  unfold freeLarge
  rw [hsize]
  split
  · exact ⟨fun _ _ => rfl, hm.detach hw hB.ok.toWf hb,
      ho.munmap hB.backed.system (hA.backed.region hb)⟩
  · exact ⟨fun _ _ => rfl, hm.move hw hB.ok.toWf hb Head.cls_large.symm, ho⟩

/-- **`free`** does the same to both heaps, also where it unmaps. -/
theorem free_moved (hk : A.Holds k) :
    Follows ρ os (A.free P os k) (B.free P os' (k.moved ρ)) ρ := by
  cases k with
  | slot c z i => exact freeSlot_moved hA hB hm ho hk
  | block b => exact freeLarge_moved hA hB hm ho hk

/-! ## Resizing -/

/-- **`realloc`** does the same to both heaps and returns the same cell. -/
theorem realloc_moved (hP : ValidPage P) (hk : A.Holds k)
    (ha : (A.realloc P os k s).2.2.Agree (B.realloc P os' (k.moved ρ) s).2.2) :
    ∃ ρ', Follows ρ os (A.realloc P os k s).2 (B.realloc P os' (k.moved ρ) s).2 ρ' ∧
      Pointer P (A.realloc P os k s).2.1 ρ' (A.realloc P os k s).1
        (B.realloc P os' (k.moved ρ) s).1 := by
  have hcap := hm.cap hk
  have hk' := hm.holds hk
  unfold realloc at ha ⊢
  rw [hcap] at ha ⊢
  split
  · exact ⟨ρ, ⟨fun _ _ => rfl, hm, ho⟩, Pointer.cell hk⟩
  · rename_i hfit
    rw [if_neg hfit, if_neg hfit] at ha
    have hv := malloc_serves (s := s) hP hA
    have hv' := malloc_serves (s := s) hP hB
    obtain ⟨ρ', h⟩ := malloc_moved hA hB hm ho hP
      (ha.before (replace_since hk hv) (replace_since hk' hv'))
    have hsub : ∀ g ∈ os.regions, g ∈ (A.malloc P os s).2.2.regions := fun g hg =>
      malloc_mapsOnly.mem hg
    have hheld := hv.grows.held hk
    have hfree := free_moved hv.sound hv'.sound h.heap h.system hheld
    rw [h.cell hA.backed hk] at hfree
    refine ⟨ρ', ?_⟩
    unfold replace
    rcases h.result with ⟨h0, h0'⟩ | ⟨k', hnew, hk', hq, hq'⟩
    · rw [if_pos h0, if_pos h0', h0, h0']
      exact ⟨h.toFollows, Pointer.nil⟩
    · have hne : k' ≠ k := by
        rintro rfl
        exact hnew hk
      rw [if_neg (hq ▸ Cell.addr_ne_zero), if_neg (hq' ▸ Cell.addr_ne_zero), hq, hq']
      exact ⟨h.toFollows.trans hfree hsub,
        Pointer.cell ((free_releases hP hv.sound hheld).keeps hne hk').1⟩

end Pair

end AHeap

end FtMalloc
