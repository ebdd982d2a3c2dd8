import FtMalloc.Lib.DListFamily
import FtMalloc.Source.List
import FtMalloc.Run.Client

/-!
# The intrusive lists, for any lists (`list.c`)

`L` is the layout of either struct: at `zoneNode` the functions are `lst_add_back` and
`lst_detach`, at `blockNode` they are `block_add_back` and `block_detach`. The nodes need not be
those of an allocator; the lists are any family of lists of such nodes.

Results:
* `addBackWithin_lists`: appending a node, for every bound on the walk that the list is within.
* `detach_lists`: taking a node out.
* `list_operations`: both together.
-/

namespace FtMalloc

open Lib

/-- Nodes whose headers are mapped. -/
structure Stored (L : NodeLayout) (os : Os) (S : Set Nat) : Prop extends L.Nodes S where
  mapped : ∀ x ∈ S, os.Mapped x L.size

/-- From `w` to `w'` only links of `x` and of the nodes `xs` changed, and the one list head. -/
structure Relinked (L : NodeLayout) (w w' : World) (S : Set Nat) (head : Head) (x : Nat)
    (xs : List Nat) : Prop where
  links : Agrees w.mem w'.mem fun a => ∀ y ∈ x :: xs, ¬L.LinkByte y a
  others : ∀ y ∈ S, y ≠ x → y ∉ xs → ∀ a, y ≤ a → a < y + L.size → w'.mem a = w.mem a
  heads : ∀ g, g ≠ head → w'.heap.get g = w.heap.get g
  initialized : w'.heap.initialized = w.heap.initialized
  os : w'.os = w.os

section

variable {L : NodeLayout} {w w' : World} {S : Set Nat} {head : Head} {x y q : Nat}
  {xs : List Nat} {ι : Type*} {heads : ι → Nat} {nodes : ι → List Nat} {l : ι}

theorem Stored.next_mapped (hS : Stored L w.os S) (hx : x ∈ S) : w.os.Mapped (x + L.next) 8 := by
  obtain ⟨r, hr, h1, h2⟩ := hS.mapped x hx
  have hn := L.next_le
  exact ⟨r, hr, by omega, by omega⟩

theorem Stored.prev_mapped (hS : Stored L w.os S) (hx : x ∈ S) : w.os.Mapped (x + L.prev) 8 := by
  obtain ⟨r, hr, h1, h2⟩ := hS.mapped x hx
  have hp := L.prev_le
  exact ⟨r, hr, by omega, by omega⟩

/-- No node but `x` and those of `xs` has a byte of their links. -/
theorem Relinked.of_links (hS : Stored L w.os S) (hx : x ∈ S) (hxs : ∀ y ∈ xs, y ∈ S)
    (hlinks : Agrees w.mem w'.mem fun a => ∀ y ∈ x :: xs, ¬L.LinkByte y a)
    (hheads : ∀ g, g ≠ head → w'.heap.get g = w.heap.get g)
    (hinit : w'.heap.initialized = w.heap.initialized) (hos : w'.os = w.os) :
    Relinked L w w' S head x xs where
  links := hlinks
  others := fun y hy hyx hyxs a h1 h2 => by
    refine hlinks a fun z hz => ?_
    rcases List.mem_cons.mp hz with rfl | hz
    · exact hS.not_linkByte hy hx hyx ⟨h1, h2⟩
    · exact hS.not_linkByte hy (hxs z hz) (fun e => hyxs (e ▸ hz)) ⟨h1, h2⟩
  heads := hheads
  initialized := hinit
  os := hos

/-- **Appending**: every walk long enough for the list ends, in the same state. -/
theorem addBackWithin_lists [DecidableEq ι] (hS : Stored L w.os S)
    (hl : L.Lists w.mem S heads nodes) (hhead : w.heap.get head = heads l) (hx : x ∈ S)
    (hout : ∀ i, x ∉ nodes i) :
    ∃ w', (∀ fuel, (nodes l).length ≤ fuel → addBackWithin L fuel head x w = some ((), w')) ∧
      L.Lists w'.mem S (Function.update heads l (w'.heap.get head))
        (Function.update nodes l (nodes l ++ [x])) ∧
      Relinked L w w' S head x (nodes l) := by
  have hn := hS.next_mapped hx
  have hp := hS.prev_mapped hx
  have hx0 := hS.ne_zero x hx
  by_cases hnil : nodes l = []
  · have h0 : w.heap.get head = 0 := hhead.trans ((hl.isList l).head_eq_zero_iff.mpr hnil)
    refine ⟨_, fun fuel _ => addBackWithin_nil_run hx0 hn hp h0, ?_, ?_⟩
    · rw [Heap.get_set, if_pos rfl, hnil]
      exact hl.appendFirst hS.toNodes hx hout
    · refine .of_links hS hx (hl.mem l) ?_ (fun g hg => ?_) (Heap.initialized_set _ _ _) rfl
      · exact NodeLayout.linkOnly_agrees.mono fun a ha => ha x List.mem_cons_self
      · rw [Heap.get_set, if_neg hg]
  · obtain ⟨q, hs⟩ := hl.isList l
    have hq := (hs.last hnil).1
    have hap : ∀ y ∈ nodes l, L.Apart x y := fun y hy =>
      hS.apart x hx y (hl.mem l y hy) fun e => hout l (e ▸ hy)
    refine ⟨_, fun fuel hfuel => addBackWithin_run hx0 hn hp (hhead ▸ hs) hnil hfuel
      (fun y hy => hS.next_mapped (hl.mem l y hy)) hap, ?_, ?_⟩
    · change L.Lists _ S (Function.update heads l (w.heap.get head)) _
      rw [hhead]
      exact hl.append hS.toNodes hx hout hs hnil
    · refine .of_links hS hx (hl.mem l) ?_ (fun g _ => rfl) rfl rfl
      exact NodeLayout.linkBack_agrees.mono fun a ha =>
        ⟨ha x List.mem_cons_self, ha q (List.mem_cons_of_mem _ hq)⟩

/-- **Taking out.** -/
theorem detach_lists [DecidableEq ι] (hS : Stored L w.os S) (hl : L.Lists w.mem S heads nodes)
    (hhead : w.heap.get head = heads l) (hx : x ∈ nodes l) :
    ∃ w', detach L head x w = some ((), w') ∧
      L.Lists w'.mem S (Function.update heads l (w'.heap.get head))
        (Function.update nodes l ((nodes l).erase x)) ∧
      L.nextOf w'.mem x = 0 ∧ L.prevOf w'.mem x = 0 ∧
      Relinked L w w' S head x (nodes l) := by
  have hlist := hl.isList l
  have hxS := hl.mem l x hx
  have hprev : L.prevOf w.mem x ≠ 0 →
      w.os.Mapped (L.prevOf w.mem x + L.next) 8 ∧ L.Apart (L.prevOf w.mem x) x := fun h => by
    have hmem := hlist.prevOf_mem_of hx h
    exact ⟨hS.next_mapped (hl.mem l _ hmem),
      hS.apart _ (hl.mem l _ hmem) x hxS (hlist.prevOf_ne hx h)⟩
  have hnext : L.nextOf w.mem x ≠ 0 → w.os.Mapped (L.nextOf w.mem x + L.prev) 8 :=
    fun h => hS.prev_mapped (hl.mem l _ (hlist.nextOf_mem_of hx h))
  -- the list head moves when the first node leaves
  have hget : ∀ g, (if L.prevOf w.mem x = 0 then w.heap.set head (L.nextOf w.mem x)
      else w.heap).get g = if g = head then
        (if L.prevOf w.mem x = 0 then L.nextOf w.mem x else heads l) else w.heap.get g := by
    intro g
    by_cases hp : L.prevOf w.mem x = 0
    · rw [if_pos hp, if_pos hp, Heap.get_set]
    · rw [if_neg hp, if_neg hp, ← hhead]
      split
      · rename_i hg
        rw [hg]
      · rfl
  refine ⟨_, detach_run (hS.ne_zero x hxS) (hS.next_mapped hxS) (hS.prev_mapped hxS) hprev hnext,
    ?_, NodeLayout.nextOf_unlink, NodeLayout.prevOf_unlink, ?_⟩
  · rw [hget head, if_pos rfl]
    exact hl.remove hS.toNodes hx
  · refine .of_links hS hxS (hl.mem l) (hlist.unlink_agrees hx) (fun g hg => ?_) ?_ rfl
    · exact (hget g).trans (if_neg hg)
    · dsimp only
      split
      · exact Heap.initialized_set _ _ _
      · rfl

/-- **The list operations** on any list of any family. -/
theorem list_operations [DecidableEq ι] (hS : Stored L w.os S) (hl : L.Lists w.mem S heads nodes)
    (l : ι) (hhead : w.heap.get head = heads l) :
    (∀ x ∈ S, (∀ i, x ∉ nodes i) → ∃ w',
      (∀ fuel, (nodes l).length ≤ fuel → addBackWithin L fuel head x w = some ((), w')) ∧
      ((nodes l).length ≤ w.os.regions.length → addBack L head x w = some ((), w')) ∧
      L.Lists w'.mem S (Function.update heads l (w'.heap.get head))
        (Function.update nodes l (nodes l ++ [x])) ∧
      Relinked L w w' S head x (nodes l)) ∧
    ∀ x ∈ nodes l, ∃ w', detach L head x w = some ((), w') ∧
      L.Lists w'.mem S (Function.update heads l (w'.heap.get head))
        (Function.update nodes l ((nodes l).erase x)) ∧
      L.nextOf w'.mem x = 0 ∧ L.prevOf w'.mem x = 0 ∧
      Relinked L w w' S head x (nodes l) := by
  refine ⟨fun x hx hout => ?_, fun x hx => detach_lists hS hl hhead hx⟩
  obtain ⟨w', hrun, hlists, hlinks⟩ := addBackWithin_lists hS hl hhead hx hout
  exact ⟨w', hrun, fun hlen => addBack_within.trans (hrun _ hlen), hlists, hlinks⟩

end

/-- Two nodes in zeroed memory, of which the first one is a list of its own. -/
def twoNodes : World where
  heap := { Heap.init with freeTinyZones := 4096 }
  mem := fun _ => 0
  os := ⟨4096, [⟨4096, 8192⟩], [], []⟩

theorem twoNodes_stored : Stored zoneNode twoNodes.os {4096, 8192} where
  ne_zero := by
    rintro x (rfl | rfl) <;> decide
  word := by
    rintro x (rfl | rfl) <;> decide
  apart := by
    rintro x (rfl | rfl) y (rfl | rfl) hne
    · exact absurd rfl hne
    · exact .inl (by decide)
    · exact .inr (by decide)
    · exact absurd rfl hne
  mapped := by
    rintro x (rfl | rfl) <;> decide

theorem twoNodes_lists : zoneNode.Lists twoNodes.mem {4096, 8192}
    (fun b : Bool => if b then 4096 else 0) (fun b : Bool => if b then [4096] else []) where
  isList := by
    rintro (_ | _)
    · exact NodeLayout.isList_nil.mpr rfl
    · exact ⟨4096, rfl, by decide, ld_zeroed _ _, rfl, (ld_zeroed _ _).symm⟩
  mem := by
    rintro (_ | _) x hx
    · cases hx
    · exact .inl (List.mem_singleton.mp hx)
  disjoint := by
    rintro (_ | _) (_ | _) hne
    · exact absurd rfl hne
    · exact List.disjoint_nil_left _
    · exact List.disjoint_nil_right _
    · exact absurd rfl hne

theorem list_operations_sample :
    (∃ w', (∀ fuel, 1 ≤ fuel →
        addBackWithin zoneNode fuel .freeTinyZones 8192 twoNodes = some ((), w')) ∧
      zoneNode.IsList w'.mem (w'.heap.get .freeTinyZones) [4096, 8192]) ∧
    ∃ w', lstDetach .freeTinyZones 4096 twoNodes = some ((), w') ∧
      zoneNode.IsList w'.mem (w'.heap.get .freeTinyZones) [] := by
  have hhead : twoNodes.heap.get .freeTinyZones = 4096 := rfl
  obtain ⟨happend, hdetach⟩ := list_operations twoNodes_stored twoNodes_lists true hhead
  obtain ⟨w₁, hrun, -, hlists, -⟩ := happend 8192 (.inr rfl) (by decide)
  obtain ⟨w₂, hrun₂, hlists₂, -⟩ := hdetach 4096 (by decide)
  have hl := hlists.isList true
  have hl₂ := hlists₂.isList true
  rw [Function.update_self, Function.update_self] at hl hl₂
  exact ⟨⟨w₁, hrun, hl⟩, w₂, hrun₂, hl₂⟩

end FtMalloc
