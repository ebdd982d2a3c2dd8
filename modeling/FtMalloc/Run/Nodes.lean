import FtMalloc.Refine.Nodes
import FtMalloc.Run.Following
import FtMalloc.Run.Observe

/-!
# Nodes that stay (`bonus/src/malloc_bonus.c:247-291`)

Whoever keeps the address of a zone or a large block without a lock can rely on it as long as the
node stays in the heap (`World.HasNode`). Only a release takes one out, the last one of a zone that
is not alone on its list, or that of a large block that is not kept (`World.Unmaps`).

* `exec_node`: in every state that some interleaving reaches, the next step of a thread keeps every
  node, unless it is a release that unmaps it.
* `exec_unmaps`: and then nothing is mapped at its address any more.
-/

namespace FtMalloc

open Lib Bonus

/-- `x` is on one of the two lists of its kind, found by following `next` from the heads. -/
def World.HasNode (w : World) (c : Option Cls) (x : Nat) : Prop :=
  ∃ h : Head, h.cls = c ∧ x ∈ w.nodes h

/-- The test of `free_ptr(ptr)` that leads to an `munmap` of the node `x` (`malloc_bonus.c:260-265`,
`284`). -/
def World.Unmaps (w : World) (ptr x : Nat) : Prop :=
  let word := ld w.mem 8 (ptr - 8)
  if metaIsZone word then
    metaZone word = x ∧ w.freeCount x + 1 = w.numberOfBlocks x ∧
      (zoneNode.prevOf w.mem x ≠ null ∨ zoneNode.nextOf w.mem x ≠ null)
  else
    word = x ∧ 102400 < ld w.mem 8 (x + BlockT.size)

/-- The pointer that is released at a point: by `free`, or at the end of a `realloc` that moved. -/
def Bonus.Point.releases : Point → Option Nat
  | .freeBlock ptr _ | .release ptr _ _ _ => some ptr
  | _ => none

/-- The same among the larger steps. -/
def Bonus.Pc.releases : Pc → Option Nat
  | .freeBlock ptr _ | .release ptr _ _ _ => some ptr
  | _ => none

variable {P : Nat} {A A' : AHeap} {w w' : World} {W V : BonusWorld} {k : Cell} {c : Option Cls}
  {x ptr s : Nat} {p : Point} {pc : Pc} {o : Onward} {n : Next} {y : C Onward} {a : Activity}
  {live : List Alloc} {op : Op} {ls : List Mutex}

/-! ## On represented heaps -/

theorem Rep.hasNode_iff (hr : Rep P w A) : w.HasNode c x ↔ A.Node c x := by
  simp only [World.HasNode, AHeap.Node, hr.nodes_eq]

/-- **The test of `free_ptr`** on a held cell is the abstract one: it reads the counter, the links
and the size that the abstract heap has. -/
theorem Rep.unmaps_iff (hP : ValidPage P) (hr : Rep P w A) (hok : A.Ok P) (hk : A.Holds k) :
    w.Unmaps (k.addr P) x ↔ k.base = x ∧ A.Drops P k := by
  have hcell := hr.wf.hasCell hk
  obtain ⟨-, -, hword⟩ := hr.header hP hcell
  unfold World.Unmaps
  rw [hword]
  cases k with
  | slot cl z i =>
    obtain ⟨hflag, hzone, -⟩ := hr.slot_decodes hP hcell
    dsimp only
    rw [if_pos hflag, hzone]
    change z = x ∧ _ ↔ z = x ∧ A.freeCount z + 1 = cl.cells P ∧ A.lists cl.freeHead ≠ [z]
    refine and_congr_right fun hzx => ?_
    subst hzx
    have hmany := (hP.layout cl).enough
    have hcount : w.freeCount z = (A.freeCount z : Nat) := (hr.zone hk.1).1.count
    rw [hcount, (hr.zone_fields hk.1).number]
    constructor
    · rintro ⟨hall, hlinks⟩
      have hall : A.freeCount z + 1 = cl.cells P := by exact_mod_cast hall
      refine ⟨hall, fun hone => ?_⟩
      have h0 := (hr.alone_iff (hok.mem_freeHead hk.1 (by omega))).mp hone
      exact hlinks.elim (fun h => h h0.1) fun h => h h0.2
    · rintro ⟨hall, hone⟩
      refine ⟨by exact_mod_cast hall, ?_⟩
      rw [Ne, hr.alone_iff (hok.mem_freeHead hk.1 (by omega)), not_and_or] at hone
      exact hone
  | block b =>
    have hflag : ¬metaIsZone (Cell.block b).word = true := by
      rw [hr.block_decodes hcell]
      exact Bool.false_ne_true
    dsimp only
    rw [if_neg hflag]
    change b = x ∧ _ ↔ b = x ∧ 102400 < A.size b
    refine and_congr_right fun hbx => ?_
    subst hbx
    rw [(hr.block (h := .fullLargeBlocks) rfl hk).1.size]

/-! ## One of the larger steps -/

/-- An allocation keeps every node: zones and blocks change lists and are added, none is taken
off. -/
theorem AllocDone.node [Platform] {q : Nat} (hs : AllocDone P A W live s q A' V)
    (hI : HeapInv P A W) (hx : W.world.HasNode c x) : V.world.HasNode c x := by
  have hnode : (A.alloc P W.world.os s).2.1.Node c x :=
    AHeap.alloc_node hI.ok.toWf (hI.rep.hasNode_iff.mp hx)
  rw [hs.effect] at hnode
  exact hs.heap.rep.hasNode_iff.mpr hnode

/-- A release keeps every node but the one it unmaps, and that one is not mapped any more. -/
theorem FreeDone.node [Platform] (hs : FreeDone P A W k A' V) (hP : ValidPage P)
    (hI : HeapInv P A W) (hk : A.Holds k) :
    (W.world.HasNode c x → ¬W.world.Unmaps (k.addr P) x → V.world.HasNode c x) ∧
      (W.world.Unmaps (k.addr P) x → ∀ r ∈ V.world.os.regions, r.base ≠ x) := by
  have hdrops := AHeap.free_drops hP hI.ok hI.rep.backed hk
  rw [hs.effect] at hdrops
  rw [hI.rep.unmaps_iff hP hI.ok hk]
  refine ⟨fun hx hd => ?_, fun ⟨hkx, hd⟩ => hkx ▸ hdrops hd⟩
  have hnode : (A.free P W.world.os k).1.Node c x :=
    AHeap.free_node hI.ok hk (hI.rep.hasNode_iff.mp hx) fun he hd' => hd ⟨he, hd'⟩
  rw [hs.effect] at hnode
  exact hs.heap.rep.hasNode_iff.mpr hnode

/-- **One of the larger steps**, but for the setup, keeps every node, unless it is a release that
unmaps it. -/
theorem Activity.Did.node [Platform] (hd : a.Did P A W live n A' V) (hP : ValidPage P)
    (hI : HeapInv P A W) (hset : ∀ s, a.pc ≠ .setup s) :
    (W.world.HasNode c x → (∀ ptr, a.pc.releases = some ptr → ¬W.world.Unmaps ptr x) →
      V.world.HasNode c x) ∧
    ∀ ptr, a.pc.releases = some ptr → W.world.Unmaps ptr x →
      ∀ r ∈ V.world.os.regions, r.base ≠ x := by
  -- a step that makes a represented heap from the same abstract one
  have hsame : ∀ {V : BonusWorld}, Rep P V.world A → W.world.HasNode c x → V.world.HasNode c x :=
    fun hr hx => hr.hasNode_iff.mpr (hI.rep.hasNode_iff.mp hx)
  have hfree : ∀ {k : Cell} {A' V}, FreeDone P A W k A' V → A.Holds k →
      (W.world.HasNode c x → (∀ ptr, some (k.addr P) = some ptr → ¬W.world.Unmaps ptr x) →
        V.world.HasNode c x) ∧
      ∀ ptr, some (k.addr P) = some ptr → W.world.Unmaps ptr x →
        ∀ r ∈ V.world.os.regions, r.base ≠ x := by
    intro k A' V hs hk
    have hboth := hs.node (c := c) (x := x) hP hI hk
    exact ⟨fun hx hd => hboth.1 hx (hd _ rfl), fun ptr he hu => by cases he; exact hboth.2 hu⟩
  cases hd with
  | store _ hs => exact ⟨fun hx _ => hsame hs.heap.rep hx, fun _ h => by cases h⟩
  | check | skip | freeHeader | fits | header => exact ⟨fun hx _ => hx, fun _ h => by cases h⟩
  | setup | setupFailed => exact absurd rfl (hset _)
  | alloc _ _ hs | growFailed _ _ hs | grow _ _ hs =>
    exact ⟨fun hx _ => hs.node hI hx, fun _ h => by cases h⟩
  | freeBlock hk _ hs => exact hfree hs hk
  | copy _ hs => exact ⟨fun hx _ => hsame hs.heap.rep hx, fun _ h => by cases h⟩
  | release hv _ hs => exact hfree hs hv.held

/-! ## One step -/

/-- A body releases what the larger step releases. -/
theorem releases_coarse [Platform] (hy : p.action = .body y) (hpc : p.coarse = .go pc) :
    p.releases = pc.releases := by
  cases p <;> first | (cases hpc; rfl) | cases hy

/-- A step of the setup keeps every node: it only adds the first two zones. -/
theorem setup_node [Platform]
    (hP : ValidPage P) (hr : Rep P w A) (hp : p.InSetup) (hy : p.action = .body y)
    (hrun : y w = some (o, w')) (hx : w.HasNode c x) : w'.HasNode c x := by
  have hzone : ∀ (cl : Cls) {e : Int} {v : World}, createZone cl.size w = some (e, v) →
      v.HasNode c x := by
    intro cl e v h
    obtain ⟨v', hrun', -, hr', -⟩ := createZone_run hP hr cl
    obtain ⟨-, rfl⟩ := Prod.mk.inj (Option.some.inj (h.symm.trans hrun'))
    exact hr'.hasNode_iff.mpr (hr.hasNode_iff.mp hx).createZone
  cases p with
  | recheck s =>
    cases hy
    cases hrun
    exact hx
  | makeTiny s =>
    cases hy
    obtain ⟨e, v, h, hrest⟩ := Prog.bind_eq_some.mp hrun
    obtain ⟨-, rfl⟩ := Prod.mk.inj (Option.some.inj hrest)
    exact hzone .tiny h
  | makeSmall s =>
    cases hy
    obtain ⟨e, v, h, hrest⟩ := Prog.bind_eq_some.mp hrun
    obtain ⟨-, rfl⟩ := Prod.mk.inj (Option.some.inj hrest)
    exact hzone .small h
  | publish s =>
    cases hy
    cases hrun
    exact hx
  | _ => exact hp.elim

variable {ι : Type} [DecidableEq ι] {S : Sys ι Traced Caller} {i : ι}

/-- **One step of a thread** keeps every node, unless it is a release that unmaps it; and then
nothing is mapped at its address any more. -/
theorem exec_node [Platform]
    (hS : Points.Reachable P S) (hi : S.thread i = ⟨live, some (op, p), ls⟩)
    (hrun : p.action.exec S.shared.bonus = some (o, V)) :
    (S.shared.bonus.world.HasNode c x →
      (∀ ptr, p.releases = some ptr → ¬S.shared.bonus.world.Unmaps ptr x) →
      V.world.HasNode c x) ∧
    ∀ ptr, p.releases = some ptr → S.shared.bonus.world.Unmaps ptr x →
      ∀ r ∈ V.world.os.regions, r.base ≠ x := by
  obtain ⟨U, hU, hsim⟩ := points_follow hS
  obtain ⟨A, hh⟩ := threads_inv hU
  have hlock : ∀ {m p'}, p.action = .lock m p' → p.releases = none := fun h => by
    cases p <;> first | rfl | cases h
  have hunlock : ∀ {m o'}, p.action = .unlock m o' → p.releases = none := fun h => by
    cases p <;> first | rfl | cases h
  cases hp : p.action with
  | lock m p' =>
    rw [hlock hp]
    rw [hp] at hrun
    obtain ⟨-, -, rfl⟩ := lock_exec hrun
    exact ⟨fun hx _ => hx, fun _ h => by cases h⟩
  | unlock m o' =>
    rw [hunlock hp]
    rw [hp] at hrun
    obtain ⟨-, -, rfl⟩ := unlock_exec hrun
    exact ⟨fun hx _ => hx, fun _ h => by cases h⟩
  | body y =>
    rw [hp] at hrun
    obtain ⟨w', hy, rfl⟩ := body_exec hrun
    by_cases hset : p.InSetup
    · obtain ⟨A', hr, -⟩ := hsim.rep hU.1 hh.shared.rep
      refine ⟨fun hx _ => setup_node hU.1 hr hset hp hy hx, fun ptr h => ?_⟩
      cases p <;> first | exact hset.elim | cases h
    · obtain ⟨pc, hpc, hexec⟩ := body_coarse hp hy hset
      rcases hsim.world with ⟨hw, -⟩ | ⟨k, op', p', hc, hmid⟩
      · have hf := hsim.follows i
        have ht := hh.own i
        rw [hi] at hf
        generalize U.thread i = u at hf ht
        cases hf with
        | leaving hq =>
          rw [hpc] at hq
          cases hq
        | going before hpc' =>
          obtain rfl := Next.go.inj (hpc.symm.trans hpc')
          have hshared : U.shared = ⟨S.shared.bonus.world, unlocked⟩ := by
            rw [hw, ← hh.shared.free]
          rw [← hshared] at hexec
          rw [releases_coarse hp hpc, hw]
          have hno : ∀ s, pc ≠ .setup s := fun s hs =>
            hset (inSetup_of_coarse hp (hpc.trans (congrArg Next.go hs)))
          obtain ⟨A', hd⟩ := exec_did hU.1 hh.shared ht hexec
          exact hd.node hU.1 hh.shared hno
      · obtain ⟨s, rfl⟩ := hsim.only_check hU hi hp hset hmid
        cases hp
        cases hy
        exact ⟨fun hx _ => hx, fun _ h => by cases h⟩

end FtMalloc
