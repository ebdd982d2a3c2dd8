import FtMalloc.Results.Refinement
import FtMalloc.Run.Nodes
import FtMalloc.Run.Report
import FtMalloc.Source.Traverse

/-!
# `show_alloc_mem` beside other threads (`bonus/src/show_alloc_mem.c:98-208`)

One thread runs `show_alloc_mem` or `show_alloc_mem_ex` while any number of others call the
allocator. A traversal takes no lock: what it has is the address of a node, and the others may
unmap that node before it is visited.

* `traversal_safe`: as long as no release unmaps the node at which the traversal stands
  (`Watched.Spares`), every node it visits is mapped; and a step of another thread leaves it so if
  and only if it is no such release.
* `traversal_unmapped`: a release that unmaps the node at which the traversal stands.
-/

namespace FtMalloc

open Lib Bonus

/-- The threads, and where the traversal is. -/
structure Watched (ι : Type) where
  sys : Sys ι Traced Caller
  stop : Stop

variable {P : Nat} {A : AHeap} {w w' : World} {W' : BonusWorld} {ι : Type} [DecidableEq ι]
  {V V' : Watched ι} {S S' : Sys ι Traced Caller} {G : Watched ι → ι → Prop} {ex : Bool}
  {l l' : Stop} {h : Head} {x : Nat} {i : ι}

/-- A step: one of another thread that satisfies `G`, or one of the traversal. -/
inductive WatchStep [Platform]
    (ex : Bool) (G : Watched ι → ι → Prop) (V : Watched ι) : Watched ι → Prop
  | thread (i : ι) {T : Traced} {t : Caller} : CallerStep V.sys.shared (V.sys.thread i) T t →
      G V i → WatchStep ex G V ⟨V.sys.set i T t, V.stop⟩
  | walk {l : Stop} {w : World} : V.stop.exec ex V.sys.shared.bonus.world = some (l, w) →
      WatchStep ex G V ⟨V.sys, l⟩

namespace Watched

/-- The start of a traversal, before the first call of the others. -/
def init (ι : Type) (P : Nat) (m : Mem) (answers : List (Option Nat)) : Watched ι :=
  ⟨Points.init ι P m answers, .head .freeTinyZones⟩

/-- A state that some interleaving of such steps reaches. -/
def ReachedBy [Platform] (ex : Bool) (G : Watched ι → ι → Prop) (P : Nat) (V : Watched ι) : Prop :=
  ValidPage P ∧ ∃ m answers, Relation.ReflTransGen (WatchStep ex G) (init ι P m answers) V

/-- The node that is visited next is mapped, its header with it. -/
def Safe (V : Watched ι) : Prop :=
  ∀ h x, V.stop = .node h x →
    ∃ r ∈ V.sys.shared.bonus.world.os.regions, r.base = x ∧ (linksOf h).size ≤ r.len

/-- The next step of thread `i` is no release that unmaps the node at which the traversal stands. -/
def Spares (V : Watched ι) (i : ι) : Prop :=
  ∀ op p ptr h x, (V.sys.thread i).call = some (op, p) → p.releases = some ptr →
    V.stop = .node h x → ¬V.sys.shared.bonus.world.Unmaps ptr x

/-- The traversal stands at a node of the heap. -/
structure Kept [Platform] (P : Nat) (V : Watched ι) : Prop where
  reachable : Points.Reachable P V.sys
  node : ∀ h x, V.stop = .node h x → V.sys.shared.bonus.world.HasNode h.cls x

end Watched

/-! ## A step of the traversal -/

theorem linksOf_eq (h : Head) : linksOf h = h.node := by cases h <;> rfl

theorem Points.Reachable.rep [Platform]
    (hS : Points.Reachable P S) : ∃ A, Rep P S.shared.bonus.world A := by
  obtain ⟨U, hU, hsim⟩ := points_follow hS
  obtain ⟨A, hh⟩ := threads_inv hU
  obtain ⟨A', hr, -⟩ := hsim.rep hU.1 hh.shared.rep
  exact ⟨A', hr⟩

/-- A loop goes on at the node it came to. -/
theorem arrive_node {g : Head} {y : Nat} (he : arrive g y = .node h x) :
    g = h ∧ y = x ∧ y ≠ null := by
  unfold arrive at he
  split at he
  · cases g <;> cases he
  · cases he
    exact ⟨rfl, rfl, by assumption⟩

/-- The head of a list is a node. -/
theorem Rep.head_node (hr : Rep P w A) (h0 : w.heap.get h ≠ null) :
    w.HasNode h.cls (w.heap.get h) := by
  refine hr.hasNode_iff.mpr ⟨h, rfl, ?_⟩
  rw [hr.get_head] at h0 ⊢
  cases hl : A.lists h with
  | nil =>
    rw [hl] at h0
    exact absurd rfl h0
  | cons y ys => exact List.mem_cons_self

/-- The `next` of a node is a node of its kind. -/
theorem Rep.next_node (hr : Rep P w A) (hx : w.HasNode h.cls x)
    (h0 : (linksOf h).nextOf w.mem x ≠ null) :
    w.HasNode h.cls ((linksOf h).nextOf w.mem x) := by
  obtain ⟨g, hg, hm⟩ := hr.hasNode_iff.mp hx
  have hnode : linksOf h = g.node := by
    rw [linksOf_eq]
    unfold Head.node
    rw [hg]
  rw [hnode] at h0 ⊢
  obtain ⟨ys, zs, hsplit⟩ := List.append_of_mem hm
  have hl := hr.lists g
  rw [hsplit] at hl
  refine hr.hasNode_iff.mpr ⟨g, hg, ?_⟩
  rw [hsplit]
  exact List.mem_append_right _ (List.mem_cons_of_mem _ (hl.nextOf_mem h0))

/-- **A step of the traversal** comes from a node to a node. -/
theorem Rep.stop_node (hr : Rep P w A) (hl : ∀ h x, l = .node h x → w.HasNode h.cls x)
    (hrun : l.exec ex w = some (l', w')) : ∀ h x, l' = .node h x → w.HasNode h.cls x := by
  rintro h x rfl
  cases l with
  | head g =>
    obtain ⟨he, -⟩ := Prod.mk.inj (Option.some.inj hrun)
    obtain ⟨rfl, rfl, h0⟩ := arrive_node he
    exact hr.head_node h0
  | node g y =>
    obtain ⟨next, v, hvisit, hrest⟩ := Prog.bind_eq_some.mp hrun
    obtain ⟨he, -⟩ := Prod.mk.inj (Option.some.inj hrest)
    obtain ⟨rfl, rfl, h0⟩ := arrive_node he
    obtain ⟨-, rfl⟩ := visit_reads hvisit
    exact hr.next_node (hl _ _ rfl) h0
  | finished => cases hrun

/-! ## Runs -/

namespace Watched

/-- A node of the heap is mapped. -/
theorem Kept.safe [Platform] (hk : Kept P V) : V.Safe := by
  intro h x hs
  obtain ⟨A, hr⟩ := hk.reachable.rep
  obtain ⟨g, hg, hm⟩ := hr.hasNode_iff.mp (hk.node h x hs)
  refine ⟨_, hr.backed.region hm, rfl, ?_⟩
  have hnode : linksOf h = g.node := by
    rw [linksOf_eq]
    unfold Head.node
    rw [hg]
  rw [hnode]
  exact node_size_le hk.reachable.1

/-- A step of another thread that spares the node. -/
theorem Kept.thread [Platform] (hk : Kept P V) {T : Traced} {t : Caller}
    (hn : CallerStep V.sys.shared (V.sys.thread i) T t) (hs : V.Spares i) :
    Kept P ⟨V.sys.set i T t, V.stop⟩ := by
  refine ⟨hk.reachable.trans (Relation.ReflTransGen.single (Sys.Step.mk i hn)), fun h x hx => ?_⟩
  have hnode := hk.node h x hx
  generalize hi : V.sys.thread i = ti at hn
  generalize hT : V.sys.shared = Ti at hn
  cases hn with
  | call hv hl =>
    rw [← hT]
    exact hnode
  | @exec W' live op p ls o hrun =>
    subst hT
    refine (exec_node hk.reachable hi hrun).1 hnode fun ptr hp => ?_
    exact hs op p ptr h x (by rw [hi]) hp hx

/-- A step of another thread that does not. -/
theorem Kept.not_safe [Platform] (hk : Kept P V) {T : Traced} {t : Caller}
    (hn : CallerStep V.sys.shared (V.sys.thread i) T t) (hs : ¬V.Spares i) :
    ¬Safe ⟨V.sys.set i T t, V.stop⟩ := by
  intro hsafe
  refine hs fun op p ptr h x hc hp hx hu => ?_
  obtain ⟨r, hr, hbase, -⟩ := hsafe h x hx
  generalize hi : V.sys.thread i = ti at hn
  generalize hT : V.sys.shared = Ti at hn
  cases hn with
  | call hv hl =>
    rw [hi] at hc
    cases hc
  | @exec W' live op' p' ls o hrun =>
    subst hT
    rw [hi] at hc
    cases hc
    exact (exec_node (c := h.cls) hk.reachable hi hrun).2 ptr hp hu r hr hbase

/-- **A run that spares the traversal** keeps it at nodes of the heap. -/
theorem ReachedBy.kept [Platform] (hV : V.ReachedBy ex Spares P) : Kept P V := by
  obtain ⟨hP, m, answers, hreach⟩ := hV
  induction hreach with
  | refl =>
    exact ⟨⟨hP, m, answers, Relation.ReflTransGen.refl⟩, fun _ _ hx => by cases hx⟩
  | tail _ hs ih =>
    cases hs with
    | thread i hn hg => exact ih.thread hn hg
    | walk hrun =>
      obtain ⟨A, hr⟩ := ih.reachable.rep
      exact ⟨ih.reachable, hr.stop_node ih.node hrun⟩

end Watched

/-- **A traversal beside other threads.** In every run in which no release unmaps the node at which
the traversal stands, every node it comes to is mapped; and what such a run reaches, the next step
of another thread leaves the traversal at a mapped node if and only if it is no such release. -/
theorem traversal_safe [Platform] (hV : V.ReachedBy ex Watched.Spares P) :
    V.Safe ∧ ∀ i T t, CallerStep V.sys.shared (V.sys.thread i) T t →
      (Watched.Safe ⟨V.sys.set i T t, V.stop⟩ ↔ V.Spares i) := by
  have hk := hV.kept
  refine ⟨hk.safe, fun i T t hn => ⟨fun hs => ?_, fun hs => (hk.thread hn hs).safe⟩⟩
  by_contra hno
  exact hk.not_safe hn hno hs

/-! ## A large block that is unmapped -/

/-- The others take steps while the traversal stands still. -/
theorem Watched.wait [Platform] (hreach : Sys.Reach CallerStep S S') (hG : ∀ U i, G ⟨U, l⟩ i) :
    Relation.ReflTransGen (WatchStep ex G) ⟨S, l⟩ ⟨S', l⟩ := by
  induction hreach with
  | refl => exact Relation.ReflTransGen.refl
  | tail _ hs ih =>
    obtain ⟨i, hn⟩ := hs
    exact ih.tail (WatchStep.thread (V := ⟨_, l⟩) i hn (hG _ _))

/-- A traversal that starts before the setup finds no zone. -/
theorem Watched.walk_empty [Platform] (m : Mem) (answers : List (Option Nat)) :
    Relation.ReflTransGen (WatchStep ex G) (Watched.init ι P m answers)
      ⟨Points.init ι P m answers, .head .fullLargeBlocks⟩ := by
  have hstep : ∀ h, Relation.ReflTransGen (WatchStep ex G) ⟨Points.init ι P m answers, .head h⟩
      ⟨Points.init ι P m answers, arrive h (Heap.init.get h)⟩ := fun h =>
    Relation.ReflTransGen.single (WatchStep.walk (V := ⟨_, .head h⟩) rfl)
  exact (hstep .freeTinyZones).trans
    ((hstep .fullTinyZones).trans ((hstep .freeSmallZones).trans (hstep .fullSmallZones)))

/-- What the two threads do: one allocates a large block and releases it. -/
theorem large_run : ∃ W₁ W₂ : BonusWorld,
    bonus.call (.malloc 200000) (BonusWorld.init 4096 (fun _ => 0) highAnswers) =
      some (2 ^ 34 + 48, W₁) ∧
    W₁.world.heap.fullLargeBlocks = 2 ^ 34 ∧
    bonus.call (.free (2 ^ 34 + 48)) W₁ = some (null, W₂) ∧
    W₂.world.os.regions.map Region.base = [2 ^ 33, 2 ^ 32] := by
  have heval : ((do
      let p ← bonus.call (.malloc 200000)
      let W ← Prog.get
      let q ← bonus.call (.free p)
      pure (p, W.world.heap.fullLargeBlocks, q) : B (Nat × Nat × Nat))
        (BonusWorld.init 4096 (fun _ => 0) highAnswers)).map
          (fun r => (r.1, r.2.world.os.regions.map Region.base)) =
      some ((2 ^ 34 + 48, 2 ^ 34, null), [2 ^ 33, 2 ^ 32]) := by decide +kernel
  obtain ⟨⟨r, W₂⟩, hrun, he⟩ := Option.map_eq_some_iff.mp heval
  obtain ⟨p, W₁, h1, hrun⟩ := Prog.bind_eq_some.mp hrun
  obtain ⟨W, W₁', hget, hrun⟩ := Prog.bind_eq_some.mp hrun
  obtain ⟨rfl, rfl⟩ := Prod.mk.inj (Option.some.inj hget)
  obtain ⟨q, W₂', h2, hrun⟩ := Prog.bind_eq_some.mp hrun
  obtain ⟨rfl, rfl⟩ := Prod.mk.inj (Option.some.inj hrun)
  obtain ⟨hvalues, hregions⟩ := Prod.mk.inj he
  obtain ⟨hp, hrest⟩ := Prod.mk.inj hvalues
  obtain ⟨hhead, hq⟩ := Prod.mk.inj hrest
  rw [hp] at h1 h2
  rw [hq] at h2
  exact ⟨_, _, h1, hhead, h2, hregions⟩

/-- The traversal comes to a large block that another thread has allocated. -/
theorem large_reached {H : Watched Bool → Bool → Prop}
    (hH : ∀ S i, H ⟨S, .head .fullLargeBlocks⟩ i) {W₁ : BonusWorld}
    (h1 : bonus.call (.malloc 200000) (BonusWorld.init 4096 (fun _ => 0) highAnswers) =
      some (2 ^ 34 + 48, W₁)) (hhead : W₁.world.heap.fullLargeBlocks = 2 ^ 34) :
    ∃ S : Sys Bool Traced Caller, Points.Reachable 4096 S ∧ S.shared.bonus = W₁ ∧
      S.thread true = ⟨[⟨2 ^ 34 + 48, 200000⟩], none, []⟩ ∧
      Watched.ReachedBy ex H 4096 ⟨S, .node .fullLargeBlocks (2 ^ 34)⟩ := by
  have hS : Points.Reachable 4096 (Points.init Bool 4096 (fun _ => 0) highAnswers) :=
    ⟨validPage_4096, _, _, Relation.ReflTransGen.refl⟩
  have hvalid : (Op.malloc 200000).Valid [] := valid_malloc (by decide)
  obtain ⟨trace, hreach⟩ := hS.alone (i := true) rfl hvalid (fun p s h => by cases h) h1
  refine ⟨_, hS.trans hreach, rfl, Sys.set_thread, validPage_4096, _, _,
    (Watched.walk_empty _ _).trans ((Watched.wait hreach hH).tail ?_)⟩
  refine WatchStep.walk (V := ⟨_, .head .fullLargeBlocks⟩) (w := W₁.world) ?_
  change some (arrive .fullLargeBlocks W₁.world.heap.fullLargeBlocks, W₁.world) = _
  rw [hhead]
  rfl

theorem traversal_safe_sample : ∃ V : Watched Bool, V.ReachedBy false Watched.Spares 4096 ∧
    V.stop = .node .fullLargeBlocks (2 ^ 34) ∧ V.Safe := by
  obtain ⟨W₁, W₂, h1, hhead, -⟩ := large_run
  obtain ⟨S, -, -, -, hV⟩ := large_reached (H := Watched.Spares)
    (fun _ _ _ _ _ _ _ _ _ he => by cases he) h1 hhead
  exact ⟨_, hV, rfl, (traversal_safe hV).1⟩

/-- **A large block is unmapped** while the traversal stands at it. -/
theorem traversal_unmapped :
    ¬∀ V : Watched Bool, V.ReachedBy false (fun _ _ => True) 4096 → V.Safe := by
  intro hall
  obtain ⟨W₁, W₂, h1, hhead, h2, hregions⟩ := large_run
  obtain ⟨S, hS, hshared, hi, hV⟩ := large_reached (H := fun _ _ => True)
    (fun _ _ => trivial) h1 hhead
  rw [← hshared] at h2
  have hvalid : (Op.free (2 ^ 34 + 48)).Valid [⟨2 ^ 34 + 48, 200000⟩] :=
    Or.inr ⟨_, List.mem_cons_self, rfl⟩
  obtain ⟨trace, hreach⟩ := hS.alone hi hvalid (fun p s h => by cases h) h2
  obtain ⟨hP, m, answers, hpath⟩ := hV
  obtain ⟨r, hr, hbase, -⟩ := hall _ ⟨hP, m, answers,
    hpath.trans (Watched.wait hreach fun _ _ => trivial)⟩ _ _ rfl
  have hmem : (2 : Nat) ^ 34 ∈ W₂.world.os.regions.map Region.base :=
    List.mem_map.mpr ⟨r, hr, hbase⟩
  rw [hregions] at hmem
  exact absurd hmem (by decide)

end FtMalloc
