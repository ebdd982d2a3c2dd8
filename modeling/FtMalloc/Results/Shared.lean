import FtMalloc.Results.Accounting
import FtMalloc.Results.Mappings
import FtMalloc.Results.Sequential
import FtMalloc.Run.Turns

/-!
# The heap that threads share (`bonus/src/malloc_bonus.c`, `bonus/src/show_alloc_mem.c`)

Results:
* `mappings_exact`: in every state of either allocator, whichever `mmap` failed, the mappings in
  place are the zones and large blocks of the six lists, each once and with its own length: none is
  lost, and none is given back too early.
* `threads_disciplined`: every `munmap` of any thread names one whole mapping that is in place, and
  leaves nothing behind that any thread owns or the heap refers to.
* `threads_reported`: while no `mmap` fails, between two sections `show_alloc_mem` lists the
  pointers of all threads, each once. As in `Results/Sequential.lean` the sizes are up to
  `PTRDIFF_MAX`.
-/

namespace FtMalloc

open Lib Bonus

variable {P : Nat} {A : AHeap} {W' : BonusWorld} {w : World} {live : List Alloc} {a : Activity}
  {o : Next} {ι : Type} [DecidableEq ι] {S : Sys ι BonusWorld Thread}

/-! ## No mapping is lost -/

/-- The six lists (`malloc.h:66-75`). -/
def Head.all : List Head :=
  [.freeTinyZones, .freeSmallZones, .fullTinyZones, .fullSmallZones, .freeLargeBlocks,
    .fullLargeBlocks]

/-- The mapping `r` is a zone or a large block of the lists, with the length its header has. -/
def World.Lists (w : World) (r : Region) : Prop :=
  (∃ cl, w.InClass cl r.base ∧ r.len = w.zoneSize r.base) ∨
  (r.base ∈ w.nodes .freeLargeBlocks ∨ r.base ∈ w.nodes .fullLargeBlocks) ∧
    r.len = BlockT.sizeof + 8 + ld w.mem 8 (r.base + BlockT.size)

/-- The mappings in place are the zones and large blocks of the lists. No two of them begin at one
address, and no node is listed twice, on one list or on two. -/
structure World.Exact (w : World) : Prop where
  bases : ((Os.outstanding w.os.log).map Region.base).Nodup
  nodes : (Head.all.flatMap w.nodes).Nodup
  listed : ∀ r, r ∈ Os.outstanding w.os.log ↔ w.Lists r

/-- The length of a node's mapping, as its header has it. -/
theorem Rep.mapped_iff (hr : Rep P w A) (r : Region) :
    w.Lists r ↔ ∃ h, r.base ∈ A.lists h ∧ r.len = A.len P h r.base := by
  have hlarge : ∀ {h : Head}, h.cls = none → r.base ∈ A.lists h →
      BlockT.sizeof + 8 + ld w.mem 8 (r.base + BlockT.size) = A.len P h r.base := fun hc hb => by
    rw [(hr.block hc hb).1.size, AHeap.len_of_large hc]
  unfold World.Lists
  rw [hr.nodes_eq, hr.nodes_eq]
  constructor
  · rintro (⟨cl, hz, hlen⟩ | ⟨hb | hb, hlen⟩)
    · have hzone := hr.inClass_iff.mp hz
      obtain ⟨h, hc, hm⟩ := hzone.mem
      exact ⟨h, hm, by rw [hlen, (hr.zone_fields hzone).size, AHeap.len_of_cls hc]⟩
    · exact ⟨_, hb, hlen.trans (hlarge rfl hb)⟩
    · exact ⟨_, hb, hlen.trans (hlarge rfl hb)⟩
  · rintro ⟨h, hm, hlen⟩
    cases hc : h.cls with
    | some cl =>
      have hzone : A.HasZone cl r.base := AHeap.hasZone_of_mem hc hm
      refine Or.inl ⟨cl, hr.inClass_iff.mpr hzone, ?_⟩
      rw [hlen, (hr.zone_fields hzone).size, AHeap.len_of_cls hc]
    | none =>
      refine Or.inr ⟨?_, hlen.trans (hlarge hc hm).symm⟩
      cases h with
      | freeLargeBlocks => exact Or.inl hm
      | fullLargeBlocks => exact Or.inr hm
      | _ => cases hc

/-- No node is on the lists twice. -/
theorem Rep.nodes_nodup (hr : Rep P w A) : (Head.all.flatMap w.nodes).Nodup := by
  refine List.nodup_flatMap.mpr ⟨fun h _ => ?_, ?_⟩
  · rw [hr.nodes_eq]
    exact hr.wf.nodup h
  · have hall : Head.all.Pairwise (· ≠ ·) := by decide
    refine hall.imp fun {h h'} hne x hx hx' => ?_
    rw [hr.nodes_eq] at hx hx'
    exact hne (hr.wf.once hx hx')

theorem Rep.exact (hr : Rep P w A) (hl : A.Listed w.os) : w.Exact := by
  have hsys := hr.backed.system
  refine ⟨?_, hr.nodes_nodup, fun r => ?_⟩
  · rw [← hsys.logged]
    exact hsys.nodup.map_on fun _ hx _ hy => hsys.base_inj hx hy
  · rw [hr.mapped_iff, ← hsys.logged]
    constructor
    · intro hm
      obtain ⟨h, hb⟩ := hl r hm
      refine ⟨h, hb, ?_⟩
      exact congrArg Region.len (hsys.base_inj hm (hr.backed.region hb) rfl)
    · rintro ⟨h, hb, hlen⟩
      obtain ⟨base, len⟩ := r
      obtain rfl : len = A.len P h base := hlen
      exact hr.backed.region hb

/-- **No mapping is lost**, in a run of the mandatory allocator or between the threads of the bonus
one, whichever `mmap` calls fail. -/
theorem mappings_exact [Platform] : (∀ c, Reachable P c → c.state.Exact) ∧
    ∀ {ι : Type} [DecidableEq ι] (S : Sys ι BonusWorld Thread), Threads.Reachable P S →
      S.shared.world.Exact := by
  refine ⟨fun c hc => ?_, fun S hS => ?_⟩
  · obtain ⟨A, hI, hl⟩ := reachable_kept (listed_kept hc.1) hc
    exact hI.rep.exact hl
  · obtain ⟨A, hh, hl⟩ := threads_kept (listed_kept hS.1) hS
    exact hh.rep.exact hl

theorem mappings_exact_sample : (∃ c : Config World, c.live = sampleLive ∧ c.state.Exact) ∧
    ∃ S : Sys Bool BonusWorld Thread,
      (S.thread true).owned = [⟨8589936533, 400⟩, ⟨17179869232, 200000⟩] ∧
      (S.thread false).owned = [⟨34359738416, 4001⟩, ⟨8589935501, 500⟩] ∧
      S.shared.world.Exact := by
  obtain ⟨c, hc, hlive⟩ := reachable_sample
  obtain ⟨S, hS, htrue, hfalse, -⟩ := threads_mixed_sample
  have hreach := Threads.reach_inBounds hS
  exact ⟨⟨c, hlive, mappings_exact.1 c hc⟩, S, htrue, hfalse,
    mappings_exact.2 S ⟨validPage_4096, _, _, hreach⟩⟩

/-! ## Unmapping -/

/-- **The mapping discipline of threads.** A thread that is in a call always has a step to take. A
step of one thread makes at most one `munmap`, of one whole mapping that is in place, and when it is
made no thread owns a byte of it and nothing of the heap is there or points there. -/
theorem threads_disciplined [Platform] (hS : Threads.Reachable P S) :
    (∀ i a, (S.thread i).call = some a → ∃ o W', a.pc.exec S.shared = some (o, W')) ∧
    ∀ S', Sys.Step ThreadStep S S' → ∀ j,
      Disciplined ⟨S.shared.world, (S.thread j).owned⟩ ⟨S'.shared.world, (S'.thread j).owned⟩ := by
  refine ⟨fun i a hc => threads_total hS hc, fun S' hs j => ?_⟩
  have hP := hS.1
  obtain ⟨A, hh⟩ := threads_inv hS
  have hS' : Threads.Reachable P S' := by
    obtain ⟨-, m, answers, hreach⟩ := hS
    exact ⟨hP, m, answers, hreach.tail hs⟩
  obtain ⟨A', hh'⟩ := threads_inv hS'
  have hI' : Inv P ⟨S'.shared.world, (S'.thread j).owned⟩ A' :=
    ⟨hh'.shared.rep, hh'.shared.ok, (hh'.own j).owned⟩
  have hcalls : Os.MapsOnly S.shared.world.os S'.shared.world.os ∨
      ∃ r ∈ S.shared.world.os.regions, S'.shared.world.os = S.shared.world.os.munmap r := by
    obtain ⟨i, hn⟩ := hs
    obtain ⟨A'', hturn, -⟩ := hn.turn hP hh.shared (hh.own i)
    exact hturn.calls hh.shared.sound
  rcases hcalls with hmaps | hun
  · exact hmaps.disciplined
  · exact hI'.disciplined hP .refl hh.shared.rep.backed.system (Or.inr hun)

/-- A step of the call of thread `i`. -/
theorem exec_step [Platform] {i : ι} (hi : S.thread i = ⟨live, some a⟩)
    (hrun : a.pc.exec S.shared = some (o, W')) :
    Sys.Step ThreadStep S (S.set i W' (.settle live a.op a.before o)) :=
  .mk i (hi ▸ .exec hrun)

/-- A thread releases a block of 200000 bytes, which is unmapped. -/
theorem threads_disciplined_sample : ∃ S S' : Sys Bool BonusWorld Thread,
    Sys.Step ThreadStep S S' ∧
    S'.shared.world.os.log = .munmap (2 ^ 34) 200048 :: S.shared.world.os.log ∧
    ∀ j, Disciplined ⟨S.shared.world, (S.thread j).owned⟩
      ⟨S'.shared.world, (S'.thread j).owned⟩ := by
  let answers := [some (2 ^ 32), some (2 ^ 33), some (2 ^ 34)]
  have heval : ((do
      let p ← Bonus.malloc 200000
      let o ← (Pc.freeHeader p).exec
      match o with
      | .done _ => Prog.fault
      | .go pc => do
        let W ← Prog.get
        let _ ← pc.exec
        let W' ← Prog.get
        pure (p, decide (W'.world.os.log = .munmap (2 ^ 34) 200048 :: W.world.os.log)) :
      B (Nat × Bool)) (BonusWorld.init 4096 (fun _ => 0) answers)).map (·.1) =
        some (17179869232, true) := by decide +kernel
  obtain ⟨⟨r, W₃⟩, hrun, rfl⟩ := Option.map_eq_some_iff.mp heval
  obtain ⟨p, W₁, h1, hrun⟩ := Prog.bind_eq_some.mp hrun
  obtain ⟨o, W₂, h2, hrun⟩ := Prog.bind_eq_some.mp hrun
  cases o with
  | done q => cases hrun
  | go pc =>
    obtain ⟨V, W₂', hget, hrun⟩ := Prog.bind_eq_some.mp hrun
    obtain ⟨rfl, rfl⟩ := Prod.mk.inj (Option.some.inj hget)
    obtain ⟨o, W₃', h3, hrun⟩ := Prog.bind_eq_some.mp hrun
    obtain ⟨V', W₃'', hget, hrun⟩ := Prog.bind_eq_some.mp hrun
    obtain ⟨rfl, rfl⟩ := Prod.mk.inj (Option.some.inj hget)
    obtain ⟨he, rfl⟩ := Prod.mk.inj (Option.some.inj hrun)
    obtain ⟨rfl, hlog⟩ := Prod.mk.inj he
    have hS : Threads.Reachable 4096 (Threads.init Bool 4096 (fun _ => 0) answers) :=
      ⟨validPage_4096, _, _, Relation.ReflTransGen.refl⟩
    have hS₁ := hS.malloc (i := true) rfl (by decide) (by decide) (by decide) h1
    have hvalid : (Op.free 17179869232).Valid [⟨17179869232, 200000⟩] :=
      Or.inr ⟨_, List.mem_singleton_self _, rfl⟩
    have hS₂ := hS₁.call (i := true) Sys.set_thread hvalid trivial
    have hS₃ := hS₂.exec (i := true) (a := ⟨_, _, .freeHeader 17179869232⟩) Sys.set_thread h2
    obtain ⟨S, before, hS, rfl, ht⟩ : ∃ (S : Sys Bool BonusWorld Thread) (before : Mem),
        Threads.Reachable 4096 S ∧ S.shared = W₂ ∧
        S.thread true = ⟨[⟨17179869232, 200000⟩], some ⟨.free 17179869232, before, pc⟩⟩ :=
      ⟨_, _, hS₃, rfl, Sys.set_thread⟩
    have hstep := exec_step ht h3
    exact ⟨_, _, hstep, of_decide_eq_true hlog, (threads_disciplined hS).2 _ hstep⟩

/-! ## The report -/

/-- **What `show_alloc_mem` says of threads.** While no `mmap` fails, between two sections it
changes nothing and lists the pointers the threads own, each exactly once. -/
theorem threads_reported [Platform] {m : Mem} {answers : List (Option Nat)} (hP : ValidPage P)
    (hhigh : ∀ b, some b ∈ answers → 2 ^ 32 ≤ b)
    (hS : Sys.Reach (ThreadStepIn Op.InRange) (Threads.init ι P m answers) S)
    (hu : S.shared.world.os.Unrefused) :
    ∃ r, showAllocMem S.shared.world = some (r, S.shared.world) ∧
      (r.lines.map ShowLine.start).Nodup ∧
      ∀ p, p ∈ r.lines.map ShowLine.start ↔ ∃ i, ∃ x ∈ (S.thread i).owned, x.ptr = p :=
  Threads.reported hP hhigh hS hu

theorem threads_reported_sample : ∃ S : Sys Bool BonusWorld Thread,
    (S.thread true).owned = [⟨8589936533, 400⟩, ⟨17179869232, 200000⟩] ∧
    (S.thread false).owned = [⟨34359738416, 4001⟩, ⟨8589935501, 500⟩] ∧
    ∃ r, showAllocMem S.shared.world = some (r, S.shared.world) ∧
      (r.lines.map ShowLine.start).Nodup ∧
      ∀ p, p ∈ r.lines.map ShowLine.start ↔ ∃ i, ∃ x ∈ (S.thread i).owned, x.ptr = p := by
  obtain ⟨S, hS, htrue, hfalse, hlog, -⟩ := threads_mixed_sample
  have hu : S.shared.world.os.Unrefused := fun n hm => by
    rw [hlog] at hm
    simp at hm
  exact ⟨S, htrue, hfalse, threads_reported validPage_4096 highAnswers_high hS hu⟩

end FtMalloc
