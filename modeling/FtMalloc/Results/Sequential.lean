import FtMalloc.Results.Accounting
import FtMalloc.Results.Leaks
import FtMalloc.Results.ThreadTest
import FtMalloc.Run.Sequential

/-!
# Threads of the bonus allocator against one client of `malloc.c`

Results, for addresses from `2 ^ 32` on and sizes from 1 to `PTRDIFF_MAX` (the `realloc` of
`malloc.c` refuses more, `malloc.c:207, 299`, the bonus one does not):
* `threads_sequential`: every interleaving of any number of threads is a run of one client of the
  mandatory allocator, in the order of the sections, with the results the threads got.
* `threads_released`: so nothing is lost between the threads. While no `mmap` fails, once no thread
  owns anything every zone is empty and no large block is in use.
* `threadTest_passes`: while no `mmap` fails, the multithreading test reports PASS, and leaves the
  heap to the other programs on it: the report lists their pointers and no other.
-/

namespace FtMalloc

open Lib Bonus

variable {P : Nat} {A : AHeap} {c c' : Config World} {w w' : World} {l : List (Op × Nat)}
  {s q : Nat}
  {m : Mem} {answers : List (Option Nat)} {ι : Type} [DecidableEq ι] {S : Sys ι BonusWorld Thread}
  {op : Op} {r : Nat × AHeap × Os} {W W' : BonusWorld} {live : List Alloc} {a : Activity}

variable {α : Type} {programs : ι → Client α} {T : Sys ι BonusWorld (Process ι α)}
  {Q : ι → α → Private → Prop}

/-- One thread allocates and releases, another has done nothing. -/
theorem threads_high_sample : ∃ S : Sys Bool BonusWorld Thread,
    Sys.Reach (ThreadStepIn Op.InRange) (Threads.init Bool 4096 (fun _ => 0) highAnswers) S ∧
    (∀ i, (S.thread i).owned = []) ∧ S.shared.world.os.log =
      [.mmap 106496 (some (2 ^ 33)), .mmap 8192 (some (2 ^ 32))] := by
  have heval : ((do
      let p ← Bonus.malloc 24
      Bonus.free p
      pure p : B Nat) (BonusWorld.init 4096 (fun _ => 0) highAnswers)).map
        (fun r => (r.1, r.2.world.os.log)) = some (4294968197,
          [.mmap 106496 (some (2 ^ 33)), .mmap 8192 (some (2 ^ 32))]) := by decide +kernel
  obtain ⟨⟨r, W₂⟩, hrun, he⟩ := Option.map_eq_some_iff.mp heval
  obtain ⟨p, W₁, h1, hrun⟩ := Prog.bind_eq_some.mp hrun
  obtain ⟨u, W₂, h2, hrun⟩ := Prog.bind_eq_some.mp hrun
  obtain ⟨hp, hlog⟩ := Prod.mk.inj he
  obtain ⟨rfl, rfl⟩ := Prod.mk.inj (Option.some.inj hrun)
  obtain rfl : p = 4294968197 := hp
  have hs₁ : Step bonus ⟨BonusWorld.init 4096 (fun _ => 0) highAnswers, []⟩ (.malloc 24) 4294968197
      ⟨W₁, [⟨4294968197, 24⟩]⟩ := ⟨valid_malloc (by decide), h1, rfl⟩
  have hs₂ : Step bonus ⟨W₁, [⟨4294968197, 24⟩]⟩ (.free 4294968197) null ⟨W₂, []⟩ :=
    ⟨Or.inr ⟨_, List.mem_singleton_self _, rfl⟩, Prog.bind_to h2 rfl, rfl⟩
  let S := Threads.init Bool 4096 (fun _ => 0) highAnswers
  have hr₁ := hs₁.reach (R := Op.InRange) (S := S) (i := true) ⟨by decide, by decide⟩ rfl rfl
  have hr₂ := hs₂.reach (R := Op.InRange) (S := S.set true W₁ ⟨[⟨4294968197, 24⟩], none⟩)
    (i := true) trivial Sys.set_thread rfl
  refine ⟨_, hr₁.trans hr₂, fun i => ?_, hlog⟩
  rw [Sys.set_set]
  cases i with
  | true =>
    rw [Sys.set_thread]
    rfl
  | false =>
    rw [Sys.set_thread_ne (by decide)]
    rfl

/-- A test for `Op.InRange`. -/
def inRanges (_ : Config BonusWorld) : Op → Bool
  | .malloc s => decide (1 ≤ s ∧ s ≤ ptrdiffMax)
  | .realloc _ s => decide (1 ≤ s ∧ s ≤ ptrdiffMax)
  | _ => true

theorem inRange_of_inRanges {e : Config BonusWorld} (h : inRanges e op) : op.InRange := by
  cases op with
  | malloc | realloc => exact of_decide_eq_true h
  | free | write => trivial

/-- Two threads with blocks of every class; the tiny one has moved. -/
theorem threads_mixed_sample : ∃ S : Sys Bool BonusWorld Thread,
    Sys.Reach (ThreadStepIn Op.InRange) (Threads.init Bool 4096 (fun _ => 0) highAnswers) S ∧
    (S.thread true).owned = [⟨8589936533, 400⟩, ⟨17179869232, 200000⟩] ∧
    (S.thread false).owned = [⟨34359738416, 4001⟩, ⟨8589935501, 500⟩] ∧
    S.shared.world.os.log = [.mmap 4049 (some 34359738368), .mmap 200048 (some 17179869184),
      .mmap 106496 (some 8589934592), .mmap 8192 (some 4294967296)] ∧
    (S.shared.world.os.regions.all fun r => S.shared.world.os.limit r < 2 ^ 60) := by
  have heval : ((do
      let e ← bonus.eval inRanges [.malloc 24, .malloc 200000]
        ⟨BonusWorld.init 4096 (fun _ => 0) highAnswers, []⟩
      let f ← bonus.eval inRanges [.malloc 500, .malloc 4001] ⟨e.2.state, []⟩
      let g ← bonus.eval inRanges [.realloc 4294968197 400] ⟨f.2.state, e.2.live⟩
      pure (e.1, f, g)) : Option (List (Op × Nat) × (List (Op × Nat) × Config BonusWorld) ×
        List (Op × Nat) × Config BonusWorld)).map (fun r => ((r.2.2.2.live, r.2.1.2.live),
          r.2.2.2.state.world.os.log, r.2.2.2.state.world.os.regions.all fun x =>
            decide (r.2.2.2.state.world.os.limit x < 2 ^ 60))) =
        some (([⟨8589936533, 400⟩, ⟨17179869232, 200000⟩],
            [⟨34359738416, 4001⟩, ⟨8589935501, 500⟩]),
          [.mmap 4049 (some 34359738368), .mmap 200048 (some 17179869184),
            .mmap 106496 (some 8589934592), .mmap 8192 (some 4294967296)], true) := by
    decide +kernel
  obtain ⟨r, hrun, he⟩ := Option.map_eq_some_iff.mp heval
  obtain ⟨⟨t₁, c₁⟩, h1, hrun⟩ := Option.bind_eq_some_iff.mp hrun
  obtain ⟨⟨t₂, c₂⟩, h2, hrun⟩ := Option.bind_eq_some_iff.mp hrun
  obtain ⟨⟨t₃, c₃⟩, h3, hrun⟩ := Option.bind_eq_some_iff.mp hrun
  obtain rfl := Option.some.inj hrun
  obtain ⟨hlive, hlog, hshort⟩ : (c₃.live, c₂.live) = _ ∧ c₃.state.world.os.log = _ ∧ _ :=
    ⟨(Prod.mk.inj he).1, (Prod.mk.inj (Prod.mk.inj he).2).1, (Prod.mk.inj (Prod.mk.inj he).2).2⟩
  obtain ⟨hlive₃, hlive₂⟩ := Prod.mk.inj hlive
  have hcheck : ∀ (e : Config BonusWorld) op, inRanges e op → op.InRange :=
    fun _ _ => inRange_of_inRanges
  let S := Threads.init Bool 4096 (fun _ => 0) highAnswers
  let S₁ := S.set true c₁.state ⟨c₁.live, none⟩
  let S₂ := S₁.set false c₂.state ⟨c₂.live, none⟩
  have hr₁ := (Api.eval_run hcheck h1).reach (S := S) (i := true) rfl rfl
  have hr₂ := (Api.eval_run hcheck h2).reach (S := S₁) (i := false) rfl rfl
  have hr₃ := (Api.eval_run hcheck h3).reach (S := S₂) (i := true) rfl rfl
  exact ⟨_, (hr₁.trans hr₂).trans hr₃, hlive₃, hlive₂, hlog, hshort⟩

/-- **Threads are one client.** The sections of an interleaving, in their order, are a run of one
client of `malloc.c`, and the client has what the threads have together. The heap is the client's
too, except between the setup and the first section after it, when the client has not called yet. -/
theorem threads_sequential [Platform]
    (hP : ValidPage P) (hhigh : ∀ b, some b ∈ answers → 2 ^ 32 ≤ b)
    (ht : Threads.History (Threads.init ι P m answers) l S) :
    ∃ c, Run mandatory ⟨World.init P m answers, []⟩ l c ∧
      (∀ x, x ∈ c.live ↔ ∃ i, x ∈ (S.thread i).owned) ∧
      (c.state = S.shared.world ∨ c.live = [] ∧ c.state.heap.initialized = 0 ∧
        ensureSetup c.state = some (0, S.shared.world)) := by
  obtain ⟨c, hrun, hc, hlive⟩ := ht.sequential hP hhigh
  obtain ⟨A, hI⟩ := reachable_inv ⟨hP, m, answers, l, hrun⟩
  refine ⟨c, hrun, hlive, hc.imp_right fun h => ⟨?_, h.1, h.2.2⟩⟩
  refine List.eq_nil_iff_forall_not_mem.mpr fun x hx => ?_
  obtain ⟨k, hk, -⟩ := hI.owned.cell x hx
  exact absurd h.1 (hI.rep.initialized_ne.mpr (hI.ok.initialized_of_holds hk))

theorem threads_sequential_sample : ∃ (S : Sys Bool BonusWorld Thread) (l : List (Op × Nat))
    (c : Config World), Threads.History (Threads.init Bool 4096 (fun _ => 0) highAnswers) l S ∧
    (S.thread true).owned ≠ [] ∧ (S.thread false).owned ≠ [] ∧
    Run mandatory ⟨World.init 4096 (fun _ => 0) highAnswers, []⟩ l c ∧
    (c.state = S.shared.world ∨ c.live = [] ∧ c.state.heap.initialized = 0 ∧
      ensureSetup c.state = some (0, S.shared.world)) := by
  obtain ⟨S, hS, htrue, hfalse, -⟩ := threads_mixed_sample
  obtain ⟨l, ht⟩ := Threads.exists_history hS
  obtain ⟨c, hrun, -, hc⟩ := threads_sequential validPage_4096 highAnswers_high ht
  exact ⟨S, l, c, ht, by simp [htrue], by simp [hfalse], hrun, hc⟩

/-! ## Nothing is lost between threads -/

/-- The heap of the threads keeps the books that the client's does. -/
theorem Caught.accounted (hP : ValidPage P) (hI : Inv P c A) (ha : Accounted P A c.live)
    (hc : Caught c.state w) : ∃ A', Inv P ⟨w, c.live⟩ A' ∧ Accounted P A' c.live := by
  rcases hc with rfl | ⟨-, -, hset⟩
  · exact ⟨A, hI, ha⟩
  · obtain ⟨w', hrun, hos, hr, -⟩ := ensureSetup_run hP hI.rep
    obtain ⟨-, rfl⟩ := Prod.mk.inj (Option.some.inj (hset.symm.trans hrun))
    obtain ⟨hs, hg⟩ := AHeap.ready_sound hP hI.sound
    refine ⟨_, ⟨hr, hs.ok, hI.owned.mono fun hk => ⟨hg.held hk, hg.cap (hI.ok.toWf.hasCell hk)⟩⟩,
      fun k hk => ?_⟩
    obtain ⟨n, hn⟩ := AHeap.holds_iff_records.mp hk
    exact ha k (AHeap.ready_records hn).holds

/-- The kernel refused the client nothing when it refused the threads nothing. -/
theorem Caught.unrefused (hP : ValidPage P) (hI : Inv P c A) (hc : Caught c.state w)
    (hu : w.os.Unrefused) : c.state.os.Unrefused := by
  rcases hc with rfl | ⟨-, -, hset⟩
  · exact hu
  · obtain ⟨w', hrun, hos, -⟩ := ensureSetup_run hP hI.rep
    obtain ⟨-, rfl⟩ := Prod.mk.inj (Option.some.inj (hset.symm.trans hrun))
    exact (hos ▸ hu).of_since AHeap.ready_mapsOnly.since

/-- What the threads have is what the heap holds. -/
theorem Threads.accounted [Platform] (hP : ValidPage P) (hhigh : ∀ b, some b ∈ answers → 2 ^ 32 ≤ b)
    (hS : Sys.Reach (ThreadStepIn Op.InRange) (Threads.init ι P m answers) S)
    (hu : S.shared.world.os.Unrefused) : ∃ live A, Inv P ⟨S.shared.world, live⟩ A ∧
      Accounted P A live ∧ ∀ x, x ∈ live ↔ ∃ i, x ∈ (S.thread i).owned := by
  obtain ⟨l, ht⟩ := Threads.exists_history hS
  obtain ⟨c, hrun, hc, hlive⟩ := ht.sequential hP hhigh
  obtain ⟨A₀, hI₀⟩ := reachable_inv ⟨hP, m, answers, l, hrun⟩
  obtain ⟨A, hI, ha⟩ := unrefused_inv hP hrun (hc.unrefused hP hI₀ hu)
  obtain ⟨A', hI', ha'⟩ := hc.accounted hP hI ha
  exact ⟨c.live, A', hI', ha', hlive⟩

/-- While no `mmap` fails, the report lists the pointers of the threads, each once. -/
theorem Threads.reported [Platform] (hP : ValidPage P) (hhigh : ∀ b, some b ∈ answers → 2 ^ 32 ≤ b)
    (hS : Sys.Reach (ThreadStepIn Op.InRange) (Threads.init ι P m answers) S)
    (hu : S.shared.world.os.Unrefused) :
    ∃ r, showAllocMem S.shared.world = some (r, S.shared.world) ∧
      (r.lines.map ShowLine.start).Nodup ∧
      ∀ p, p ∈ r.lines.map ShowLine.start ↔ ∃ i, ∃ x ∈ (S.thread i).owned, x.ptr = p := by
  obtain ⟨live, A, hI, ha, hlive⟩ := Threads.accounted hP hhigh hS hu
  refine ⟨_, showAllocMem_run hP hI.rep, ?_, fun p => ?_⟩
  · rw [report_starts]
    exact hI.sound.addrs_nodup hP
  · rw [report_starts, List.mem_map]
    constructor
    · rintro ⟨k, hk, rfl⟩
      obtain ⟨x, hx, hxk⟩ := ha k (hI.ok.toWf.mem_heldCells.mp hk)
      obtain ⟨i, hi⟩ := (hlive x).mp hx
      exact ⟨i, x, hi, hxk⟩
    · rintro ⟨i, x, hx, rfl⟩
      obtain ⟨k, hk, hkx, -⟩ := hI.owned.cell x ((hlive x).mpr ⟨i, hx⟩)
      exact ⟨k, hI.ok.toWf.mem_heldCells.mpr hk, hkx⟩

theorem Threads.released [Platform] (hP : ValidPage P) (hhigh : ∀ b, some b ∈ answers → 2 ^ 32 ≤ b)
    (hS : Sys.Reach (ThreadStepIn Op.InRange) (Threads.init ι P m answers) S)
    (hu : S.shared.world.os.Unrefused) (hend : ∀ i, (S.thread i).owned = []) :
    S.shared.world.Released := by
  obtain ⟨live, A, hI, ha, hlive⟩ := Threads.accounted hP hhigh hS hu
  refine hI.released hP ha (List.eq_nil_iff_forall_not_mem.mpr fun x hx => ?_)
  obtain ⟨i, hi⟩ := (hlive x).mp hx
  rw [hend i] at hi
  exact List.not_mem_nil hi

/-- **Threads lose nothing.** While no `mmap` fails, in every state in which no thread owns
anything, every zone is empty, no zone is on a full list and no large block is in use. -/
theorem threads_released [Platform] (hP : ValidPage P) (hhigh : ∀ b, some b ∈ answers → 2 ^ 32 ≤ b)
    (hS : Sys.Reach (ThreadStepIn Op.InRange) (Threads.init ι P m answers) S)
    (hu : S.shared.world.os.Unrefused) (hend : ∀ i, (S.thread i).owned = []) :
    S.shared.world.Released :=
  Threads.released hP hhigh hS hu hend

theorem threads_released_sample : ∃ S : Sys Bool BonusWorld Thread,
    Sys.Reach (ThreadStepIn Op.InRange) (Threads.init Bool 4096 (fun _ => 0) highAnswers) S ∧
    S.shared.world.os.log ≠ [] ∧ S.shared.world.Released := by
  obtain ⟨S, hS, hend, hlog⟩ := threads_high_sample
  have hu : S.shared.world.os.Unrefused := fun n hm => by
    rw [hlog] at hm
    simp at hm
  exact ⟨S, hS, by simp [hlog], threads_released validPage_4096 highAnswers_high hS hu hend⟩

/-! ## Nothing is refused -/

/-- One call in which no `mmap` fails leaves a zone to serve each class from. -/
theorem EffectOf.stocked (hP : ValidPage P) (hI : Inv P c A) (hst : A.Stocked)
    (he : Effect P A c.state.os op r) (hu : r.2.2.Unrefused) : r.2.1.Stocked := by
  have hs := hI.sound
  cases he with
  | malloc s => exact AHeap.malloc_stocked hP hs hst (AHeap.not_lastTaken hs hu)
  | freeNull => exact hst
  | free hk => exact AHeap.free_stocked hP hs hst hk
  | reallocNull s => exact AHeap.malloc_stocked hP hs hst (AHeap.not_lastTaken hs hu)
  | realloc s hk =>
    exact AHeap.realloc_stocked hP hs hst hk (AHeap.not_lastTaken_realloc hP hs hk hu)
  | write => exact hst

/-- A `malloc` that the kernel refuses nothing returns a block. -/
theorem Inv.malloc_served [Platform] (hP : ValidPage P) (hI : Inv P c A) (hst : A.Stocked)
    (hsize : ¬(s = 0 ∨ s > ptrdiffMax)) (hu : c'.state.os.Unrefused)
    (hs : Step mandatory c (.malloc s) q c') : q ≠ null := by
  obtain ⟨w', hrun, hos, -⟩ := malloc_call hP hI s
  obtain ⟨rfl, rfl⟩ := Prod.mk.inj (Option.some.inj (hrun.symm.trans hs.run))
  intro h0
  have hsince : c.state.os.Since c'.state.os := hos ▸ AHeap.malloc_mapsOnly.since
  obtain ⟨calls, hcalls⟩ := hsince
  have hgranted : c.state.os.AllGranted (A.malloc P c.state.os s).2.2 :=
    ⟨calls, hos ▸ hcalls, fun n hn => hu n (hcalls ▸ List.mem_append_left _ hn)⟩
  obtain ⟨hi, cl, -, hl⟩ := (AHeap.denied_of_null hP hI.sound h0).of_granted hgranted hsize
  exact hst hi cl hl

/-- **While no `mmap` fails, no request within the limits is refused.** -/
theorem Run.served [Platform]
    (hP : ValidPage P) (hrun : Run mandatory ⟨World.init P m answers, []⟩ l c)
    (hu : c.state.os.Unrefused) : (∃ A, Inv P c A ∧ A.Stocked) ∧
      ∀ s, 1 ≤ s → s ≤ ptrdiffMax → (.malloc s, null) ∉ l := by
  induction hrun with
  | nil => exact ⟨⟨_, init_inv hP, fun h => by cases h⟩, fun _ _ _ => List.not_mem_nil⟩
  | @snoc t c₁ c₂ op q _ _ hs ih =>
    obtain ⟨A, hI⟩ := reachable_inv ⟨hP, m, answers, t, ‹_›⟩
    obtain ⟨r, he, -, hos, -⟩ := step_effect hP hI hs
    obtain ⟨⟨A, hI, hst⟩, hnone⟩ := ih ((hos ▸ hu : r.2.2.Unrefused).of_since (he.since hP hI))
    obtain ⟨r, he, rfl, hos, hI'⟩ := step_effect hP hI hs
    refine ⟨⟨_, hI', he.stocked hP hI hst (hos ▸ hu)⟩, fun s h1 h2 hm => ?_⟩
    rcases List.mem_append.mp hm with hm | hm
    · exact hnone s h1 h2 hm
    · obtain ⟨rfl, hq⟩ := Prod.mk.inj (List.mem_singleton.mp hm)
      exact hI.malloc_served hP hst (by omega) hu hs hq.symm

/-- A request that is refused is a `malloc` that is. -/
theorem acts_refused [Platform]
    (hP : ValidPage P) (hI : HeapInv P A W) (ht : ThreadInv P A W ⟨live, some a⟩)
    (hop : a.op.InRange) (hrun : a.pc.exec W = some (.done q, W'))
    (hr : a.op.refused q = true) :
    ∃ s, 1 ≤ s ∧ s ≤ ptrdiffMax ∧ (.malloc s, null) ∈ a.pc.acts W (.done q) := by
  -- only a request that returns NULL is refused, and the address of a cell is not NULL
  have hresized : ∀ {p s q : Nat}, (Op.realloc p s).refused q = true → q = null :=
    fun h => of_decide_eq_true h
  have hcell : ∀ {k : Cell} {s : Nat} {p : Nat}, A.Holds k →
      ¬(Op.realloc p s).refused (k.addr P) = true := fun hk h =>
    hI.rep.addr_ne_zero hP (hI.rep.wf.hasCell hk) (hresized h)
  obtain ⟨A', hd⟩ := exec_did hP hI ht hrun
  cases hd with
  | store | skip | freeBlock => cases hr
  | setupFailed hm => exact ⟨_, hm.2.1, hm.2.2, List.mem_cons_self⟩
  | alloc hm =>
    have hq : q = null := by
      rcases hm.1 with rfl | rfl
      · exact of_decide_eq_true hr
      · exact hresized hr
    subst hq
    exact ⟨_, hm.2.1, hm.2.2, List.mem_cons_self⟩
  | fits hfits => exact absurd hr (hcell hfits.held)
  | growFailed => exact ⟨_, hop.1, hop.2, List.mem_cons_self⟩
  | release hv => exact absurd hr (hcell hv.target)

/-! ## Programs -/

/-- The threads that run the programs. -/
def Programs.threads {α : Type} (S : Sys ι BonusWorld (Process ι α)) : Sys ι BonusWorld Thread :=
  ⟨S.shared, fun i => (S.thread i).thread⟩

theorem Programs.threads_set {i : ι} {pr : Process ι α} :
    Programs.threads (T.set i W pr) = (Programs.threads T).set i W pr.thread :=
  congrArg (Sys.mk W) (funext fun j => by
    by_cases h : j = i
    · subst h
      simp [Sys.set]
    · simp [Sys.set, Programs.threads, h])

/-- Each refused request of a program is a `malloc` that returned NULL. -/
def Explains (l trace : List (Op × Nat)) : Prop :=
  ∀ e ∈ trace, e.1.refused e.2 = true → ∃ s, 1 ≤ s ∧ s ≤ ptrdiffMax ∧ (.malloc s, null) ∈ l

theorem Explains.mono {l l' tr : List (Op × Nat)} (h : Explains l tr) (hsub : l ⊆ l') :
    Explains l' tr := fun e he hr => by
  obtain ⟨s, h1, h2, hmem⟩ := h e he hr
  exact ⟨s, h1, h2, hsub hmem⟩

/-- **The interleaving behind the programs.** -/
theorem Programs.history [Platform]
    (hP : ValidPage P) (hm : ∀ i, (programs i).Meets (Q i) Private.empty)
    (hT : Sys.Reach ProcessStep (Programs.init P m answers programs) T) :
    ∃ l, Threads.History (Threads.init ι P m answers) l (Programs.threads T) ∧
      ∀ i, Explains l (T.thread i).trace := by
  induction hT with
  | refl => exact ⟨[], .nil, fun i e he => absurd he List.not_mem_nil⟩
  | @tail T₁ T₂ hT hs ih =>
    obtain ⟨l, ht, hl⟩ := ih
    obtain ⟨A, hI, hown, -⟩ := programs_inv ⟨hP, m, answers, hT⟩ hm
    obtain ⟨i, hn⟩ := hs
    have hi : (Programs.threads T₁).thread i = (T₁.thread i).thread := rfl
    have hpi := hown i
    have hli := hl i
    rw [Programs.threads_set]
    generalize T₁.thread i = pr at hn hi hpi hli
    obtain ⟨hthread, h, hv, -, hf⟩ := hpi
    have hall : ∀ {l' s pr'}, l ⊆ l' → Explains l' pr'.trace →
        ∀ j, Explains l' ((T₁.set i s pr').thread j).trace := by
      intro l' s pr' hsub hnew j
      by_cases hj : j = i
      · subst hj
        rwa [Sys.set_thread]
      · rw [Sys.set_thread_ne hj]
        exact (hl j).mono hsub
    cases hn with
    | @call _ _ live op k =>
      obtain ⟨hvalid, hrange⟩ := hf.1.valid hv
      rw [Process.resume_thread]
      refine ⟨l, ht.call hi hvalid hrange, hall (List.Subset.refl l) fun e he hr => ?_⟩
      rcases Process.mem_resume_trace he with he | ⟨q, hstart, rfl⟩
      · exact hli e he hr
      · obtain ⟨rfl, -⟩ := start_done hrange.inBounds hstart
        cases hr
    | exec hrun =>
      rw [Process.resume_thread]
      have hsub : ∀ {l'}, l ⊆ l ++ l' := fun {l'} => List.subset_append_left l l'
      refine ⟨_, ht.exec hi hrun, hall hsub fun e he hr => ?_⟩
      rcases Process.mem_resume_trace he with he | ⟨q, rfl, rfl⟩
      · exact hli.mono hsub e he hr
      · obtain ⟨s, h1, h2, hmem⟩ := acts_refused hP hI hthread (ht.inRange i _ (hi ▸ rfl)) hrun hr
        exact ⟨s, h1, h2, List.mem_append_right _ hmem⟩
    | read hrun =>
      obtain ⟨x, -, -, -, hfetch⟩ := readBlock_run hP hI hthread.owned hv hf.1
      obtain ⟨-, rfl⟩ := Prod.mk.inj (Option.some.inj (hrun.symm.trans hfetch))
      have hsame : (Programs.threads T₁).set i T₁.shared ((Programs.threads T₁).thread i) =
          Programs.threads T₁ := Sys.set_self
      rw [hi] at hsame
      exact ⟨l, Eq.mpr (congrArg (Threads.History _ l) hsame) ht, hall (List.Subset.refl l) hli⟩

/-! ## The test -/

/-- No request of a program is refused while no `mmap` fails. -/
theorem Programs.served [Platform]
    (hP : ValidPage P) (hhigh : ∀ b, some b ∈ answers → 2 ^ 32 ≤ b)
    (hm : ∀ i, (programs i).Meets (Q i) Private.empty)
    (hT : Sys.Reach ProcessStep (Programs.init P m answers programs) T)
    (hu : T.shared.world.os.Unrefused) :
    (∃ l, Threads.History (Threads.init ι P m answers) l (Programs.threads T)) ∧
      ∀ i, ∀ e ∈ (T.thread i).trace, ¬e.1.refused e.2 = true := by
  obtain ⟨l, ht, hexplains⟩ := Programs.history hP hm hT
  obtain ⟨c, hrun, hc, -⟩ := ht.sequential hP hhigh
  obtain ⟨A, hI⟩ := reachable_inv ⟨hP, m, answers, l, hrun⟩
  obtain ⟨-, hserved⟩ := Run.served hP hrun (hc.unrefused hP hI hu)
  refine ⟨⟨l, ht⟩, fun i e he hr => ?_⟩
  obtain ⟨s, h1, h2, hmem⟩ := hexplains i e he hr
  exact hserved s h1 h2 hmem

/-- **The test passes.** While no `mmap` fails, and whatever the order in which the threads of the
test and the other programs run: a thread of the test goes on, or has ended with no error and
nothing printed (`test_bonus.c:119-121`). Once the threads of a phase have ended they have left
nothing behind: `show_alloc_mem` lists the pointers of the other threads, each once, and when these
own nothing either, every zone is empty and no large block is in use. -/
theorem threadTest_passes [Platform] {programs : ι → Client (Option ThreadArg)}
    {T : Sys ι BonusWorld (Process ι (Option ThreadArg))} {phase : ι → Prop} (hP : ValidPage P)
    (hhigh : ∀ b, some b ∈ answers → 2 ^ 32 ≤ b)
    (hphase : ∀ i, phase i → ∃ id, TestThread id (programs i))
    (hm : ∀ i, (programs i).Meets (fun _ _ => True) .empty)
    (hT : Sys.Reach ProcessStep (Programs.init P m answers programs) T)
    (hu : T.shared.world.os.Unrefused) :
    (∀ i, phase i → (∃ W' pr', ProcessStep T.shared (T.thread i) W' pr') ∨
      ∃ targ, (T.thread i).Passed targ ∧ targ.errors = 0 ∧ targ.printed = []) ∧
    ((∀ i, phase i → ∃ r, (T.thread i).client = .ret r) →
      (∃ r, showAllocMem T.shared.world = some (r, T.shared.world) ∧
        (r.lines.map ShowLine.start).Nodup ∧
        ∀ p, p ∈ r.lines.map ShowLine.start ↔
          ∃ i, ¬phase i ∧ ∃ x ∈ (T.thread i).thread.owned, x.ptr = p) ∧
      ((∀ i, ¬phase i → (T.thread i).thread.owned = []) → T.shared.world.Released)) := by
  have hT' : Programs.Reachable P programs T := ⟨hP, m, answers, hT⟩
  obtain ⟨⟨l, ht⟩, hnone⟩ := Programs.served hP hhigh (fun i => meets_testEnded (hm i)) hT hu
  refine ⟨fun i hi => ?_, fun hret => ?_⟩
  · obtain ⟨id, hid⟩ := hphase i hi
    refine (test_progress hm hT' hid).imp_right fun ⟨targ, hp⟩ => ?_
    have herr : targ.errors = 0 := hp.errors.trans (List.countP_eq_zero.mpr (hnone i))
    have hprinted := hp.counted
    exact ⟨targ, hp, herr, List.eq_nil_of_length_eq_zero (by omega)⟩
  · have hempty : ∀ i, phase i → (T.thread i).thread.owned = [] := fun i hi => by
      obtain ⟨id, hid⟩ := hphase i hi
      obtain ⟨r, hr⟩ := hret i hi
      obtain ⟨targ, -, hp⟩ := test_passed hm hT' hid hr
      exact congrArg Thread.owned hp.idle
    refine ⟨?_, fun hothers => ?_⟩
    · obtain ⟨r, hrun, hnodup, hlist⟩ := Threads.reported hP hhigh ht.reach hu
      refine ⟨r, hrun, hnodup, fun p => (hlist p).trans (exists_congr fun i => ?_)⟩
      refine (and_iff_right_of_imp fun ⟨x, hx, _⟩ hi => ?_).symm
      have hx : x ∈ (T.thread i).thread.owned := hx
      rw [hempty i hi] at hx
      exact List.not_mem_nil hx
    · refine Threads.released hP hhigh ht.reach hu fun i => ?_
      by_cases hi : phase i
      · exact hempty i hi
      · exact hothers i hi

/-- After the second phase, with two blocks of another program in place. -/
theorem threadTest_passes_sample :
    ∃ T : Sys (Fin 3) BonusWorld (Process (Fin 3) (Option ThreadArg)),
      (∀ i ≠ 0, ∃ targ, (T.thread i).Passed targ ∧ targ.errors = 0 ∧ targ.printed = []) ∧
      ∃ r, showAllocMem T.shared.world = some (r, T.shared.world) ∧
        (r.lines.map ShowLine.start).Nodup ∧
        ∀ p, p ∈ r.lines.map ShowLine.start ↔ p = 17179869232 ∨ p = 4294968197 := by
  obtain ⟨T, hT, hkept, ⟨targ₁, h1⟩, ⟨targ₂, h2⟩, hlog⟩ := test_sample
  have hu : T.shared.world.os.Unrefused := fun n hm => by
    rw [hlog] at hm
    simp at hm
  have hret : ∀ i : Fin 3, i ≠ 0 → ∃ r, (T.thread i).client = .ret r := fun i hi => by
    match i with
    | 0 => exact absurd rfl hi
    | 1 => exact ⟨_, h1⟩
    | 2 => exact ⟨_, h2⟩
  have hphase : ∀ i : Fin 3, i ≠ 0 → ∃ id, TestThread id (samplePrograms i) := fun i hi => by
    match i with
    | 0 => exact absurd rfl hi
    | 1 => exact ⟨3, .realloc⟩
    | 2 => exact ⟨3, .realloc⟩
  obtain ⟨hends, hreport⟩ := threadTest_passes validPage_4096 highAnswers_high hphase
    samplePrograms_meet hT hu
  obtain ⟨⟨r, hrun, hnodup, hlist⟩, -⟩ := hreport hret
  refine ⟨T, fun i hi => (hends i hi).resolve_left ?_, r, hrun, hnodup, fun p => ?_⟩
  · rintro ⟨W', pr', hs⟩
    obtain ⟨r', hr'⟩ := hret i hi
    exact Process.not_step hr' hs
  · simp [hlist, hkept, Thread.owned, eq_comm]

end FtMalloc
