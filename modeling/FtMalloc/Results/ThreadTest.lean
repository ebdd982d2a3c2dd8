import FtMalloc.Results.Clients
import FtMalloc.Results.Refinement
import FtMalloc.Run.Alone
import FtMalloc.Source.ThreadTest

/-!
# The multithreading test (`bonus/src/test_bonus.c:11-139`)

`test_multithreading` starts eight threads of `thread_alloc_free` and, when they have ended, eight
of `thread_realloc`, with the same numbers. `main` has called the allocator before
(`test_bonus.c:143-181`), still owns blocks of it and may go on, and so may the C library for its
buffers. So a thread of the test (`TestThread`) is one of any number of programs over one heap,
which other threads of either phase, with any numbers, and any other client programs use too.

The two functions are right over a private heap (`meets_threadAllocFree`, `meets_threadRealloc`), so
by `programs_progress` they are among any such programs:

* `threadTest_uncorrupted`: no thread of the test ever prints a corruption; each ends owning
  nothing, with one error for each request that was refused; and a phase reports PASS exactly when
  none of its requests was.
-/

namespace FtMalloc

open Lib Dialogue Bonus

variable {P : Nat} {h h' : Private} {bs : List Block} {b : Block} {v : Byte} {lo k n id i j : Nat}
  {slots : List (Nat × Nat)} {targ : ThreadArg} {s : Allocs}

/-! ## The loops -/

/-- A loop over bytes that are all as expected finds nothing. -/
theorem meets_firstMismatch {Q : Option (Nat × Byte) → Private → Prop} (hb : b ∈ h.blocks)
    (hall : ∀ j, lo ≤ j → j < lo + k → b.bytes[j]? = some v) (hQ : Q none h) :
    (firstMismatch b.ptr v lo k).Meets Q h := by
  induction k generalizing lo with
  | zero => exact hQ
  | succ k ih =>
    refine wp_bind.mpr (Client.meets_fetch hb (hall lo (Nat.le_refl lo) (by omega)) ?_)
    rw [if_neg (not_not_intro rfl)]
    exact ih fun j h1 h2 => hall j (by omega) (by omega)

/-- The blocks that the allocations from the index `i` on have to be. -/
def filled (id : Nat) : Nat → List (Nat × Nat) → List Block
  | _, [] => []
  | i, (ptr, size) :: rest =>
    if ptr = null then filled id (i + 1) rest
    else ⟨ptr, List.replicate size (bytePattern id i)⟩ :: filled id (i + 1) rest

theorem filled_snoc (slot : Nat × Nat) : filled id i (slots ++ [slot]) =
    filled id i slots ++ filled id (i + slots.length) [slot] := by
  induction slots generalizing i with
  | nil => rfl
  | cons head rest ih =>
    obtain ⟨ptr, size⟩ := head
    simp only [List.cons_append, filled, ih, List.length_cons]
    rw [show i + 1 + rest.length = i + (rest.length + 1) by omega]
    split
    · rfl
    · rfl

/-- The second loop finds every byte as it was written. -/
theorem meets_checkRounds (hall : ∀ b ∈ filled id i slots, b ∈ h.blocks) :
    (checkRounds id i slots targ).Meets (fun r h' => r = targ ∧ h' = h) h := by
  induction slots generalizing i with
  | nil => exact ⟨rfl, rfl⟩
  | cons slot rest ih =>
    obtain ⟨ptr, size⟩ := slot
    simp only [filled] at hall
    rw [checkRounds]
    split at hall
    · rename_i h0
      rw [if_pos h0]
      exact ih hall
    · rename_i h0
      rw [if_neg h0]
      have hb := hall _ List.mem_cons_self
      refine wp_bind.mpr (meets_firstMismatch hb (fun j _ hj => ?_) ?_)
      · rw [List.getElem?_replicate, if_pos (by omega)]
      · exact ih fun b hb => hall b (List.mem_cons_of_mem _ hb)

/-- The third loop releases every block. -/
theorem meets_freeRounds (hall : h.blocks = (filled id i slots).reverse) :
    (freeRounds slots).Meets (fun _ h' => h'.blocks = [] ∧ h'.refusals = h.refusals) h := by
  induction slots generalizing i h with
  | nil => exact ⟨hall, rfl⟩
  | cons slot rest ih =>
    obtain ⟨ptr, size⟩ := slot
    simp only [filled] at hall
    rw [freeRounds]
    split at hall
    · rename_i h0
      rw [if_neg (not_not_intro h0)]
      exact ih hall
    · rename_i h0
      rw [if_pos h0]
      rw [List.reverse_cons] at hall
      have hsep := h.separate
      rw [hall] at hsep
      refine wp_bind.mpr (Client.meets_free (Or.inr ⟨⟨ptr, List.replicate size (bytePattern id i)⟩,
        by simp [hall], rfl⟩) fun h' hb' hr' => ?_)
      have hrest : h'.blocks = (filled id (i + 1) rest).reverse := by
        rw [hb', hall]
        exact Block.drop_snoc hsep
      exact wp_mono (ih hrest) fun _ h'' hf => ⟨hf.1, hf.2.trans hr'⟩

/-! ## The threads -/

/-- What a thread of the test ends with: it counted the requests that were refused, printed at most
a line for each and no corruption, and released every block. -/
structure Passed (targ : ThreadArg) (h : Private) : Prop where
  errors : targ.errors = h.refusals
  printed : ∀ line ∈ targ.printed, ∃ id size i, line = .failed id size i
  counted : targ.printed.length ≤ targ.errors
  released : h.blocks = []

theorem sizePattern_range (id i : Nat) : 1 ≤ sizePattern id i ∧ sizePattern id i ≤ ptrdiffMax := by
  have hall : ∀ r < 9, 1 ≤ sizePatterns.getD r 0 ∧ sizePatterns.getD r 0 ≤ 4096 := by decide
  obtain ⟨h1, h2⟩ := hall _ (Nat.mod_lt (id + i) (by decide))
  exact ⟨h1, h2.trans (by decide)⟩

/-- The first loop: the blocks so far are as written, and each refusal is counted. -/
structure Filling (id i : Nat) (s : Allocs) (h : Private) : Prop where
  count : s.slots.length = i
  blocks : h.blocks = (filled id 0 s.slots).reverse
  errors : s.targ.errors = h.refusals
  printed : ∀ line ∈ s.targ.printed, ∃ id size i, line = .failed id size i
  counted : s.targ.printed.length ≤ s.targ.errors

theorem meets_allocRound (hf : Filling id i s h) :
    (allocRound id i s).Meets (Filling id (i + 1)) h := by
  obtain ⟨hcount, hblocks, herrors, hprinted, hcounted⟩ := hf
  obtain ⟨h1, h2⟩ := sizePattern_range id i
  have hsnoc : ∀ q, (filled id 0 (s.slots ++ [(q, sizePattern id i)])).reverse =
      (filled id i [(q, sizePattern id i)]).reverse ++ h.blocks := by
    intro q
    rw [filled_snoc, List.reverse_append, Nat.zero_add, hcount, hblocks]
  refine wp_bind.mpr (Client.meets_malloc h1 h2 (fun h' hb hr => ?_)
    fun q bytes h' hq hlen hb hr => ?_)
  · rw [if_pos rfl]
    refine ⟨by simp [hcount], ?_, ?_, fun line hline => ?_,
      by simpa [ThreadArg.print, ThreadArg.fail] using hcounted⟩
    · rw [hsnoc, hb]
      simp [filled]
    · rw [hr, ← herrors]
      rfl
    · rcases List.mem_append.mp hline with hline | hline
      · exact hprinted line hline
      · exact ⟨id, _, i, List.mem_singleton.mp hline⟩
  · rw [if_neg hq, ← hlen]
    refine wp_bind.mpr (Client.meets_memset hb fun h'' hb' hr' => ?_)
    refine ⟨by simp [hcount], ?_, ?_, hprinted, hcounted⟩
    · rw [hlen] at hb' ⊢
      rw [hsnoc, hb']
      simp [filled, hq]
    · rw [hr', hr, ← herrors]

/-- **`thread_alloc_free` over a private heap.** -/
theorem meets_threadAllocFree (id : Nat) :
    (threadAllocFree (.start id)).Meets Passed .empty := by
  have hstart : Filling id 0 ⟨[], .start id⟩ .empty :=
    ⟨rfl, rfl, rfl, fun line hline => absurd hline List.not_mem_nil, Nat.le_refl 0⟩
  refine wp_bind.mpr (wp_mono (wp_loop (Filling id) hstart fun i s h _ _ hf => meets_allocRound hf)
    fun s h hf => ?_)
  have hall : ∀ b ∈ filled id 0 s.slots, b ∈ h.blocks := fun b hb => by
    rw [hf.blocks]
    exact List.mem_reverse.mpr hb
  refine wp_bind.mpr (wp_mono (meets_checkRounds hall) ?_)
  rintro _ _ ⟨rfl, rfl⟩
  refine wp_bind.mpr (wp_mono (meets_freeRounds hf.blocks) fun _ h' hfree => ?_)
  exact ⟨hf.errors.trans hfree.2.symm, hf.printed, hf.counted, hfree.1⟩

/-- **`thread_realloc` over a private heap.** -/
theorem meets_threadRealloc (id : Nat) : (threadRealloc (.start id)).Meets Passed .empty := by
  have hnone : ∀ line ∈ (ThreadArg.start id).printed, ∃ id size i, line = .failed id size i :=
    fun line hline => absurd hline List.not_mem_nil
  refine wp_bind.mpr (Client.meets_malloc (by decide) (by decide) (fun h hb hr => ?_)
    fun p bytes h hp hlen hb hr => ?_)
  · rw [if_pos rfl]
    exact ⟨hr.symm, hnone, Nat.zero_le _, hb⟩
  rw [if_neg hp, ← hlen]
  refine wp_bind.mpr (Client.meets_memset hb fun h₁ hb₁ hr₁ => ?_)
  have hmem : ⟨p, List.replicate bytes.length (BitVec.ofNat 8 (id &&& 0xFF))⟩ ∈ h₁.blocks := by
    rw [hb₁]
    exact List.mem_cons_self
  refine wp_bind.mpr (Client.meets_realloc hmem hp (by decide) (by decide) (fun h₂ hb₂ hr₂ => ?_)
    fun q bytes' h₂ hq hlen' htake hb₂ hr₂ => ?_)
  · rw [if_pos rfl]
    refine wp_bind.mpr (Client.meets_free (Or.inr ⟨_, hb₂ ▸ hmem, rfl⟩) fun h₃ hb₃ hr₃ => ?_)
    refine ⟨?_, hnone, Nat.zero_le _, hb₃.trans ?_⟩
    · rw [hr₃, hr₂, hr₁, hr]
      rfl
    · rw [hb₂, hb₁]
      exact Block.drop_singleton
  · rw [if_neg hq]
    have hblocks : h₂.blocks = [⟨q, bytes'⟩] := by
      rw [hb₂, hb₁]
      exact congrArg _ Block.drop_singleton
    have hkept : ∀ j, 0 ≤ j → j < 0 + bytes.length →
        bytes'[j]? = some (BitVec.ofNat 8 (id &&& 0xFF)) := by
      rintro j - hj
      have hbyte := congrArg (·[j]?) htake
      simp only [List.length_replicate, List.getElem?_take, List.getElem?_replicate] at hbyte
      rwa [if_pos (by omega), if_pos (by omega), if_pos (by omega)] at hbyte
    refine wp_bind.mpr ?_
    refine meets_firstMismatch (b := ⟨q, bytes'⟩) (by simp [hblocks]) hkept ?_
    change Client.Meets (Client.free q >>= fun _ => pure (ThreadArg.start id)) Passed h₂
    refine wp_bind.mpr (Client.meets_free (Or.inr ⟨_, hblocks ▸ List.mem_cons_self, rfl⟩)
      fun h₃ hb₃ hr₃ => ?_)
    refine ⟨?_, hnone, Nat.zero_le _, hb₃.trans ?_⟩
    · rw [hr₃, hr₂, hr₁, hr]
      rfl
    · rw [hblocks]
      exact Block.drop_singleton

/-! ## All of them at once -/

theorem totalErrors_eq_zero {args : List ThreadArg} :
    totalErrors args = 0 ↔ ∀ targ ∈ args, targ.errors = 0 := by
  have hfold : ∀ total, args.foldl (fun total targ => total + targ.errors) total = 0 ↔
      total = 0 ∧ ∀ targ ∈ args, targ.errors = 0 := by
    induction args with
    | nil => simp
    | cons targ rest ih => simp [ih, and_assoc]
  exact (hfold 0).trans (and_iff_right rfl)

/-- The program is a thread of either phase, with the number `id` (`test_bonus.c:110-115`,
`125-130`), and returns its argument. -/
inductive TestThread (id : Nat) : Client (Option ThreadArg) → Prop
  | allocFree : TestThread id (some <$> threadAllocFree (.start id))
  | realloc : TestThread id (some <$> threadRealloc (.start id))

/-- What a thread of the test ends with, if the program is one. -/
def TestEnded (x : Client (Option ThreadArg)) (r : Option ThreadArg) (h : Private) : Prop :=
  (∃ id, TestThread id x) → ∃ targ, r = some targ ∧ Passed targ h

/-- Both functions of the test are right over a private heap. -/
theorem TestThread.meets {x : Client (Option ThreadArg)} (hx : TestThread id x) :
    x.Meets (fun r h => ∃ targ, r = some targ ∧ Passed targ h) .empty := by
  cases hx with
  | allocFree =>
    exact wp_bind.mpr (wp_mono (meets_threadAllocFree id) fun targ _ hp => ⟨targ, rfl, hp⟩)
  | realloc => exact wp_bind.mpr (wp_mono (meets_threadRealloc id) fun targ _ hp => ⟨targ, rfl, hp⟩)

/-- A program that keeps the rules of a client ends as a thread of the test does, if it is one. -/
theorem meets_testEnded {x : Client (Option ThreadArg)} (hx : x.Meets (fun _ _ => True) .empty) :
    x.Meets (TestEnded x) .empty := by
  by_cases htest : ∃ id, TestThread id x
  · obtain ⟨id, hid⟩ := htest
    exact wp_mono hid.meets fun _ _ h _ => h
  · exact wp_mono hx fun _ _ _ h => absurd h htest

variable {ι : Type} {pr : Process ι (Option ThreadArg)} {m : Mem}

/-- A thread of the test that has ended. -/
structure Process.Passed (pr : Process ι (Option ThreadArg)) (targ : ThreadArg) : Prop where
  returned : pr.client = .ret (some targ)
  idle : pr.thread = ⟨[], none⟩
  errors : targ.errors = pr.trace.countP fun e => e.1.refused e.2
  printed : ∀ line ∈ targ.printed, ∃ id size i, line = .failed id size i
  counted : targ.printed.length ≤ targ.errors

theorem Process.Ended.passed {x : Client (Option ThreadArg)}
    (he : pr.Ended (fun _ => TestEnded x) m) (hx : TestThread id x) :
    ∃ targ, pr.Passed targ := by
  obtain ⟨r, live, h, ht, hc, hv, htr, hended⟩ := he
  obtain ⟨targ, rfl, hpass⟩ := hended ⟨id, hx⟩
  have hlive : live = [] := List.map_eq_nil_iff.mp (hv.symm.trans hpass.released)
  exact ⟨targ, hc, by rw [ht, hlive], by rw [hpass.errors, Private.refusals, htr], hpass.printed,
    hpass.counted⟩

/-- A program that has ended takes no step. -/
theorem Process.not_step [Platform] {α : Type} {pr pr' : Process ι α} {W W' : BonusWorld} {r : α}
    (hc : pr.client = .ret r) : ¬ProcessStep W pr W' pr' := by
  intro hs
  cases hs <;> cases hc

variable [DecidableEq ι] {programs : ι → Client (Option ThreadArg)}
  {S : Sys ι BonusWorld (Process ι (Option ThreadArg))}

/-- A thread of the test goes on, or has passed. -/
theorem test_progress [Platform] (hm : ∀ i, (programs i).Meets (fun _ _ => True) .empty)
    (hS : Programs.Reachable P programs S) {i : ι} (hi : TestThread id (programs i)) :
    (∃ W' pr', ProcessStep S.shared (S.thread i) W' pr') ∨ ∃ targ, (S.thread i).Passed targ := by
  have hprogress := programs_progress (Q := fun i => TestEnded (programs i)) hS
    (fun i => meets_testEnded (hm i)) i
  refine hprogress.imp_right fun he => ?_
  obtain ⟨r, live, h, ht, hc, hv, htr, hended⟩ := he
  rw [Programs.id_eq hS] at hended
  exact Process.Ended.passed ⟨r, live, h, ht, hc, hv, htr, hended⟩ hi

/-- A thread of the test that has returned has passed. -/
theorem test_passed [Platform] (hm : ∀ i, (programs i).Meets (fun _ _ => True) .empty)
    (hS : Programs.Reachable P programs S) {i : ι} (hi : TestThread id (programs i))
    {r : Option ThreadArg} (hret : (S.thread i).client = .ret r) :
    ∃ targ, r = some targ ∧ (S.thread i).Passed targ := by
  rcases test_progress hm hS hi with ⟨W', pr', hs⟩ | ⟨targ, hp⟩
  · exact absurd hs (Process.not_step hret)
  · have hr := hret.symm.trans hp.returned
    cases hr
    exact ⟨targ, rfl, hp⟩

/-- **The test never finds a corruption**, whatever the order in which its threads and the other
programs run, and whatever these do with the heap as clients of it. -/
theorem threadTest_uncorrupted [Platform]
    (hm : ∀ i, (programs i).Meets (fun _ _ => True) .empty)
    (hS : Programs.Reachable P programs S) :
    (∀ i id, TestThread id (programs i) →
      (∃ W' pr', ProcessStep S.shared (S.thread i) W' pr') ∨ ∃ targ, (S.thread i).Passed targ) ∧
    ∀ (phase : List ι) (targs : ι → ThreadArg),
      (∀ i ∈ phase, (∃ id, TestThread id (programs i)) ∧
        (S.thread i).client = .ret (some (targs i))) →
      (totalErrors (phase.map targs) = 0 ↔
        ∀ i ∈ phase, ∀ e ∈ (S.thread i).trace, e.1.refused e.2 = false) := by
  refine ⟨fun i id hi => test_progress hm hS hi, fun phase targs hphase => ?_⟩
  rw [totalErrors_eq_zero, List.forall_mem_map]
  refine forall_congr' fun i => forall_congr' fun hi => ?_
  obtain ⟨⟨id, hid⟩, hret⟩ := hphase i hi
  obtain ⟨targ, he, hp⟩ := test_passed hm hS hid hret
  obtain rfl := Option.some.inj he
  rw [hp.errors, List.countP_eq_zero]
  simp

/-! ### A test beside a program that keeps two blocks -/

/-- What is left of `main` here: it allocates two blocks and keeps them (`test_bonus.c:147-185`). -/
def keepsBlocks : Client (Option ThreadArg) := do
  let _ ← Client.malloc 60
  let _ ← Client.malloc 4001
  pure none

/-- Two threads of the second phase, with one number. -/
def samplePrograms : Fin 3 → Client (Option ThreadArg)
  | 0 => keepsBlocks
  | _ => some <$> threadRealloc (.start 3)

theorem samplePrograms_meet (i : Fin 3) :
    (samplePrograms i).Meets (fun _ _ => True) .empty := by
  have hmalloc : ∀ {s h}, 1 ≤ s → s ≤ ptrdiffMax → (Client.malloc s).Meets (fun _ _ => True) h :=
    fun h1 h2 => Client.meets_malloc h1 h2 (fun _ _ _ => trivial) fun _ _ _ _ _ _ _ => trivial
  have hthread := TestThread.meets (.realloc : TestThread 3 _)
  match i with
  | 0 =>
    refine wp_bind.mpr (wp_mono (hmalloc (by decide) (by decide)) fun _ _ _ => ?_)
    exact wp_bind.mpr (wp_mono (hmalloc (by decide) (by decide)) fun _ _ _ => trivial)
  | 1 => exact wp_mono hthread fun _ _ _ => trivial
  | 2 => exact wp_mono hthread fun _ _ _ => trivial

/-- All three have ended, one after the other. -/
theorem test_sample : ∃ T : Sys (Fin 3) BonusWorld (Process (Fin 3) (Option ThreadArg)),
    Sys.Reach ProcessStep (Programs.init 4096 (fun _ => 0) highAnswers samplePrograms) T ∧
    (T.thread 0).thread = ⟨[⟨17179869232, 4001⟩, ⟨4294968197, 60⟩], none⟩ ∧
    (∃ targ, (T.thread 1).client = .ret (some targ)) ∧
    (∃ targ, (T.thread 2).client = .ret (some targ)) ∧
    T.shared.world.os.log = [.mmap 4049 (some 17179869184), .mmap 106496 (some 8589934592),
      .mmap 8192 (some 4294967296)] := by
  have heval : ((do
      let r ← keepsBlocks.alone []
      let s ← (samplePrograms 1).alone []
      let t ← (samplePrograms 2).alone []
      pure (r.2, [s.1.isSome, t.1.isSome]) :
      B (List Alloc × List Bool)) (BonusWorld.init 4096 (fun _ => 0) highAnswers)).map
        (fun e => (e.1, e.2.world.os.log)) = some
          (([⟨17179869232, 4001⟩, ⟨4294968197, 60⟩], [true, true]),
            [.mmap 4049 (some 17179869184), .mmap 106496 (some 8589934592),
              .mmap 8192 (some 4294967296)]) := by decide +kernel
  obtain ⟨⟨b, W⟩, hrun, he⟩ := Option.map_eq_some_iff.mp heval
  obtain ⟨⟨r, live₀⟩, W₀, h0, hrun⟩ := Prog.bind_eq_some.mp hrun
  obtain ⟨⟨s, live₁⟩, W₁, h1, hrun⟩ := Prog.bind_eq_some.mp hrun
  obtain ⟨⟨t, live₂⟩, W₂, h2, hrun⟩ := Prog.bind_eq_some.mp hrun
  obtain ⟨rfl, rfl⟩ := Prod.mk.inj (Option.some.inj hrun)
  obtain ⟨hvalues, hlog⟩ := Prod.mk.inj he
  obtain ⟨hlive, hends⟩ := Prod.mk.inj hvalues
  simp only [List.cons.injEq, and_true] at hends
  obtain ⟨targ₁, rfl⟩ := Option.isSome_iff_exists.mp hends.1
  obtain ⟨targ₂, rfl⟩ := Option.isSome_iff_exists.mp hends.2
  obtain rfl : live₀ = [⟨17179869232, 4001⟩, ⟨4294968197, 60⟩] := hlive
  let S := Programs.init 4096 (fun _ => 0) highAnswers samplePrograms
  obtain ⟨tr₀, hr₀⟩ := Client.alone_reach (S := S) (i := 0) rfl h0
  obtain ⟨tr₁, hr₁⟩ := Client.alone_reach (S := S.set 0 W₀ _) (i := 1) rfl h1
  obtain ⟨tr₂, hr₂⟩ := Client.alone_reach (S := (S.set 0 W₀ _).set 1 W₁ _) (i := 2) rfl h2
  refine ⟨_, (hr₀.trans hr₁).trans hr₂, rfl, ⟨targ₁, rfl⟩, ⟨targ₂, rfl⟩, hlog⟩

theorem threadTest_uncorrupted_sample :
    ∃ S : Sys (Fin 3) BonusWorld (Process (Fin 3) (Option ThreadArg)),
      (S.thread 0).thread.owned = [⟨17179869232, 4001⟩, ⟨4294968197, 60⟩] ∧
      (∃ targ, (S.thread 1).Passed targ) ∧
      ∃ targs : Fin 3 → ThreadArg, totalErrors ([1, 2].map targs) = 0 ↔
        ∀ i ∈ [1, 2], ∀ e ∈ (S.thread i).trace, e.1.refused e.2 = false := by
  obtain ⟨T, hT, hkept, ⟨targ₁, h1⟩, ⟨targ₂, h2⟩, -⟩ := test_sample
  obtain ⟨hends, hphase⟩ := threadTest_uncorrupted samplePrograms_meet ⟨validPage_4096, _, _, hT⟩
  refine ⟨T, congrArg Thread.owned hkept, ?_, fun i => if i = 1 then targ₁ else targ₂,
    hphase [1, 2] _ fun i hi => ?_⟩
  · refine (hends 1 3 .realloc).resolve_left ?_
    rintro ⟨W', pr', hs⟩
    exact Process.not_step h1 hs
  · simp only [List.mem_cons, List.not_mem_nil, or_false] at hi
    rcases hi with rfl | rfl
    · exact ⟨⟨3, .realloc⟩, h1⟩
    · exact ⟨⟨3, .realloc⟩, h2⟩

end FtMalloc
