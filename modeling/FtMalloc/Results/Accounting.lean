import FtMalloc.Results.Failure
import FtMalloc.Results.Integrity
import FtMalloc.Run.Accounting
import FtMalloc.Run.Report
import Mathlib.Data.Finset.Card
import Mathlib.Data.List.Find
import Mathlib.Order.Interval.Finset.Nat

/-!
# What `show_alloc_mem` says about the client's allocations

Results, for every run of the mandatory allocator in which no `mmap` fails:
* `report_exact`: the start addresses of the report are the live pointers, each once.
* `report_sizes`: when in addition every size the allocator keeps is the one last requested
  (`Written`), the report has a line with that size for each live allocation and no other line,
  and its total is their sum.
* `report_stale`: an in-place `realloc` leaves the old size in the report.

Two paths leave a size as it was. `realloc` returns a block that is large enough without writing
the new size down (`malloc.c:286-297`), and `find_free_large_block` hands out a cached block with
the `size` it was mapped with (`malloc.c:168-175`).
-/

namespace FtMalloc

open Lib

variable {P : Nat} {A A' : AHeap} {w : World} {c c' : Config World} {live : List Alloc} {s q : Nat}
  {k : Cell} {op : Op} {r : Nat × AHeap × Os} {os : Os} {m : Mem} {answers : List (Option Nat)}
  {t : List (Op × Nat)}

/-! ## Addresses -/

theorem AHeap.Sound.addrs_nodup (hP : ValidPage P) (hs : A.Sound P os) :
    ((A.heldCells P).map (Cell.addr P)).Nodup := by
  refine List.Nodup.map_on (fun k hk k' hk' he => ?_) hs.ok.toWf.heldCells_nodup
  exact hs.addr_inj hP (hs.ok.toWf.mem_heldCells.mp hk) (hs.ok.toWf.mem_heldCells.mp hk') he

theorem starts_of_lines (xs : List Alloc) :
    (xs.map ShowLine.of).map ShowLine.start = xs.map Alloc.ptr := by
  rw [List.map_map]
  rfl

theorem report_starts (P : Nat) (A : AHeap) :
    (A.report P).lines.map ShowLine.start = (A.heldCells P).map (Cell.addr P) := by
  rw [AHeap.report_lines, starts_of_lines, List.map_map]
  rfl

/-- **No loss and no invention.** In a run in which no `mmap` fails, `show_alloc_mem` lists the
live pointers, each exactly once. -/
theorem report_exact [Platform]
    (hP : ValidPage P) (hrun : Run mandatory ⟨World.init P m answers, []⟩ t c)
    (hu : c.state.os.Unrefused) : ∃ r, showAllocMem c.state = some (r, c.state) ∧
      (r.lines.map ShowLine.start).Nodup ∧
      (r.lines.map ShowLine.start).Perm (c.live.map Alloc.ptr) := by
  obtain ⟨A, hI, ha⟩ := unrefused_inv hP hrun hu
  have hnodup := hI.sound.addrs_nodup hP
  refine ⟨_, showAllocMem_run hP hI.rep, ?_, ?_⟩
  · rw [report_starts]
    exact hnodup
  · rw [report_starts]
    refine (List.perm_ext_iff_of_nodup hnodup hI.owned.nodup).mpr fun p => ?_
    rw [List.mem_map, List.mem_map]
    constructor
    · rintro ⟨k, hk, rfl⟩
      exact ha k (hI.ok.toWf.mem_heldCells.mp hk)
    · rintro ⟨x, hx, rfl⟩
      obtain ⟨k, hk, hkx, -⟩ := hI.owned.cell x hx
      exact ⟨k, hI.ok.toWf.mem_heldCells.mpr hk, hkx⟩

/-- The heap after one allocation of 24 bytes. -/
def sampleHeap : AHeap := (AHeap.empty.malloc 4096 (Os.init 4096 sampleAnswers) 24).2.1

/-- One allocation, with every `mmap` granted. -/
theorem unrefused_sample [Platform] : ∃ c, Step mandatory sampleStart (.malloc 24) 4997 c ∧
    c.live = [⟨4997, 24⟩] ∧ c.state.os.Unrefused ∧ Inv 4096 c sampleHeap := by
  obtain ⟨c, hs, hlive⟩ := step_sample
  obtain ⟨r, he, -, hos, hI⟩ := step_effect validPage_4096 (init_inv validPage_4096) hs
  have hr : r = AHeap.empty.malloc 4096 (Os.init 4096 sampleAnswers) 24 := by
    cases he
    rfl
  have hlog : (AHeap.empty.malloc 4096 (Os.init 4096 sampleAnswers) 24).2.2.log =
      [.mmap 106496 (some 65536), .mmap 8192 (some 4096)] := by
    decide +kernel
  rw [hr] at hos hI
  refine ⟨c, hs, hlive, fun n hm => ?_, hI⟩
  rw [hos, hlog] at hm
  simp at hm

theorem report_exact_sample : ∃ c : Config World, c.live = sampleLive ∧
    ∃ r, showAllocMem c.state = some (r, c.state) ∧ (r.lines.map ShowLine.start).Nodup ∧
      (r.lines.map ShowLine.start).Perm (c.live.map Alloc.ptr) := by
  obtain ⟨c, t, hrun, hlive, hlog, -⟩ := run_sample
  have hu : c.state.os.Unrefused := fun n hm => by
    rw [hlog] at hm
    simp at hm
  exact ⟨c, hlive, report_exact validPage_4096 hrun hu⟩

/-! ## Sizes -/

namespace World

variable (w : World)

/-- The size the allocator keeps for the block of `p`: an entry of `requested_sizes`, or
`block->size`. -/
def recordedSize (p : Nat) : Nat :=
  let word := ld w.mem 8 (p - 8)
  if metaIsZone word then
    ld w.mem 8 (w.requestedSizes (metaZone word) + 8 * metaBlockNum word)
  else
    ld w.mem 8 (word + BlockT.size)

/-- The first cached block with room for `s` bytes. -/
def firstFit (s : Nat) : Option Nat :=
  (w.nodes .freeLargeBlocks).find? fun b => decide (s ≤ ld w.mem 8 (b + BlockT.size))

end World

/-- The sizes the allocator keeps stay those that were requested: a request that is served from
the cache asks for exactly the size of the block, and a block that is resized in place is asked
for the size it has on record. -/
structure Written (c : Config World) (op : Op) : Prop where
  cached : ∀ s b, op.Requests c.state s → s > smallBlockSize → c.state.firstFit s = some b →
    ld c.state.mem 8 (b + BlockT.size) = s
  inPlace : ∀ p s n, op = .realloc p s → p ≠ null →
    currentSize (ld c.state.mem 8 (p - 8)) c.state = some (n, c.state) → s ≤ n →
    c.state.recordedSize p = s

/-- Every live allocation is recorded with the size last requested for it. -/
def Tallied (P : Nat) (A : AHeap) (live : List Alloc) : Prop :=
  ∀ x ∈ live, ∀ k n, A.Records k n → k.addr P = x.ptr → n = x.size

theorem Rep.firstFit_eq (hr : Rep P w A) (s : Nat) : w.firstFit s = A.fit s := by
  unfold World.firstFit AHeap.fit
  rw [hr.nodes_eq]
  refine List.find?_congr fun b hb => ?_
  simp only [(hr.block (h := .freeLargeBlocks) rfl hb).1.size]

theorem Rep.recordedSize_eq (hP : ValidPage P) (hr : Rep P w A) {n : Nat} (hk : A.Records k n) :
    w.recordedSize (k.addr P) = n := by
  have hcell := hr.wf.hasCell hk.holds
  unfold World.recordedSize
  rw [(hr.header hP hcell).2.2]
  cases k with
  | slot c z i =>
    obtain ⟨hflag, hzone, hnum⟩ := hr.slot_decodes hP hcell
    have hzr := (hr.zone hk.1).1
    simp only [hflag, if_true, hzone, hnum, World.requestedSizes, hzr.sizesAt]
    exact hzr.sizes i n hk.2
  | block b =>
    simp only [hr.block_decodes hcell, Bool.false_eq_true, if_false]
    exact (hr.block (h := .fullLargeBlocks) rfl hk.1).1.size.trans hk.2

/-- A call that returned `q` for `s` bytes keeps the tally: what it recorded for `q` is `s`, and
the rest was recorded before. -/
theorem Tallied.split {live' : List Alloc} (ht : Tallied P A live)
    (hlive : ∀ x ∈ live', x = ⟨q, s⟩ ∨ x ∈ live ∧ x.ptr ≠ q)
    (hrec : ∀ k n, A'.Records k n → A.Records k n ∧ k.addr P ≠ q ∨ k.addr P = q ∧ n = s) :
    Tallied P A' live' := by
  intro x hx k n hk hkx
  rcases hlive x hx with rfl | ⟨hx, hne⟩
  · rcases hrec k n hk with ⟨-, h⟩ | ⟨-, h⟩
    · exact absurd hkx h
    · exact h
  · rcases hrec k n hk with ⟨h, -⟩ | ⟨h, -⟩
    · exact ht x hx k n h hkx
    · exact absurd (hkx.symm.trans h) hne

/-- The allocations after an allocation. -/
theorem Tallied.serve (hP : ValidPage P) (hI : Inv P c A) (ht : Tallied P A c.live)
    (hv : AHeap.Serves P A s r) (hg : AHeap.Gains P A s r) (hfit : ∀ n, A.Sized s n → n = s) :
    Tallied P r.2.1 (if r.1 = null then c.live else ⟨r.1, s⟩ :: c.live) := by
  have hnodup := (hI.owned.serve hP hI.ok.toWf hv).nodup
  refine ht.split (q := r.1) (s := s) (fun x hx => ?_) fun k n hk => ?_
  · by_cases h0 : r.1 = null
    · rw [if_pos h0] at hx
      exact Or.inr ⟨hx, h0 ▸ hI.ptr_ne_null hP x hx⟩
    · rw [if_neg h0] at hx hnodup
      rcases List.mem_cons.mp hx with rfl | hx
      · exact Or.inl rfl
      · refine Or.inr ⟨hx, fun he => (List.nodup_cons.mp hnodup).1 ?_⟩
        exact List.mem_map.mpr ⟨x, hx, he⟩
  · rcases hg k n hk with hrec | ⟨-, haddr, hn⟩
    · refine Or.inl ⟨hrec, fun he => ?_⟩
      rcases hv.result with h0 | ⟨k', hk', hnew, hheld, -⟩
      · exact Cell.addr_ne_zero (he.trans h0)
      · rw [hv.sound.addr_inj hP hk.holds hheld (he.trans hk'.symm)] at hrec
        exact hnew hrec.holds
    · exact Or.inr ⟨haddr, hfit n hn⟩

theorem Tallied.release (hs : A.Sound P os) (ht : Tallied P A live) (hk : A.Holds k) :
    Tallied P (A.free P os k).1 (drop live (k.addr P)) := by
  intro x hx k' n hk' he
  exact ht x (mem_drop.mp hx).1 k' n (AHeap.free_records hs hk hk').2 he

/-- The allocations after a resizing. -/
theorem Tallied.resize (hP : ValidPage P) (hI : Inv P c A) (ht : Tallied P A c.live)
    (hk : A.Holds k) (hv : AHeap.Resizes P A k s r) (hm : AHeap.Moves P A k s r)
    (hin : s ≤ A.cap k → A.Records k s) (hfit : A.cap k < s → ∀ n, A.Sized s n → n = s) :
    Tallied P r.2.1 (if r.1 ≠ null then ⟨r.1, s⟩ :: drop c.live (k.addr P) else c.live) := by
  have hnodup := (hI.owned.resize hP hv).nodup
  refine ht.split (q := r.1) (s := s) (fun x hx => ?_) fun k' n hk' => ?_
  · by_cases h0 : r.1 = null
    · rw [if_neg (not_not_intro h0)] at hx
      exact Or.inr ⟨hx, h0 ▸ hI.ptr_ne_null hP x hx⟩
    · rw [if_pos h0] at hx hnodup
      rcases List.mem_cons.mp hx with rfl | hx
      · exact Or.inl rfl
      · refine Or.inr ⟨(mem_drop.mp hx).1, fun he => (List.nodup_cons.mp hnodup).1 ?_⟩
        exact List.mem_map.mpr ⟨x, hx, he⟩
  · rcases hm with ⟨hle, hq, hA⟩ | ⟨hlt, hm⟩
    · rw [hA] at hk'
      by_cases he : k'.addr P = r.1
      · obtain rfl := hI.sound.addr_inj hP hk'.holds hk (he.trans hq)
        exact Or.inr ⟨he, hk'.unique (hin hle)⟩
      · exact Or.inl ⟨hk', he⟩
    · rcases hm k' n hk' with ⟨hrec, -⟩ | ⟨-, haddr, hn⟩
      · refine Or.inl ⟨hrec, fun he => ?_⟩
        rcases hv.result with ⟨h0 | ⟨-, hle⟩, -⟩ | ⟨-, k₁, hk₁, hnew, hheld, -⟩
        · exact Cell.addr_ne_zero (he.trans h0)
        · omega
        · rw [hv.sound.addr_inj hP hk'.holds hheld (he.trans hk₁.symm)] at hrec
          exact hnew hrec.holds
      · exact Or.inr ⟨haddr, hfit hlt n hn⟩

/-- **One call** that is `Written` keeps the tally. -/
theorem Inv.tallied_step (hP : ValidPage P) (hI : Inv P c A) (ht : Tallied P A c.live)
    (hg : Written c op) (he : Effect P A c.state.os op r) (hu : r.2.2.Unrefused) :
    Tallied P r.2.1 (op.after false c.live r.1) := by
  have hs := hI.sound
  have hnull : drop c.live null = c.live := drop_of_not_mem (hI.ptr_ne_null hP)
  have hfit : ∀ s, op.Requests c.state s → ∀ n, A.Sized s n → n = s := by
    rintro s hreq n (h | ⟨hbig, b, hb, hn⟩)
    · exact h
    · rw [← hI.rep.firstFit_eq] at hb
      have hsize := hg.cached s b hreq hbig hb
      rw [hI.rep.firstFit_eq] at hb
      rw [(hI.rep.block (h := .freeLargeBlocks) rfl (AHeap.fit_some hb).1).1.size] at hsize
      exact hn.trans hsize
  have hserve : ∀ s, op.Requests c.state s → (A.malloc P c.state.os s).2.2.Unrefused →
      Tallied P (A.malloc P c.state.os s).2.1 (if (A.malloc P c.state.os s).1 = null then c.live
        else ⟨(A.malloc P c.state.os s).1, s⟩ :: c.live) := fun s hreq hu =>
    ht.serve hP hI (AHeap.malloc_serves hP hs)
      (AHeap.malloc_gains hP hs (AHeap.not_lastTaken hs hu)) (hfit s hreq)
  cases he with
  | malloc s => exact hserve s rfl hu
  | freeNull =>
    change Tallied P A (drop c.live null)
    rw [hnull]
    exact ht
  | free hk => exact ht.release hs hk
  | reallocNull s => simpa [Op.after, hnull] using hserve s ⟨rfl, Or.inl rfl⟩ hu
  | @realloc k s hk =>
    have hcell := hI.rep.wf.hasCell hk
    have hcur := currentSize_run hP hI.rep hcell
    rw [← (hI.rep.header hP hcell).2.2] at hcur
    have hno := AHeap.not_lastTaken_realloc hP hs hk hu
    have hin : s ≤ A.cap k → A.Records k s := by
      intro hle
      obtain ⟨n, hn⟩ := AHeap.holds_iff_records.mp hk
      have hsize := hg.inPlace _ s _ rfl (hI.rep.addr_ne_zero hP hcell) hcur hle
      rw [hI.rep.recordedSize_eq hP hn] at hsize
      exact hsize ▸ hn
    simpa [Op.after] using ht.resize hP hI hk (AHeap.realloc_resizes hP hs hk)
      (AHeap.realloc_gains hP hs hk hno) hin fun hlt => hfit s ⟨rfl, Or.inr ⟨_, hcur, hlt⟩⟩
  | write => exact ht

/-! ### The sum -/

/-- The bytes of disjoint allocations. -/
theorem exists_bytes : ∀ {live : List Alloc}, live.Pairwise Alloc.Apart →
    ∃ S : Finset Nat, S.card = (live.map Alloc.size).sum ∧
      ∀ b, b ∈ S ↔ ∃ x ∈ live, x.ptr ≤ b ∧ b < x.ptr + x.size := by
  intro live hap
  induction live with
  | nil => exact ⟨∅, rfl, by simp⟩
  | cons x live ih =>
    obtain ⟨hx, hap⟩ := List.pairwise_cons.mp hap
    obtain ⟨S, hcard, hmem⟩ := ih hap
    have hdisj : Disjoint (Finset.Ico x.ptr (x.ptr + x.size)) S := by
      rw [Finset.disjoint_left]
      intro b hb hS
      obtain ⟨y, hy, h1, h2⟩ := (hmem b).mp hS
      have hxy := hx y hy
      rw [Finset.mem_Ico] at hb
      unfold Alloc.Apart at hxy
      omega
    refine ⟨Finset.Ico x.ptr (x.ptr + x.size) ∪ S, ?_, fun b => ?_⟩
    · rw [Finset.card_union_of_disjoint hdisj, hcard, Nat.card_Ico, List.map_cons, List.sum_cons]
      omega
    · rw [Finset.mem_union, Finset.mem_Ico, hmem]
      simp

/-- The sizes of the live allocations add up to less than `2 ^ 64`. -/
theorem Inv.sum_lt (hP : ValidPage P) (hI : Inv P c A) : (c.live.map Alloc.size).sum < 2 ^ 64 := by
  obtain ⟨S, hcard, hmem⟩ := exists_bytes (hI.live_apart hP)
  have hsub : S ⊆ Finset.Ico 1 (2 ^ 64) := by
    intro b hb
    obtain ⟨x, hx, h1, h2⟩ := (hmem b).mp hb
    obtain ⟨k, hk, hkx, hsx⟩ := hI.owned.cell x hx
    obtain ⟨r, hreg, -, h3, h4⟩ := hI.rep.cell_region hP (hI.rep.wf.hasCell hk)
    obtain ⟨-, h0, -, hlim⟩ := hI.rep.backed.system.legal r hreg
    have hle := hI.rep.backed.system.le_limit r
    rw [Finset.mem_Ico]
    omega
  have hle := Finset.card_le_card hsub
  rw [hcard, Nat.card_Ico] at hle
  omega

/-- **Sizes.** In a run in which no `mmap` fails and every call is `Written`, the report has a line
for each live allocation, with the size last requested for it, and the total is their sum. -/
theorem report_sizes [Platform] (hP : ValidPage P)
    (hrun : RunIn mandatory Written ⟨World.init P m answers, []⟩ t c)
    (hu : c.state.os.Unrefused) : ∃ r, showAllocMem c.state = some (r, c.state) ∧
      r.lines.Perm (c.live.map ShowLine.of) ∧ r.total = (c.live.map Alloc.size).sum := by
  let I : Config World → Prop := fun c => ∃ A, Inv P c A ∧
    (c.state.os.Unrefused → Accounted P A c.live ∧ Tallied P A c.live)
  have hstart : I ⟨World.init P m answers, []⟩ :=
    ⟨_, init_inv hP, fun _ => ⟨Accounted.empty, fun x hx => absurd hx List.not_mem_nil⟩⟩
  have hstep : ∀ {c op q c'}, I c → Written c op → Step mandatory c op q c' → I c' := by
    rintro c op q c' ⟨A, hI, hbooks⟩ hg hs
    obtain ⟨r, he, rfl, hos, hI'⟩ := step_effect hP hI hs
    refine ⟨r.2.1, hI', fun hu' => ?_⟩
    rw [hos] at hu'
    rw [hs.live]
    obtain ⟨ha, ht⟩ := hbooks (hu'.of_since (he.since hP hI))
    exact ⟨he.accounted hP hI ha hu', hI.tallied_step hP ht hg he hu'⟩
  obtain ⟨A, hI, hbooks⟩ := hrun.invariant hstep hstart
  obtain ⟨ha, ht⟩ := hbooks hu
  -- the entries of the held cells are the live allocations
  have hperm : ((A.heldCells P).map (A.entry P)).Perm c.live := by
    have hnodup : ((A.heldCells P).map (A.entry P)).Nodup := by
      refine List.Nodup.of_map Alloc.ptr ?_
      rw [List.map_map]
      exact hI.sound.addrs_nodup hP
    have hentry : ∀ x ∈ c.live, ∀ k, A.Holds k → k.addr P = x.ptr → A.entry P k = x := by
      intro x hx k hk hkx
      obtain ⟨n, hn⟩ := AHeap.holds_iff_records.mp hk
      rw [AHeap.entry, hn.recorded, ht x hx k n hn hkx, hkx]
    refine (List.perm_ext_iff_of_nodup hnodup (List.Nodup.of_map _ hI.owned.nodup)).mpr fun x => ?_
    rw [List.mem_map]
    constructor
    · rintro ⟨k, hk, rfl⟩
      have hheld := hI.ok.toWf.mem_heldCells.mp hk
      obtain ⟨x, hx, hkx⟩ := ha k hheld
      rw [hentry x hx k hheld hkx.symm]
      exact hx
    · intro hx
      obtain ⟨k, hk, hkx, -⟩ := hI.owned.cell x hx
      exact ⟨k, hI.ok.toWf.mem_heldCells.mpr hk, hentry x hx k hk hkx⟩
  refine ⟨_, showAllocMem_run hP hI.rep, ?_, ?_⟩
  · rw [AHeap.report_lines]
    exact hperm.map _
  · have hsum : (A.report P).total = wrap (((A.heldCells P).map (A.entry P)).map Alloc.size).sum :=
      rfl
    rw [hsum, (hperm.map Alloc.size).sum_eq, wrap_of_lt (hI.sum_lt hP)]

/-- A test for `Written` on a request and on a resizing in place. -/
def writes (c : Config World) : Op → Bool
  | .malloc s =>
    decide (s ≤ smallBlockSize) ||
      (c.state.firstFit s).all fun b => decide (ld c.state.mem 8 (b + BlockT.size) = s)
  | .realloc p s =>
    decide (p ≠ null) && (currentSize (ld c.state.mem 8 (p - 8)) c.state).any (fun r =>
      decide (s ≤ r.1)) && decide (c.state.recordedSize p = s)
  | _ => true

theorem written_of_writes (h : writes c op) : Written c op := by
  cases op with
  | malloc s =>
    refine ⟨fun s' b hreq hbig hfit => ?_, fun p s n he => by cases he⟩
    obtain rfl : s = s' := hreq
    have hno : ¬s ≤ smallBlockSize := by omega
    simpa [writes, hno, hfit] using h
  | realloc p s =>
    simp only [writes, Bool.and_eq_true, decide_eq_true_eq] at h
    obtain ⟨⟨h0, hcur⟩, hsize⟩ := h
    refine ⟨fun s' b hreq _ _ => ?_, fun p' s' n he _ _ _ => ?_⟩
    · obtain ⟨rfl, hp | ⟨n, hn, hlt⟩⟩ := hreq
      · exact absurd hp h0
      · rw [hn] at hcur
        exact absurd hlt (Nat.not_lt.mpr (of_decide_eq_true hcur))
    · cases he
      exact hsize
  | free p => exact ⟨fun _ _ hreq => hreq.elim, fun _ _ _ he => by cases he⟩
  | write a b => exact ⟨fun _ _ hreq => hreq.elim, fun _ _ _ he => by cases he⟩

/-- A large block is handed out again at its size, and a tiny one is resized in place to its own. -/
theorem report_sizes_sample : ∃ c : Config World,
    c.live = [⟨4997, 24⟩, ⟨1048624, 2000⟩, ⟨66445, 500⟩] ∧
    ∃ r, showAllocMem c.state = some (r, c.state) ∧ r.lines.Perm (c.live.map ShowLine.of) ∧
      r.total = (c.live.map Alloc.size).sum := by
  have heval : (mandatory.eval writes [.malloc 24, .malloc 500, .malloc 2000, .free 1048624,
      .malloc 2000, .realloc 4997 24] sampleStart).map (fun e => (e.2.live, e.2.state.os.log)) =
        some ([⟨4997, 24⟩, ⟨1048624, 2000⟩, ⟨66445, 500⟩], [.mmap 2048 (some 1048576),
          .mmap 106496 (some 65536), .mmap 8192 (some 4096)]) := by decide +kernel
  obtain ⟨⟨t, c⟩, hrun, he⟩ := Option.map_eq_some_iff.mp heval
  obtain ⟨hlive, hlog⟩ := Prod.mk.inj he
  have hu : c.state.os.Unrefused := fun n hm => by
    rw [hlog] at hm
    simp at hm
  have hgood := Api.eval_run (fun _ _ => written_of_writes) hrun
  exact ⟨c, hlive, report_sizes validPage_4096 hgood hu⟩

/-- A block of 24 bytes is resized in place to 10 bytes: the report still says 24. -/
theorem report_stale : ¬∀ m answers t c, Run mandatory ⟨World.init 4096 m answers, []⟩ t c →
    c.state.os.Unrefused → ∃ r, showAllocMem c.state = some (r, c.state) ∧
      r.lines.Perm (c.live.map ShowLine.of) := by
  intro h
  have hP := validPage_4096
  obtain ⟨c, hs, hlive, hu, hI⟩ := unrefused_sample
  let k : Cell := .slot .tiny 4096 0
  have hzone : 4096 ∈ sampleHeap.lists Cls.tiny.freeHead := by decide +kernel
  have hk : sampleHeap.Holds k := ⟨Or.inl hzone, 24, by decide +kernel⟩
  have haddr : k.addr 4096 = 4997 := by decide +kernel
  obtain ⟨w', hrun, hos, hI'⟩ := realloc_call hP hI hk 10
  have hsame : sampleHeap.realloc 4096 c.state.os k 10 = (k.addr 4096, sampleHeap, c.state.os) :=
    if_pos (by decide)
  rw [haddr] at hsame hrun
  rw [hsame] at hrun hos hI'
  have hdrop : drop c.live 4997 = [] := by
    rw [hlive]
    decide
  obtain ⟨hr, -, -⟩ := hI'
  dsimp only at hr hos
  have hs' : Step mandatory c (.realloc 4997 10) 4997 ⟨w', [⟨4997, 10⟩]⟩ := by
    refine ⟨⟨by decide, Or.inr ⟨_, hlive ▸ List.mem_singleton_self _, rfl⟩⟩, hrun, ?_⟩
    simp [Op.after, hdrop]
  obtain ⟨r, hshow, hperm⟩ := h _ _ _ ⟨w', [⟨4997, 10⟩]⟩
    ((RunIn.nil.snoc trivial hs).snoc trivial hs') (by rw [hos]; exact hu)
  obtain ⟨rfl, -⟩ := Prod.mk.inj (Option.some.inj ((showAllocMem_run hP hr).symm.trans hshow))
  have hlines : (sampleHeap.report 4096).lines = [⟨4997, 5021, 24⟩] := by decide +kernel
  rw [hlines] at hperm
  have hbytes := hperm.map ShowLine.bytes
  simp only [List.map_cons, List.map_nil, ShowLine.of] at hbytes
  exact absurd hbytes (by decide)

end FtMalloc
