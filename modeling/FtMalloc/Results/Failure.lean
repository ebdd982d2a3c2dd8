import FtMalloc.Abstract.Supply
import FtMalloc.Run.Observe

/-!
# When `malloc` returns NULL

What the mandatory allocator guarantees about a call that returns NULL (`malloc.c:91-224`).

`find_free_block` marks a slot as taken and moves its zone to the full list before it maps the
next zone; when that `mmap` fails the slot is not returned, and the free list of the class is left
empty. `setup_global_heap` keeps the tiny zone when the small zone is refused, and `malloc` keeps
the zones of the setup when the block it was asked for is refused.

Results:
* `malloc_atomic_iff`: a call that returns NULL leaves the heap as it was unless it is one of
  these (`LeavesTrace`).
* `malloc_available`: with every `mmap` granted a call returns a block unless the free list of its
  class is empty (`Available`), and that does not happen in runs without a refused refill.
-/

namespace FtMalloc

open Lib

variable {P : Nat} {A : AHeap} {c c' : Config World} {w w' : World} {s q b z i n : Nat} {cl : Cls}
  {os os' : Os} {r : AHeap × Os} {rest : List Nat}

namespace World

variable (w : World) (s : Nat)

/-- The lazy setup of this call maps the tiny zone; then the small zone is refused, or the large
block the call asks for. -/
def SetupCutShort : Prop :=
  w.heap.initialized = 0 ∧
    (w.os.reply (totalSize w.os.pageSize tinyBlockSize)).isSome ∧
    ((w.os.mmap (totalSize w.os.pageSize tinyBlockSize)).reply
        (totalSize w.os.pageSize smallBlockSize) = none ∨
      s > smallBlockSize ∧
      ((w.os.mmap (totalSize w.os.pageSize tinyBlockSize)).reply
        (totalSize w.os.pageSize smallBlockSize)).isSome ∧
      ((w.os.mmap (totalSize w.os.pageSize tinyBlockSize)).mmap
        (totalSize w.os.pageSize smallBlockSize)).reply (BlockT.sizeof + 8 + s) = none)

/-- The request takes the last free slot of the first zone of its class's free list, and the
`mmap` of the next zone is refused. -/
def RefillRefused : Prop :=
  s ≠ 0 ∧ w.heap.initialized ≠ 0 ∧ ∃ c, Cls.ofSize s = some c ∧ w.heap.get c.freeHead ≠ null ∧
    w.freeCount (w.heap.get c.freeHead) = 1 ∧
    w.os.reply (totalSize w.os.pageSize c.size) = none

/-- A call `malloc(s)` that returns NULL with the heap changed. -/
def LeavesTrace : Prop := ¬(s = 0 ∨ s > ptrdiffMax) ∧ (w.SetupCutShort s ∨ w.RefillRefused s)

/-- There is a zone to serve the request from, or the call maps what it needs. -/
def Available : Prop :=
  w.heap.initialized = 0 ∨ s > smallBlockSize ∨
    ∃ c, Cls.ofSize s = some c ∧ w.heap.get c.freeHead ≠ null

end World

/-! ## Reading the represented heap -/

theorem Rep.initialized_iff (hr : Rep P w A) : w.heap.initialized = 0 ↔ A.initialized = false := by
  rw [hr.flag]
  cases A.initialized <;> simp

/-- The head of a free list and its zone's free count. -/
theorem Rep.free_head (hr : Rep P w A) (hl : A.lists cl.freeHead = z :: rest) :
    w.heap.get cl.freeHead = z ∧ z ≠ null ∧ w.freeCount z = (A.freeCount z : Nat) := by
  have hz : z ∈ A.lists cl.freeHead := AHeap.first_mem hl
  have hlist := hr.lists cl.freeHead
  rw [hl] at hlist
  exact ⟨hlist.head_cons, (hr.nodeAt hz).ne_zero, (hr.zone (Or.inl hz)).1.count⟩

theorem Rep.head_eq_null (hr : Rep P w A) :
    w.heap.get cl.freeHead = null ↔ A.lists cl.freeHead = [] :=
  (hr.lists cl.freeHead).head_eq_zero_iff

theorem Rep.total_eq (hr : Rep P w A) (cl : Cls) :
    totalSize w.os.pageSize cl.size = cl.total P := by
  rw [hr.page]
  rfl

/-- A setup cut short, on the abstract heap. -/
theorem Rep.setupCutShort_iff (hr : Rep P w A) : w.SetupCutShort s ↔ A.initialized = false ∧
    ∃ b, w.os.reply (Cls.tiny.total P) = some b ∧
      ((w.os.mmap (Cls.tiny.total P)).reply (Cls.small.total P) = none ∨
        1024 < s ∧ (∃ b', (w.os.mmap (Cls.tiny.total P)).reply (Cls.small.total P) = some b') ∧
        ((w.os.mmap (Cls.tiny.total P)).mmap (Cls.small.total P)).reply (48 + s) = none) := by
  have htiny : totalSize w.os.pageSize tinyBlockSize = Cls.tiny.total P := hr.total_eq .tiny
  have hsmall : totalSize w.os.pageSize smallBlockSize = Cls.small.total P := hr.total_eq .small
  unfold World.SetupCutShort
  rw [hr.initialized_iff, htiny, hsmall, Option.isSome_iff_exists, Option.isSome_iff_exists,
    exists_and_right]

/-- A refused refill, on the abstract heap. -/
theorem Rep.refillRefused_iff (hr : Rep P w A) (hok : A.Ok P) :
    w.RefillRefused s ↔ A.LastTaken P w.os s := by
  have hinit : w.heap.initialized ≠ 0 ↔ A.initialized = true := by
    rw [ne_eq, hr.initialized_iff, Bool.not_eq_false]
  unfold World.RefillRefused
  rw [hinit]
  constructor
  · rintro ⟨hs, hi, c, hc, hhead, hcount, hn⟩
    cases hl : A.lists c.freeHead with
    | nil => exact absurd (hr.head_eq_null.mpr hl) hhead
    | cons z rest =>
      obtain ⟨he, -, hz⟩ := hr.free_head hl
      obtain ⟨i, hleast, hslot, -⟩ := AHeap.exists_leastFree (hok.hasFree
        (show z ∈ A.lists c.freeHead by rw [hl]; exact List.mem_cons_self))
      have htake := AHeap.freeCount_take (s := s) hslot
      rw [he, hz] at hcount
      rw [hr.total_eq] at hn
      exact ⟨c, z, i, rest, hs, hi, hc, hl, hleast, by omega, hn⟩
  · rintro ⟨c, z, i, rest, hs, hi, hc, hl, hleast, h0, hn⟩
    obtain ⟨he, hne, hz⟩ := hr.free_head hl
    obtain ⟨i', hleast', hslot, -⟩ := AHeap.exists_leastFree (hok.hasFree
      (show z ∈ A.lists c.freeHead by rw [hl]; exact List.mem_cons_self))
    obtain rfl := Option.some.inj (hleast.symm.trans hleast')
    have htake := AHeap.freeCount_take (s := s) hslot
    refine ⟨hs, hi, c, hc, ?_, ?_, ?_⟩
    · rw [he]
      exact hne
    · rw [he, hz]
      omega
    · rw [hr.total_eq]
      exact hn

/-! ## The calls that leave the heap alone -/

theorem malloc_rejected [Platform] (h : s = 0 ∨ s > ptrdiffMax) : malloc s w = some (null, w) :=
  Prog.if_true_run h rfl

theorem malloc_setup_refused [Platform]
    (h : ¬(s = 0 ∨ s > ptrdiffMax)) (hi : w.heap.initialized = 0)
    (hr : w.os.reply (Cls.tiny.total w.os.pageSize) = none) :
    malloc s w = some (null, { w with os := w.os.mmap (Cls.tiny.total w.os.pageSize) }) := by
  have hzone := createZone_refused (c := .tiny) rfl hr
  have hsetup : setupGlobalHeap w =
      some (1, { w with os := w.os.mmap (Cls.tiny.total w.os.pageSize) }) :=
    Prog.bind_to hzone (Prog.if_true_run (by decide) rfl)
  have hready : ensureSetup w =
      some (1, { w with os := w.os.mmap (Cls.tiny.total w.os.pageSize) }) :=
    Prog.bind_to rfl (Prog.if_true_run hi hsetup)
  exact Prog.if_false_run h (Prog.bind_to hready (Prog.if_true_run (by decide) rfl))

theorem allocBlock_zone [Platform] (h : Cls.ofSize s = some cl) :
    allocBlock s w = findFreeBlock (w.heap.get cl.freeHead) s w := by
  unfold Cls.ofSize at h
  unfold allocBlock allocBlockWith
  rw [Prog.get_bind]
  split at h
  · rename_i h64
    cases h
    exact Prog.if_true_run h64 rfl
  · rename_i h64
    split at h
    · rename_i h1024
      cases h
      exact Prog.if_false_run h64 (Prog.if_true_run h1024 rfl)
    · cases h

theorem allocBlock_large [Platform] (h : 1024 < s) : allocBlock s w = findFreeLargeBlock s w := by
  unfold allocBlock allocBlockWith
  rw [Prog.get_bind]
  refine Prog.if_false_run ?_ (Prog.if_false_run ?_ rfl)
  · simp only [tinyBlockSize]
    omega
  · simp only [smallBlockSize]
    omega

theorem findFreeLargeBlock_refused [Platform] (hr : Rep P w A) (hf : A.fit s = none)
    (hn : w.os.reply (wrap (48 + s)) = none) :
    findFreeLargeBlock s w = some (null, { w with os := w.os.mmap (wrap (48 + s)) }) := by
  have hfind := findFit_list (s := s) hr
  rw [hf] at hfind
  refine Prog.bind_to rfl (Prog.bind_to hfind (Prog.if_false_run (fun h => h rfl) ?_))
  exact Prog.bind_to (createBlock_refused hn) (Prog.if_true_run rfl rfl)

/-- **A call that returns NULL and leaves no trace** changes neither the heap variable, nor
memory, nor the mappings. -/
theorem malloc_untouched [Platform] (hr : Rep P w A) (hok : A.Ok P)
    (hd : A.Denied P w.os s r) (hno : ¬w.LeavesTrace s) :
    ∃ os', malloc s w = some (null, { w with os := os' }) ∧ os'.regions = w.os.regions := by
  have hinit : A.initialized = true → w.heap.initialized ≠ 0 := fun h h0 => by
    rw [hr.initialized_iff, h] at h0
    cases h0
  unfold World.LeavesTrace at hno
  rw [hr.setupCutShort_iff, hr.refillRefused_iff hok] at hno
  cases hd with
  | size h => exact ⟨w.os, malloc_rejected h, rfl⟩
  | tiny h hi hb =>
    rw [← hr.page] at hb
    exact ⟨_, malloc_setup_refused h (hr.initialized_iff.mpr hi) hb, Os.mmap_refused hb⟩
  | small h hi hb hb' => exact absurd ⟨h, Or.inl ⟨hi, _, hb, Or.inl hb'⟩⟩ hno
  | block h hbig hi hb hb' hn =>
    exact absurd ⟨h, Or.inl ⟨hi, _, hb, Or.inr ⟨hbig, ⟨_, hb'⟩, hn⟩⟩⟩ hno
  | empty h hi hc hl =>
    refine ⟨w.os, ?_, rfl⟩
    rw [malloc_initialized h (hinit hi), allocBlock_zone hc]
    exact Prog.if_true_run (hr.head_eq_null.mpr hl) rfl
  | refill h hi hc hl hleast h0 hn =>
    exact absurd ⟨h, Or.inr ⟨_, _, _, _, fun e => h (Or.inl e), hi, hc, hl, hleast, h0, hn⟩⟩ hno
  | large h hbig hi hf hn =>
    have hwrap := AHeap.wrap_of_size h
    rw [← hwrap] at hn
    refine ⟨_, ?_, Os.mmap_refused hn⟩
    rw [malloc_initialized h (hinit hi), allocBlock_large hbig]
    exact findFreeLargeBlock_refused hr hf hn

/-! ## The calls that do not -/

/-- **A trace is seen** in the flag or in the nodes of a list. -/
theorem Rep.trace_denied (hr : Rep P w A) (hok : A.Ok P)
    (ht : w.LeavesTrace s) : ∃ r, A.Denied P w.os s r ∧
      (r.1.initialized ≠ A.initialized ∨ ∃ h, r.1.lists h ≠ A.lists h) := by
  unfold World.LeavesTrace at ht
  rw [hr.setupCutShort_iff, hr.refillRefused_iff hok] at ht
  obtain ⟨h, ⟨hi, b, hb, hb' | ⟨hbig, ⟨b', hb'⟩, hn⟩⟩ | hlast⟩ := ht
  · refine ⟨_, AHeap.Denied.small h hi hb hb', Or.inr ⟨.freeTinyZones, ?_⟩⟩
    exact fun he => (hr.backed.fresh hb) .freeTinyZones
      (he ▸ AHeap.mem_addZone.mpr (Or.inr ⟨rfl, rfl⟩))
  · refine ⟨_, AHeap.Denied.block h hbig hi hb hb' hn, Or.inl ?_⟩
    rw [hi]
    exact Bool.noConfusion
  · obtain ⟨c, z, i, rest, -, hi, hc, hl, hleast, h0, hn⟩ := hlast
    refine ⟨_, AHeap.Denied.refill h hi hc hl hleast h0 hn, Or.inr ⟨c.freeHead, fun he => ?_⟩⟩
    -- the zone is no longer on the list it headed
    have hz : z ∈ A.lists c.freeHead := AHeap.first_mem hl
    have hw : (A.setSlot z i (some s)).Wf P := hok.toWf.setSlot
    have hmem : z ∈ ((A.setSlot z i (some s)).move z c.freeHead c.fullHead).lists c.freeHead := by
      rw [he]
      exact hz
    rcases (hw.mem_move hz).mp hmem with ⟨hne, -⟩ | ⟨-, hh⟩
    · exact hne rfl
    · exact c.freeHead_ne_fullHead hh

/-- **Error atomicity.** A call of `malloc` that returns NULL leaves the flag, every list, every
zone and every block as they were, unless its setup was cut short or its refill was refused. -/
theorem malloc_atomic_iff [Platform] (hc : Reachable P c) (hs : Step mandatory c (.malloc s) q c') :
    (q = null → c'.state.view = c.state.view) ↔ ¬c.state.LeavesTrace s := by
  obtain ⟨A, hI⟩ := reachable_inv hc
  have hP := hc.1
  obtain ⟨w', hrun, hos, hI'⟩ := malloc_call hP hI s
  obtain ⟨hq, rfl⟩ := Prod.mk.inj (Option.some.inj (hrun.symm.trans hs.run))
  constructor
  · intro hsame ht
    obtain ⟨r, hd, hdiff⟩ := hI.rep.trace_denied hI.ok ht
    have hmalloc := hd.malloc hI.sound
    rw [hmalloc] at hq hI'
    obtain ⟨hflag, hnodes⟩ := World.nodes_of_view (hsame hq.symm)
    rcases hdiff with hdiff | ⟨h, hdiff⟩
    · refine hdiff ?_
      have h1 := hI'.rep.initialized_iff
      have h2 := hI.rep.initialized_iff
      rw [hflag, h2] at h1
      exact (Bool.eq_iff_iff.mpr (by simpa using h1.not)).symm
    · refine hdiff ?_
      rw [← hI'.rep.nodes_eq, ← hI.rep.nodes_eq]
      exact hnodes h
  · intro hno hnull
    rw [hnull] at hq
    have hd := AHeap.denied_of_null hP hI.sound hq
    obtain ⟨os', hrun', hregions⟩ := malloc_untouched hI.rep hI.ok hd hno
    obtain ⟨-, he⟩ := Prod.mk.inj (Option.some.inj (hrun.symm.trans hrun'))
    rw [he]
    exact World.view_congr rfl rfl hregions

/-- The kernel maps the tiny zone of the setup and refuses the small one. -/
def cutShortAnswers : List (Option Nat) := [some 4096, none]

theorem malloc_atomic_sample : ∃ (c c' : Config World) (q : Nat), c.live = sampleLive ∧
    Step mandatory c (.malloc 24) q c' ∧
    ((q = null → c'.state.view = c.state.view) ↔ ¬c.state.LeavesTrace 24) := by
  obtain ⟨c, hc, hlive⟩ := reachable_sample
  obtain ⟨q, c', hs⟩ := reachable_total hc (valid_malloc (s := 24) (by decide))
  exact ⟨c, c', q, hlive, hs, malloc_atomic_iff hc hs⟩

/-- The first call of all returns NULL and leaves the tiny zone on its list. -/
theorem malloc_not_atomic : ¬∀ (c c' : Config World) (s q : Nat), Reachable 4096 c →
    Step mandatory c (.malloc s) q c' → q = null → c'.state.view = c.state.view := by
  intro h
  have hP := validPage_4096
  have hr : Rep 4096 (World.init 4096 (fun _ => 0) cutShortAnswers) AHeap.empty := init_rep hP
  obtain ⟨w', hrun, -, hr', -⟩ := malloc_run (s := 1) hP hr empty_ok
  have hq : (AHeap.empty.malloc 4096 (Os.init 4096 cutShortAnswers) 1).1 = null := by
    decide +kernel
  have hlist : (AHeap.empty.malloc 4096 (Os.init 4096 cutShortAnswers) 1).2.1.lists
      .freeTinyZones = [4096] := by
    decide +kernel
  have hrun' : mandatory.call (.malloc 1) (World.init 4096 (fun _ => 0) cutShortAnswers) =
      some (null, w') := hrun.trans (by rw [← hq]; rfl)
  have hview := h ⟨World.init 4096 (fun _ => 0) cutShortAnswers, []⟩ ⟨w', []⟩ 1 null
    ⟨hP, _, _, _, RunIn.nil⟩ ⟨(by decide : 1 < 2 ^ 64), hrun', rfl⟩ rfl
  have hnodes := (World.nodes_of_view hview).2 .freeTinyZones
  rw [hr'.nodes_eq, hr.nodes_eq] at hnodes
  have hempty : AHeap.empty.lists .freeTinyZones = [] := rfl
  rw [hempty] at hnodes
  exact List.cons_ne_nil _ _ (hlist.symm.trans hnodes)

/-! ## Availability -/

/-- Every `mmap` call made since was granted. -/
def Os.AllGranted (os os' : Os) : Prop :=
  ∃ calls, os'.log = calls ++ os.log ∧ ∀ n, SysCall.mmap n none ∉ calls

/-- The call asks `alloc_block` for `s` bytes. -/
def Op.Requests (w : World) (s : Nat) : Op → Prop
  | malloc s' => s' = s
  | realloc p s' => s' = s ∧
      (p = null ∨ ∃ n, currentSize (ld w.mem 8 (p - 8)) w = some (n, w) ∧ n < s)
  | _ => False

/-- No refill is refused in this step. -/
def Refilled (c : Config World) (op : Op) : Prop :=
  ∀ s, op.Requests c.state s → ¬c.state.RefillRefused s

/-- A refused `mmap` that is the last call made is noticed. -/
theorem Os.AllGranted.not_refused (calls : List SysCall) (h : os.AllGranted os')
    (hl : os'.log = .mmap n none :: (calls ++ os.log)) : False := by
  obtain ⟨l, hlog, hn⟩ := h
  rw [hl, ← List.cons_append] at hlog
  have he := List.append_cancel_right hlog
  exact hn n (he ▸ List.mem_cons_self)

/-- **With every `mmap` granted**, only a class without zones returns NULL. -/
theorem AHeap.Denied.of_granted (hd : A.Denied P os s r) (hg : os.AllGranted r.2)
    (hsize : ¬(s = 0 ∨ s > ptrdiffMax)) : A.initialized = true ∧
      ∃ cl, Cls.ofSize s = some cl ∧ A.lists cl.freeHead = [] := by
  have hlog : ∀ {os : Os} {n : Nat}, os.reply n = none →
      (os.mmap n).log = .mmap n none :: os.log := fun h => by rw [← h]; rfl
  cases hd with
  | size h => exact absurd h hsize
  | tiny _ _ hb => exact (hg.not_refused [] (hlog hb)).elim
  | small _ _ _ hb' => exact (hg.not_refused [_] (hlog hb')).elim
  | block _ _ _ _ _ hn => exact (hg.not_refused [_, _] (hlog hn)).elim
  | empty _ hi hc hl => exact ⟨hi, _, hc, hl⟩
  | refill _ _ _ _ _ _ hn => exact (hg.not_refused [] (hlog hn)).elim
  | large _ _ _ _ hn => exact (hg.not_refused [] (hlog hn)).elim

/-- Whether there is a zone to serve the request from, on the abstract heap. -/
theorem Rep.available_iff (hr : Rep P w A) : w.Available s ↔
    ¬(A.initialized = true ∧ ∃ cl, Cls.ofSize s = some cl ∧ A.lists cl.freeHead = []) := by
  unfold World.Available
  rw [hr.initialized_iff]
  cases hc : Cls.ofSize s with
  | none =>
    have := Cls.ofSize_none.mp hc
    simp [smallBlockSize]
    omega
  | some cl =>
    have hle : ¬s > smallBlockSize := fun h => by
      rw [Cls.ofSize_none.mpr h] at hc
      cases hc
    simp only [hle, false_or, Option.some.injEq, exists_eq_left', ne_eq, hr.head_eq_null]
    cases A.initialized <;> simp

/-- One call with every `mmap` granted. -/
theorem Inv.available_iff [Platform] (hP : ValidPage P) (hI : Inv P c A)
    (hsize : ¬(s = 0 ∨ s > ptrdiffMax)) (hs : Step mandatory c (.malloc s) q c') :
    (c.state.os.AllGranted c'.state.os → q ≠ null) ↔ c.state.Available s := by
  obtain ⟨w', hrun, hos, -⟩ := malloc_call hP hI s
  obtain ⟨rfl, rfl⟩ := Prod.mk.inj (Option.some.inj (hrun.symm.trans hs.run))
  rw [hI.rep.available_iff]
  constructor
  · rintro h ⟨hi, cl, hc, hl⟩
    have hmalloc := (AHeap.Denied.empty hsize hi hc hl).malloc hI.sound
    rw [hmalloc] at h hos
    exact h ⟨[], by rw [hos]; rfl, fun _ => List.not_mem_nil⟩ rfl
  · intro hav hg h0
    refine hav ((AHeap.denied_of_null hP hI.sound h0).of_granted ?_ hsize)
    rw [← hos]
    exact hg

/-- A `realloc` that does not fit in place asks for a block. -/
theorem Inv.requests_realloc (hP : ValidPage P) (hI : Inv P c A) {k : Cell} (hk : A.Holds k)
    (hlt : A.cap k < s) : (Op.realloc (k.addr P) s).Requests c.state s := by
  have hcell := hI.rep.wf.hasCell hk
  refine ⟨rfl, Or.inr ⟨A.cap k, ?_, hlt⟩⟩
  rw [(hI.rep.header hP hcell).2.2]
  exact currentSize_run hP hI.rep hcell

/-- One step that refuses no refill. -/
theorem Inv.stocked_step [Platform] (hP : ValidPage P) (hI : Inv P c A) (hst : A.Stocked) {op : Op}
    (hg : Refilled c op) (hs : Step mandatory c op q c') : ∃ A', Inv P c' A' ∧ A'.Stocked := by
  have hno : ∀ s, op.Requests c.state s → ¬A.LastTaken P c.state.os s := fun s hreq hlast =>
    hg s hreq ((hI.rep.refillRefused_iff hI.ok).mpr hlast)
  obtain ⟨r, he, -, -, hI'⟩ := step_effect hP hI hs
  refine ⟨r.2.1, hI', ?_⟩
  cases he with
  | malloc s => exact AHeap.malloc_stocked hP hI.sound hst (hno s rfl)
  | freeNull => exact hst
  | free hk => exact AHeap.free_stocked hP hI.sound hst hk
  | reallocNull s => exact AHeap.malloc_stocked hP hI.sound hst (hno s ⟨rfl, Or.inl rfl⟩)
  | realloc s hk =>
    exact AHeap.realloc_stocked hP hI.sound hst hk fun hlt => hno s (hI.requests_realloc hP hk hlt)
  | write => exact hst

/-- **Availability.** In every reachable state, a call within the limits whose `mmap` calls are
all granted returns a block exactly when the heap is not initialised yet, the request is large, or
the free list of its class has a zone. In a run that refuses no refill it always does. -/
theorem malloc_available [Platform] (hP : ValidPage P) :
    (∀ c s q c', Reachable P c → 1 ≤ s → s ≤ ptrdiffMax → Step mandatory c (.malloc s) q c' →
      ((c.state.os.AllGranted c'.state.os → q ≠ null) ↔ c.state.Available s)) ∧
    ∀ m answers t c, RunIn mandatory Refilled ⟨World.init P m answers, []⟩ t c →
      ∀ s q c', 1 ≤ s → s ≤ ptrdiffMax → Step mandatory c (.malloc s) q c' →
        c.state.os.AllGranted c'.state.os → q ≠ null := by
  refine ⟨fun c s q c' hc h1 h2 hs => ?_, fun m answers t c hrun s q c' h1 h2 hs => ?_⟩
  · obtain ⟨A, hI⟩ := reachable_inv hc
    exact hI.available_iff hP (by omega) hs
  · obtain ⟨A, hI, hst⟩ := hrun.invariant (I := fun c => ∃ A, Inv P c A ∧ A.Stocked)
      (fun ⟨_, hI, hst⟩ hg hs => hI.stocked_step hP hst hg hs)
      ⟨_, init_inv hP, fun h => by cases h⟩
    refine (hI.available_iff hP (by omega) hs).mpr (hI.rep.available_iff.mpr ?_)
    rintro ⟨hi, cl, -, hl⟩
    exact hst hi cl hl

theorem malloc_available_sample : ∃ (c c' : Config World) (q : Nat), c.live = sampleLive ∧
    Step mandatory c (.malloc 24) q c' ∧
    ((c.state.os.AllGranted c'.state.os → q ≠ null) ↔ c.state.Available 24) := by
  obtain ⟨c, hc, hlive⟩ := reachable_sample
  obtain ⟨q, c', hs⟩ := reachable_total hc (valid_malloc (s := 24) (by decide))
  exact ⟨c, c', q, hlive, hs,
    (malloc_available validPage_4096).1 c 24 q c' hc (by decide) (by decide) hs⟩

/-! ### A class that has run out -/

/-- The kernel maps the two zones of the setup and nothing after them. -/
def setupOnlyAnswers : List (Option Nat) := [some 4096, some 65536]

/-- Requests of one byte use up the zone `z`, whose refill is refused. -/
theorem drain [Platform]
    {z : Nat} : ∀ (n : Nat) {c : Config World} {A : AHeap}, Reachable P c → Inv P c A →
    A.initialized = true → A.lists .freeTinyZones = [z] → A.freeCount z = n + 1 →
    c.state.os.answers = [] →
    ∃ c' A', Reachable P c' ∧ Inv P c' A' ∧ A'.initialized = true ∧
      A'.lists .freeTinyZones = [] := by
  intro n
  induction n with
  | zero =>
    intro c A hc hI hi hl hcount hans
    obtain ⟨q, c₁, hs⟩ := reachable_total hc (valid_malloc (s := 1) (by decide))
    obtain ⟨r, he, -, -, hI₁⟩ := step_effect hc.1 hI hs
    cases he
    obtain ⟨i, hleast, hslot, -⟩ := AHeap.exists_leastFree (A := A) (z := z) (by omega)
    have htake := AHeap.freeCount_take (s := 1) hslot
    have hrefused : c.state.os.reply (Cls.tiny.total P) = none := by
      unfold Os.reply
      rw [hans]
    have hd : A.Denied P c.state.os 1 _ := AHeap.Denied.refill (c := .tiny) (by decide) hi rfl hl
      hleast (by omega) hrefused
    rw [hd.malloc hI.sound] at hI₁
    refine ⟨c₁, _, hc.step hs, hI₁, hi, ?_⟩
    change ((A.setSlot z i (some 1)).move z .freeTinyZones .fullTinyZones).lists
      .freeTinyZones = []
    rw [AHeap.move, AHeap.lists_append, if_neg (by decide), AHeap.lists_detach, if_pos rfl,
      AHeap.lists_setSlot, hl, List.erase_cons_head]
  | succ n ih =>
    intro c A hc hI hi hl hcount hans
    obtain ⟨q, c₁, hs⟩ := reachable_total hc (valid_malloc (s := 1) (by decide))
    obtain ⟨r, he, -, hos, hI₁⟩ := step_effect hc.1 hI hs
    cases he
    obtain ⟨i, hleast, hslot, -⟩ := AHeap.exists_leastFree (A := A) (z := z) (by omega)
    have htake := AHeap.freeCount_take (s := 1) hslot
    have hmalloc : A.malloc P c.state.os 1 =
        (Cls.tiny.slotAddr P z i, A.setSlot z i (some 1), c.state.os) := by
      rw [AHeap.malloc_of_initialized (by decide) hi, AHeap.alloc_zone (c := .tiny) rfl]
      have hne : ¬(A.setSlot z i (some 1)).freeCount z = 0 := by omega
      simp only [AHeap.allocZone, show A.lists Cls.tiny.freeHead = [z] from hl, hleast,
        AHeap.takeSlot, if_neg hne]
    rw [hmalloc] at hos hI₁
    have hcount₁ : (A.setSlot z i (some 1)).freeCount z = n + 1 := by omega
    exact ih (hc.step hs) hI₁ hi hl hcount₁ (by rw [hos]; exact hans)

/-- After the zone of the first call is used up with its refill refused, requests of one byte
return NULL without asking the kernel for anything. -/
theorem malloc_not_available : ¬∀ (c c' : Config World) (s q : Nat), Reachable 4096 c →
    1 ≤ s → s ≤ ptrdiffMax → Step mandatory c (.malloc s) q c' →
    c.state.os.AllGranted c'.state.os → q ≠ null := by
  intro h
  have hP := validPage_4096
  have hstart : Reachable 4096 ⟨World.init 4096 (fun _ => 0) setupOnlyAnswers, []⟩ :=
    ⟨hP, _, _, _, RunIn.nil⟩
  obtain ⟨q, c, hs⟩ := reachable_total hstart (valid_malloc (s := 1) (by decide))
  obtain ⟨r, he, -, hos, hI⟩ := step_effect hP (init_inv hP) hs
  have hr : r = AHeap.empty.malloc 4096 (Os.init 4096 setupOnlyAnswers) 1 := by
    cases he
    rfl
  have hfirst : (AHeap.empty.malloc 4096 (Os.init 4096 setupOnlyAnswers) 1).2.1.initialized ∧
      (AHeap.empty.malloc 4096 (Os.init 4096 setupOnlyAnswers) 1).2.1.lists .freeTinyZones =
        [4096] ∧
      (AHeap.empty.malloc 4096 (Os.init 4096 setupOnlyAnswers) 1).2.1.freeCount 4096 = 99 + 1 ∧
      (AHeap.empty.malloc 4096 (Os.init 4096 setupOnlyAnswers) 1).2.2.answers = [] := by
    decide +kernel
  rw [← hr] at hfirst
  obtain ⟨hi, hl, hcount, hans⟩ := hfirst
  obtain ⟨c₁, A₁, hc₁, hI₁, hi₁, hl₁⟩ :=
    drain 99 (hstart.step hs) hI hi hl hcount (by rw [hos]; exact hans)
  obtain ⟨q₂, c₂, hs₂⟩ := reachable_total hc₁ (valid_malloc (s := 1) (by decide))
  obtain ⟨r₂, he₂, hq₂, hos₂, -⟩ := step_effect hP hI₁ hs₂
  cases he₂
  have hd : A₁.Denied 4096 c₁.state.os 1 _ :=
    AHeap.Denied.empty (c := .tiny) (by decide) hi₁ rfl hl₁
  rw [hd.malloc hI₁.sound] at hq₂ hos₂
  exact h c₁ c₂ 1 q₂ hc₁ (by decide) (by decide) hs₂
    ⟨[], by rw [hos₂]; rfl, fun _ => List.not_mem_nil⟩ hq₂

end FtMalloc
