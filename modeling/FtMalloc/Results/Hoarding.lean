import FtMalloc.Abstract.Spare
import FtMalloc.Results.Accounting

/-!
# Zones that nobody uses

`free` unmaps a zone when its last block comes back and the zone is not alone in its list
(`malloc.c:242-261`), and `find_free_block` maps a zone when it hands out the last free block of the
first one, whatever else the list holds (`malloc.c:147-161`). Once an empty zone waits behind a
nearly full one, the next refill makes it two.

Results, for every run of the mandatory allocator in which no `mmap` fails:
* `no_hoarding`: as long as no request refills a free list that has an empty zone (`Hoards`), each
  class has one empty zone at most, and its zones are no more than its live allocations and one.
* `hoarding`: a run that ends with two empty zones.
-/

namespace FtMalloc

open Lib

variable {P : Nat} {A A' : AHeap} {w : World} {c c' : Config World} {cl : Cls} {s q b n z : Nat}
  {k : Cell} {op : Op} {r : Nat × AHeap × Os} {os : Os} {m : Mem} {answers : List (Option Nat)}
  {t : List (Op × Nat)} {rest zs : List Nat}

namespace World

variable (w : World)

/-- The zones of a class. -/
def zones (cl : Cls) : List Nat := w.nodes cl.freeHead ++ w.nodes cl.fullHead

/-- All blocks of `z` are free. -/
def AllFree (z : Nat) : Prop := w.freeCount z = w.numberOfBlocks z

/-- The allocation has a block of a zone of class `cl`, as its header word says. -/
def InZoneOf (cl : Cls) (x : Alloc) : Bool :=
  metaIsZone (ld w.mem 8 (x.ptr - 8)) &&
    decide (metaZone (ld w.mem 8 (x.ptr - 8)) ∈ w.zones cl)

/-- The request takes the last free block of the first zone of its class's free list, and the list
has a zone whose blocks are all free. -/
def Hoards (s : Nat) : Prop :=
  s ≠ 0 ∧ w.heap.initialized ≠ 0 ∧ ∃ cl, Cls.ofSize s = some cl ∧ w.heap.get cl.freeHead ≠ null ∧
    w.freeCount (w.heap.get cl.freeHead) = 1 ∧ ∃ z ∈ w.nodes cl.freeHead, w.AllFree z

end World

/-- No zone is mapped while one of its class is empty. -/
def Frugal (c : Config World) (op : Op) : Prop :=
  ∀ s, op.Requests c.state s → ¬c.state.Hoards s

/-! ## Reading the represented heap -/

theorem Rep.mem_zones (hr : Rep P w A) : z ∈ w.zones cl ↔ A.HasZone cl z := by
  unfold World.zones
  rw [List.mem_append]
  exact hr.inClass_iff

theorem Rep.zones_nodup (hr : Rep P w A) : (w.zones cl).Nodup := by
  unfold World.zones
  rw [hr.nodes_eq, hr.nodes_eq]
  refine List.Nodup.append (hr.wf.nodup _) (hr.wf.nodup _) fun z hz hz' => ?_
  exact cl.freeHead_ne_fullHead (hr.wf.once hz hz')

theorem Rep.allFree_iff (hr : Rep P w A) (hz : A.HasZone cl z) :
    w.AllFree z ↔ A.freeCount z = cl.cells P := by
  unfold World.AllFree
  rw [(hr.zone_fields hz).number, World.freeCount, (hr.zone hz).1.count]
  exact Nat.cast_inj

theorem Rep.hoards_iff (hr : Rep P w A) (hok : A.Ok P) (h0 : s ≠ 0) :
    w.Hoards s ↔ A.Wastes P s := by
  have hinit : w.heap.initialized ≠ 0 ↔ A.initialized = true := by
    rw [ne_eq, hr.initialized_iff, Bool.not_eq_false]
  have hspare : ∀ cl, (∃ z ∈ w.nodes cl.freeHead, w.AllFree z) ↔
      ∃ z ∈ A.lists cl.freeHead, A.Spare P cl z := by
    intro cl
    rw [hr.nodes_eq]
    refine exists_congr fun z => and_congr_right fun hz => ?_
    rw [hr.allFree_iff (Or.inl hz)]
    exact ⟨fun h => ⟨Or.inl hz, h⟩, fun h => h.2⟩
  unfold World.Hoards
  rw [hinit]
  constructor
  · rintro ⟨-, hi, cl, hc, hhead, hcount, hz⟩
    cases hl : A.lists cl.freeHead with
    | nil => exact absurd (hr.head_eq_null.mpr hl) hhead
    | cons z rest =>
      obtain ⟨he, -, hcz⟩ := hr.free_head hl
      obtain ⟨i, hleast, hslot, -⟩ := AHeap.exists_leastFree (hok.hasFree
        (show z ∈ A.lists cl.freeHead by rw [hl]; exact List.mem_cons_self))
      have htake := AHeap.freeCount_take (s := s) hslot
      rw [he, hcz] at hcount
      exact ⟨hi, cl, z, i, rest, hc, hl, hleast, by omega, (hspare cl).mp hz⟩
  · rintro ⟨hi, cl, z, i, rest, hc, hl, hleast, hlast, hz⟩
    obtain ⟨he, hne, hcz⟩ := hr.free_head hl
    obtain ⟨i', hleast', hslot, -⟩ := AHeap.exists_leastFree (hok.hasFree
      (show z ∈ A.lists cl.freeHead by rw [hl]; exact List.mem_cons_self))
    obtain rfl := Option.some.inj (hleast.symm.trans hleast')
    have htake := AHeap.freeCount_take (s := s) hslot
    refine ⟨h0, hi, cl, hc, ?_, ?_, (hspare cl).mpr hz⟩
    · rw [he]
      exact hne
    · rw [he, hcz]
      omega

/-! ## The bound -/

/-- A zone that is not empty has a held slot. -/
theorem AHeap.Wf.exists_held (hw : A.Wf P) (hz : A.HasZone cl z)
    (hne : A.freeCount z ≠ cl.cells P) : ∃ i, A.Holds (.slot cl z i) := by
  by_contra hnone
  refine hne ?_
  rw [← hw.cells hz]
  refine List.countP_eq_length.mpr fun o ho => ?_
  obtain ⟨i, hi, rfl⟩ := List.getElem_of_mem ho
  cases hs : (A.slots z)[i] with
  | none => rfl
  | some n => exact absurd ⟨i, hz, n, by rw [List.getElem?_eq_getElem hi, hs]⟩ hnone

/-- A zone that is not empty has a live allocation. -/
theorem Inv.exists_live (hP : ValidPage P) (hI : Inv P c A) (ha : Accounted P A c.live)
    (hz : A.HasZone cl z) (hne : A.freeCount z ≠ cl.cells P) :
    ∃ x ∈ c.live, c.state.InZoneOf cl x ∧ metaZone (ld c.state.mem 8 (x.ptr - 8)) = z := by
  obtain ⟨i, hk⟩ := hI.ok.toWf.exists_held hz hne
  have hcell := hI.rep.wf.hasCell hk
  obtain ⟨x, hx, hptr⟩ := ha _ hk
  obtain ⟨hflag, hzone, -⟩ := hI.rep.slot_decodes hP hcell
  have hword := (hI.rep.header hP hcell).2.2
  rw [← hptr] at hword
  refine ⟨x, hx, ?_, ?_⟩
  · unfold World.InZoneOf
    rw [hword, hflag, hzone]
    simpa using hI.rep.mem_zones.mpr hz
  · rw [hword, hzone]

/-- With one spare zone at most, the zones of a class are its live allocations and one. -/
theorem Inv.zones_le (hP : ValidPage P) (hI : Inv P c A) (ha : Accounted P A c.live)
    (hone : ∀ z z', A.Spare P cl z → A.Spare P cl z' → z = z') :
    (c.state.zones cl).length ≤ (c.live.filter (c.state.InZoneOf cl)).length + 1 := by
  have hnodup : (c.state.zones cl).Nodup := hI.rep.zones_nodup
  let used : Nat → Bool := fun z => decide (A.freeCount z ≠ cl.cells P)
  have hsplit := (c.state.zones cl).length_eq_length_filter_add used
  have hused : ((c.state.zones cl).filter used).length ≤
      (c.live.filter (c.state.InZoneOf cl)).length := by
    have hsub : (c.state.zones cl).filter used ⊆ (c.live.filter (c.state.InZoneOf cl)).map
        fun x => metaZone (ld c.state.mem 8 (x.ptr - 8)) := by
      intro z hz
      obtain ⟨hz, hne⟩ := List.mem_filter.mp hz
      obtain ⟨x, hx, hin, he⟩ :=
        hI.exists_live hP ha (hI.rep.mem_zones.mp hz) (of_decide_eq_true hne)
      exact List.mem_map.mpr ⟨x, List.mem_filter.mpr ⟨hx, hin⟩, he⟩
    simpa using ((hnodup.filter used).subperm hsub).length_le
  have hspare : ((c.state.zones cl).filter fun z => !used z).length ≤ 1 := by
    have hall : ∀ z ∈ (c.state.zones cl).filter fun z => !used z, A.Spare P cl z := by
      intro z hz
      obtain ⟨hz, hfree⟩ := List.mem_filter.mp hz
      exact ⟨hI.rep.mem_zones.mp hz, by simpa [used] using hfree⟩
    have hdistinct := hnodup.filter fun z => !used z
    generalize (c.state.zones cl).filter (fun z => !used z) = zs at hall hdistinct
    match zs with
    | [] => exact Nat.zero_le _
    | [_] => exact Nat.le_refl _
    | z :: z' :: _ =>
      have he := hone z z' (hall z (by simp)) (hall z' (by simp))
      exact absurd (he ▸ List.mem_cons_self) (List.nodup_cons.mp hdistinct).1
  omega

/-! ## Runs -/

theorem AHeap.Thrifty.empty : AHeap.empty.Thrifty P where
  one := fun _ _ _ hz _ => absurd hz.1 not_hasZone_empty
  bare := fun _ _ _ => not_hasZone_empty

/-- **One step** in which no `mmap` fails and no zone is hoarded. -/
theorem EffectOf.thrifty (hP : ValidPage P) (hI : Inv P c A) (hl : A.Thrifty P)
    (hg : Frugal c op) (he : Effect P A c.state.os op r) (hu : r.2.2.Unrefused) :
    r.2.1.Thrifty P := by
  have hs := hI.sound
  have hmalloc : ∀ s, op.Requests c.state s → (A.malloc P c.state.os s).2.2.Unrefused →
      (A.malloc P c.state.os s).2.1.Thrifty P := by
    intro s hreq hu
    by_cases h0 : s = 0
    · have hd : A.Denied P c.state.os s _ := AHeap.Denied.size (Or.inl h0)
      rw [hd.malloc hs]
      exact hl
    · exact AHeap.malloc_thrifty hP hs hl hu fun hw =>
        hg s hreq ((hI.rep.hoards_iff hI.ok h0).mpr hw)
  cases he with
  | malloc s => exact hmalloc s rfl hu
  | freeNull => exact hl
  | free hk => exact AHeap.free_thrifty hP hs hl hk
  | reallocNull s => exact hmalloc s ⟨rfl, Or.inl rfl⟩ hu
  | realloc s hk =>
    refine AHeap.realloc_thrifty hP hs hl hk hu fun hlt hw => ?_
    have h0 : s ≠ 0 := by omega
    exact hg s (hI.requests_realloc hP hk hlt) ((hI.rep.hoards_iff hI.ok h0).mpr hw)
  | write => exact hl

/-- **No hoarding.** In a run in which no `mmap` fails and no request refills a list that has an
empty zone, a class has one empty zone at most, and no more zones than live allocations and one. -/
theorem no_hoarding [Platform] (hP : ValidPage P)
    (hrun : RunIn mandatory Frugal ⟨World.init P m answers, []⟩ t c) (hu : c.state.os.Unrefused)
    (cl : Cls) :
    (∀ z ∈ c.state.zones cl, ∀ z' ∈ c.state.zones cl, c.state.AllFree z → c.state.AllFree z' →
      z = z') ∧
    (c.state.zones cl).length ≤ (c.live.filter (c.state.InZoneOf cl)).length + 1 := by
  let I : Config World → Prop := fun c => ∃ A, Inv P c A ∧
    (c.state.os.Unrefused → Accounted P A c.live ∧ A.Thrifty P)
  have hstart : I ⟨World.init P m answers, []⟩ :=
    ⟨_, init_inv hP, fun _ => ⟨Accounted.empty, AHeap.Thrifty.empty⟩⟩
  have hstep : ∀ {c op q c'}, I c → Frugal c op → Step mandatory c op q c' → I c' := by
    rintro c op q c' ⟨A, hI, hbooks⟩ hg hs
    obtain ⟨r, he, rfl, hos, hI'⟩ := step_effect hP hI hs
    refine ⟨r.2.1, hI', fun hu' => ?_⟩
    rw [hos] at hu'
    rw [hs.live]
    obtain ⟨ha, hl⟩ := hbooks (hu'.of_since (he.since hP hI))
    exact ⟨he.accounted hP hI ha hu', he.thrifty hP hI hl hg hu'⟩
  obtain ⟨A, hI, hbooks⟩ := hrun.invariant hstep hstart
  obtain ⟨ha, hl⟩ := hbooks hu
  refine ⟨fun z hz z' hz' hf hf' => ?_, hI.zones_le hP ha (hl.one cl)⟩
  have hzone := hI.rep.mem_zones.mp hz
  have hzone' := hI.rep.mem_zones.mp hz'
  exact hl.one cl z z' ⟨hzone, (hI.rep.allFree_iff hzone).mp hf⟩
    ⟨hzone', (hI.rep.allFree_iff hzone').mp hf'⟩

/-- A test for `Frugal` on a request: its class has more than one free block in the first zone. -/
def spares (c : Config World) : Op → Bool
  | .malloc s =>
    decide (c.state.heap.initialized = 0) || (Cls.ofSize s).all fun cl =>
      decide (c.state.freeCount (c.state.heap.get cl.freeHead) ≠ 1)
  | .realloc _ _ => false
  | _ => true

theorem frugal_of_spares (h : spares c op) : Frugal c op := by
  rintro s hreq ⟨-, hi, cl, hcl, -, hone, -⟩
  cases op with
  | malloc s' =>
    obtain rfl : s' = s := hreq
    rcases (Bool.or_eq_true _ _).mp h with h | h
    · exact hi (of_decide_eq_true h)
    · rw [hcl, Option.all_some] at h
      exact of_decide_eq_true h hone
  | realloc p n => cases h
  | free p => exact hreq.elim
  | write a b => exact hreq.elim

/-- The first zone is emptied, kept, and used again. -/
theorem no_hoarding_sample : ∃ c : Config World, c.live = [⟨4997, 30⟩, ⟨66445, 500⟩] ∧
    (∀ z ∈ c.state.zones .tiny, ∀ z' ∈ c.state.zones .tiny, c.state.AllFree z →
      c.state.AllFree z' → z = z') ∧
    (c.state.zones .tiny).length ≤ (c.live.filter (c.state.InZoneOf .tiny)).length + 1 := by
  have heval : (mandatory.eval spares [.malloc 24, .malloc 500, .free 4997, .malloc 30]
      sampleStart).map (fun e => (e.2.live, e.2.state.os.log)) =
        some ([⟨4997, 30⟩, ⟨66445, 500⟩], [.mmap 106496 (some 65536), .mmap 8192 (some 4096)]) := by
    decide +kernel
  obtain ⟨⟨t, c⟩, hrun, he⟩ := Option.map_eq_some_iff.mp heval
  obtain ⟨hlive, hlog⟩ := Prod.mk.inj he
  have hu : c.state.os.Unrefused := fun n hm => by
    rw [hlog] at hm
    simp at hm
  have hfrugal := Api.eval_run (fun _ _ => frugal_of_spares) hrun
  exact ⟨c, hlive, no_hoarding validPage_4096 hfrugal hu .tiny⟩

/-! ### Two empty zones -/

/-- A request of one byte while the first tiny zone has other free slots. -/
theorem AHeap.malloc_within (hi : A.initialized = true)
    (hl : A.lists .freeTinyZones = z :: rest) (hcount : A.freeCount z = n + 2) :
    ∃ q i, A.malloc P os 1 = (q, A.setSlot z i (some 1), os) ∧
      (A.setSlot z i (some 1)).freeCount z = n + 1 := by
  obtain ⟨i, hleast, hslot, -⟩ := exists_leastFree (A := A) (z := z) (by omega)
  have htake := freeCount_take (s := 1) hslot
  have hne : ¬(A.setSlot z i (some 1)).freeCount z = 0 := by omega
  refine ⟨Cls.tiny.slotAddr P z i, i, ?_, by omega⟩
  rw [malloc_of_initialized (by decide) hi, alloc_zone (c := .tiny) rfl]
  simp only [allocZone, show A.lists Cls.tiny.freeHead = z :: rest from hl, hleast, takeSlot,
    if_neg hne]

/-- A request of one byte for the last free slot of the first tiny zone. -/
theorem AHeap.malloc_last (hi : A.initialized = true) (hl : A.lists .freeTinyZones = z :: rest)
    (hcount : A.freeCount z = 1) (hb : os.reply (Cls.tiny.total P) = some b) :
    ∃ q i, A.malloc P os 1 = (q, ((A.setSlot z i (some 1)).move z .freeTinyZones
      .fullTinyZones).addZone P .tiny b, os.mmap (Cls.tiny.total P)) ∧
        (A.setSlot z i (some 1)).freeCount z = 0 := by
  obtain ⟨i, hleast, hslot, -⟩ := exists_leastFree (A := A) (z := z) (by omega)
  have htake := freeCount_take (s := 1) hslot
  have h0 : (A.setSlot z i (some 1)).freeCount z = 0 := by omega
  refine ⟨Cls.tiny.slotAddr P z i, i, ?_, h0⟩
  rw [malloc_of_initialized (by decide) hi, alloc_zone (c := .tiny) rfl]
  simp only [allocZone, show A.lists Cls.tiny.freeHead = z :: rest from hl, hleast, takeSlot,
    if_pos h0, createZone, hb, if_true]
  rfl

/-- The kernel maps five zones. -/
def fiveZones : List (Option Nat) :=
  [some 4096, some 65536, some 262144, some 327680, some 393216]

/-- The first call asks for one byte. -/
def firstByte : Nat × AHeap × Os := AHeap.empty.malloc 4096 (Os.init 4096 fiveZones) 1

/-- The system after `k` more tiny zones. -/
def afterZones : Nat → Os
  | 0 => firstByte.2.2
  | k + 1 => (afterZones k).mmap (Cls.tiny.total 4096)

/-- A reachable state over the system `os` whose free tiny zones are `zs`. -/
structure Stage [Platform] (c : Config World) (A : AHeap) (os : Os) (zs : List Nat) : Prop where
  reachable : Reachable 4096 c
  inv : Inv 4096 c A
  ready : A.initialized = true
  free : A.lists .freeTinyZones = zs
  system : c.state.os = os

/-- Requests of one byte fill the zone `z` and map the zone `b`. -/
theorem Stage.fill [Platform]
    (hb : os.reply (Cls.tiny.total 4096) = some b) : ∀ (n : Nat) {c : Config World}
    {A : AHeap}, Stage c A os (z :: rest) → A.freeCount z = n + 1 →
    ∃ c' A', Stage c' A' (os.mmap (Cls.tiny.total 4096)) (rest ++ [b]) ∧
      A'.HasZone .tiny z ∧ A'.freeCount z = 0 ∧ A'.freeCount b = 101 ∧
      ∀ y, y ≠ z → y ≠ b → A'.freeCount y = A.freeCount y := by
  intro n
  induction n with
  | zero =>
    intro c A hst hcount
    obtain ⟨hc, hI, hi, hl, rfl⟩ := hst
    obtain ⟨q, c₁, hs⟩ := reachable_total hc (valid_malloc (s := 1) (by decide))
    obtain ⟨r, he, -, hos, hI₁⟩ := step_effect hc.1 hI hs
    cases he
    obtain ⟨q', i, hmalloc, h0⟩ := AHeap.malloc_last hi hl hcount hb
    rw [hmalloc] at hos hI₁
    have hz : z ∈ A.lists .freeTinyZones := AHeap.first_mem hl
    have hne : z ≠ b := (hI.rep.backed.fresh hb).ne_of_mem hz
    refine ⟨c₁, _, ⟨hc.step hs, hI₁, hi, ?_, hos⟩, ?_, ?_, ?_, fun y hy hyb => ?_⟩
    · change ((A.setSlot z i (some 1)).move z .freeTinyZones .fullTinyZones).lists
        .freeTinyZones ++ [b] = _
      rw [AHeap.move, AHeap.lists_append, if_neg (by decide), AHeap.lists_detach, if_pos rfl,
        AHeap.lists_setSlot, hl, List.erase_cons_head]
    · exact AHeap.hasZone_addZone.mpr (Or.inl (Or.inr (AHeap.mem_append.mpr (Or.inr ⟨rfl, rfl⟩))))
    · rw [AHeap.freeCount_addZone_ne hne]
      exact h0
    · exact AHeap.freeCount_addZone_self
    · rw [AHeap.freeCount_addZone_ne hyb]
      exact AHeap.freeCount_setSlot_ne hy
  | succ n ih =>
    intro c A hst hcount
    obtain ⟨hc, hI, hi, hl, rfl⟩ := hst
    obtain ⟨q, c₁, hs⟩ := reachable_total hc (valid_malloc (s := 1) (by decide))
    obtain ⟨r, he, -, hos, hI₁⟩ := step_effect hc.1 hI hs
    cases he
    obtain ⟨q', i, hmalloc, hcount₁⟩ := AHeap.malloc_within hi hl hcount
    rw [hmalloc] at hos hI₁
    obtain ⟨c', A', hst', hzone, hz, hnew, hold⟩ := ih ⟨hc.step hs, hI₁, hi, hl, hos⟩ hcount₁
    refine ⟨c', A', hst', hzone, hz, hnew, fun y hy hyb => ?_⟩
    rw [hold y hy hyb, AHeap.freeCount_setSlot_ne hy]

/-- The client gives back a block of a full zone, which goes to the end of the free list. -/
theorem Stage.giveBack [Platform]
    (hst : Stage c A os zs) (hu : os.Unrefused) (hz : A.HasZone .tiny z)
    (h0 : A.freeCount z = 0) : ∃ c' A', Stage c' A' os (zs ++ [z]) ∧ A'.freeCount z = 1 ∧
      ∀ y, y ≠ z → A'.freeCount y = A.freeCount y := by
  obtain ⟨hc, hI, hi, hl, rfl⟩ := hst
  obtain ⟨hP, m, answers, t, hrun⟩ := id hc
  obtain ⟨i, hk⟩ := hI.ok.toWf.exists_held hz (by rw [h0]; decide)
  -- nothing is lost, so the block is live
  obtain ⟨x, hx, hptr⟩ : ∃ x ∈ c.live, x.ptr = (Cell.slot .tiny z i).addr 4096 := by
    obtain ⟨A', hI', ha⟩ := unrefused_inv hP hrun hu
    have hout := (hI.rep.handedOut_iff hP).mpr ⟨_, hk, rfl⟩
    obtain ⟨k, hk', he⟩ := (hI'.rep.handedOut_iff hP).mp hout
    rw [← he]
    exact ha k hk'
  obtain ⟨w', hfree, hos, hI'⟩ := free_call hP hI hk
  have hs : Step mandatory c (.free ((Cell.slot .tiny z i).addr 4096)) null
      ⟨w', drop c.live ((Cell.slot .tiny z i).addr 4096)⟩ :=
    ⟨Or.inr ⟨x, hx, hptr⟩, Prog.bind_to hfree rfl, rfl⟩
  obtain ⟨-, r, hslot⟩ := hk
  have hcount : (A.setSlot z i none).freeCount z = 1 := by
    rw [AHeap.freeCount_release hslot, h0]
  have hr : A.free 4096 c.state.os (.slot .tiny z i) =
      ((A.setSlot z i none).move z .fullTinyZones .freeTinyZones, c.state.os) := by
    simp only [AHeap.free, AHeap.freeSlot]
    rw [if_neg (by rw [hcount]; decide), if_pos hcount]
    rfl
  rw [hr] at hos hI'
  refine ⟨_, _, ⟨hc.step hs, hI', hi, ?_, hos⟩, hcount, fun y hy => AHeap.freeCount_setSlot_ne hy⟩
  rw [AHeap.move, AHeap.lists_append, if_pos rfl, AHeap.lists_detach, if_neg (by decide),
    AHeap.lists_setSlot, hl]

/-- **Two empty zones.** The first zone fills up and one of its blocks comes back, behind the
second zone; when that one fills up too, the third zone is mapped, and the next request takes the
free block of the first zone and maps the fourth. -/
theorem hoarding : ¬∀ c, Reachable 4096 c → c.state.os.Unrefused → ∀ cl,
    ∀ z ∈ c.state.zones cl, ∀ z' ∈ c.state.zones cl, c.state.AllFree z → c.state.AllFree z' →
      z = z' := by
  intro h
  have hP := validPage_4096
  have hstart : Reachable 4096 ⟨World.init 4096 (fun _ => 0) fiveZones, []⟩ :=
    ⟨hP, _, _, _, RunIn.nil⟩
  obtain ⟨q, c₀, hs⟩ := reachable_total hstart (valid_malloc (s := 1) (by decide))
  obtain ⟨r, he, -, hos, hI⟩ := step_effect hP (init_inv hP) hs
  have hr : r = firstByte := by
    cases he
    rfl
  rw [hr] at hos hI
  obtain ⟨hi, hl, hcount⟩ : firstByte.2.1.initialized ∧
      firstByte.2.1.lists .freeTinyZones = [4096] ∧ firstByte.2.1.freeCount 4096 = 99 + 1 := by
    decide +kernel
  have hlog : (afterZones 3).log = [.mmap 8192 (some 393216), .mmap 8192 (some 327680),
      .mmap 8192 (some 262144), .mmap 106496 (some 65536), .mmap 8192 (some 4096)] := by
    decide +kernel
  have hu₃ : (afterZones 3).Unrefused := fun n hm => by
    rw [hlog] at hm
    simp at hm
  have hu₁ : (afterZones 1).Unrefused :=
    hu₃.of_since (((Os.MapsOnly.one _ _).trans (Os.MapsOnly.one _ _)).since)
  have h0 : Stage c₀ firstByte.2.1 (afterZones 0) [4096] := ⟨hstart.step hs, hI, hi, hl, hos⟩
  obtain ⟨c₁, A₁, h1, hz, hfull, hnew, -⟩ := h0.fill (b := 262144) (by decide +kernel) 99 hcount
  obtain ⟨c₂, A₂, h2, hone, hold₂⟩ := h1.giveBack hu₁ hz hfull
  have hb₂ : A₂.freeCount 262144 = 100 + 1 := (hold₂ _ (by decide)).trans hnew
  obtain ⟨c₃, A₃, h3, -, -, hc₃, hold₃⟩ := Stage.fill (b := 327680) (by decide +kernel) 100 h2 hb₂
  have hz₃ : A₃.freeCount 4096 = 0 + 1 := (hold₃ _ (by decide) (by decide)).trans hone
  obtain ⟨c₄, A₄, h4, -, -, hd₄, hold₄⟩ := Stage.fill (b := 393216) (by decide +kernel) 0 h3 hz₃
  have hc₄ : A₄.freeCount 327680 = 101 := (hold₄ _ (by decide) (by decide)).trans hc₃
  have hfree : ∀ z ∈ [327680, 393216], A₄.HasZone .tiny z := fun z hm => Or.inl (by
    rw [show A₄.lists Cls.tiny.freeHead = _ from h4.free]
    exact hm)
  have hz := hfree 327680 (by decide)
  have hz' := hfree 393216 (by decide)
  have hr := h4.inv.rep
  have heq := h c₄ h4.reachable (by rw [h4.system]; exact hu₃) .tiny _ (hr.mem_zones.mpr hz) _
    (hr.mem_zones.mpr hz') ((hr.allFree_iff hz).mpr hc₄) ((hr.allFree_iff hz').mpr hd₄)
  exact absurd heq (by decide)

end FtMalloc
