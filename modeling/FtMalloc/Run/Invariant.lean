import FtMalloc.Refine.Realloc
import FtMalloc.Run.Client

/-!
# The invariant of the mandatory allocator

`Inv P c A`: the world of `c` represents `A`, `A` keeps the allocator's invariant, and every live
allocation is a held cell with room for its size (`Owned`).

Results:
* `init_inv`, `step_inv`, `reachable_inv`: the invariant holds in every reachable configuration.
* `call_effect`, `step_effect`: a call that keeps the client's rules never faults, whatever `mmap`
  answers, and does to the abstract heap what `Effect` says.
-/

namespace FtMalloc

open Lib

/-- Every live allocation is a held cell, with room for the size requested, and no pointer is live
twice. -/
structure Owned (P : Nat) (A : AHeap) (live : List Alloc) : Prop where
  cell : ∀ x ∈ live, ∃ k, A.Holds k ∧ k.addr P = x.ptr ∧ x.size ≤ A.cap k
  nodup : (live.map Alloc.ptr).Nodup

/-- **The invariant of a configuration**: the world represents a heap that is consistent, and the
client's allocations are cells of it. -/
structure Inv (P : Nat) (c : Config World) (A : AHeap) : Prop where
  rep : Rep P c.state A
  ok : A.Ok P
  owned : Owned P A c.live

/-- A configuration some run of the mandatory allocator reaches. `ValidPage P` is the size of the
system's pages: 4096, or any other for which the zone arithmetic does not overflow. -/
def Reachable [Platform] (P : Nat) (c : Config World) : Prop :=
  ValidPage P ∧ ∃ m answers t, Run mandatory ⟨World.init P m answers, []⟩ t c

variable {P : Nat} {A A' : AHeap} {os : Os} {live : List Alloc} {s q a : Nat} {k k' : Cell}
  {c c' : Config World} {op : Op} {w w' : World}

/-! ## What the client owns -/

theorem AHeap.Ok.cap_pos (hP : ValidPage P) (hok : A.Ok P) (hk : A.Holds k) : 0 < A.cap k := by
  cases k with
  | slot c z i =>
    have hpos := (hP.layout c).size_pos
    change 0 < c.size
    omega
  | block b =>
    have hlarge := hok.large rfl hk
    change 0 < A.size b
    omega

/-- Held cells are told apart by their pointers, so a release meets the cell that was meant. -/
theorem AHeap.Sound.addr_inj (hP : ValidPage P) (hs : A.Sound P os) (hk : A.Holds k)
    (hk' : A.Holds k') (he : k.addr P = k'.addr P) : k = k' :=
  hs.backed.addr_inj hP hs.ok.toWf (hs.ok.toWf.hasCell hk) (hs.ok.toWf.hasCell hk')
    (hs.ok.cap_pos hP hk) (hs.ok.cap_pos hP hk') he

/-- What is kept stays owned, with the room it had: the case of an operation that only adds
cells. -/
theorem Owned.mono (ho : Owned P A live) (hg : ∀ {k}, A.Holds k → A'.Holds k ∧ A'.cap k = A.cap k) :
    Owned P A' live := by
  refine ⟨fun x hx => ?_, ho.nodup⟩
  obtain ⟨k, hk, haddr, hsize⟩ := ho.cell x hx
  obtain ⟨hk', hcap⟩ := hg hk
  exact ⟨k, hk', haddr, hcap ▸ hsize⟩

/-- Releasing a cell forgets its pointer only, when every other cell is kept. -/
theorem Owned.release (ho : Owned P A live) (hkeep : AHeap.KeepsBut k A A') :
    Owned P A' (drop live (k.addr P)) := by
  refine ⟨fun x hx => ?_, ?_⟩
  · obtain ⟨hx, hne⟩ := mem_drop.mp hx
    obtain ⟨k', hk', haddr, hsize⟩ := ho.cell x hx
    have hkk : k' ≠ k := by
      rintro rfl
      exact hne haddr.symm
    obtain ⟨hheld, hcap⟩ := hkeep hkk hk'
    exact ⟨k', hheld, haddr, hcap ▸ hsize⟩
  · exact List.Nodup.sublist (List.Sublist.map _ List.filter_sublist) ho.nodup

/-- A held cell nobody owns yet becomes an allocation. -/
theorem Owned.add (ho : Owned P A live) (hk : A.Holds k) (hs : s ≤ A.cap k)
    (hnew : ∀ x ∈ live, x.ptr ≠ k.addr P) : Owned P A (⟨k.addr P, s⟩ :: live) := by
  refine ⟨fun x hx => ?_, List.nodup_cons.mpr ⟨fun hm => ?_, ho.nodup⟩⟩
  · rcases List.mem_cons.mp hx with rfl | hx
    · exact ⟨k, hk, rfl, hs⟩
    · exact ho.cell x hx
  · obtain ⟨x, hx, he⟩ := List.mem_map.mp hm
    exact hnew x hx he

/-- The allocations after an allocation, which may have returned NULL. -/
theorem Owned.serve {r : Nat × AHeap × Os} (hP : ValidPage P) (ho : Owned P A live)
    (hw : A.Wf P) (hv : AHeap.Serves P A s r) :
    Owned P r.2.1 (if r.1 = null then live else ⟨r.1, s⟩ :: live) := by
  have hkept : Owned P r.2.1 live :=
    ho.mono fun hk => ⟨hv.grows.held hk, hv.grows.cap (hw.hasCell hk)⟩
  by_cases h0 : r.1 = null
  · rw [if_pos h0]
    exact hkept
  · rw [if_neg h0]
    obtain ⟨k', haddr, hnew, hheld, hsize⟩ := hv.result.resolve_left h0
    rw [← haddr]
    refine hkept.add hheld hsize fun x hx he => hnew ?_
    obtain ⟨k, hk, hkx, -⟩ := ho.cell x hx
    rw [← hv.sound.addr_inj hP (hv.grows.held hk) hheld (hkx.trans he)]
    exact hk

/-- The allocations after a resizing: in place, moved, or refused with the old one kept. -/
theorem Owned.resize {r : Nat × AHeap × Os} (hP : ValidPage P) (ho : Owned P A live)
    (hv : AHeap.Resizes P A k s r) :
    Owned P r.2.1 (if r.1 ≠ null then ⟨r.1, s⟩ :: drop live (k.addr P) else live) := by
  have hdrop := ho.release hv.keeps
  rcases hv.result with ⟨hres, hheld, hcap⟩ | ⟨h0, k', haddr, hnew, hheld, hsize⟩
  · have hkept : Owned P r.2.1 live := ho.mono fun {k'} hk' => by
      by_cases e : k' = k
      · subst e
        exact ⟨hheld, hcap⟩
      · exact hv.keeps e hk'
    by_cases h0 : r.1 = null
    · rw [if_neg (not_not_intro h0)]
      exact hkept
    · rw [if_pos h0]
      obtain ⟨hr, hs⟩ := hres.resolve_left h0
      rw [hr]
      exact hdrop.add hheld (hcap ▸ hs) fun x hx => (mem_drop.mp hx).2
  · rw [if_pos h0, ← haddr]
    refine hdrop.add hheld hsize fun x hx he => hnew ?_
    obtain ⟨hx, hne⟩ := mem_drop.mp hx
    obtain ⟨kx, hkx, hkaddr, -⟩ := ho.cell x hx
    have hkk : kx ≠ k := by
      rintro rfl
      exact hne hkaddr.symm
    rw [← hv.sound.addr_inj hP (hv.keeps hkk hkx).1 hheld (hkaddr.trans he)]
    exact hkx

/-! ## One call -/

theorem Inv.sound (hI : Inv P c A) : A.Sound P c.state.os := ⟨hI.ok, hI.rep.backed⟩

/-- A live pointer is a held cell's, which is what `free` and `realloc` ask for. -/
theorem Inv.cell (hI : Inv P c A) {p : Nat} (hx : ∃ x ∈ c.live, x.ptr = p) :
    ∃ k, A.Holds k ∧ k.addr P = p := by
  obtain ⟨x, hx, rfl⟩ := hx
  obtain ⟨k, hk, haddr, -⟩ := hI.owned.cell x hx
  exact ⟨k, hk, haddr⟩

theorem Owned.ptr_ne_null (hP : ValidPage P) (hr : Rep P w A) (ho : Owned P A live) :
    ∀ x ∈ live, x.ptr ≠ null := by
  intro x hx
  obtain ⟨k, hk, haddr, -⟩ := ho.cell x hx
  rw [← haddr]
  exact hr.addr_ne_zero hP (hr.wf.hasCell hk)

theorem Inv.ptr_ne_null (hP : ValidPage P) (hI : Inv P c A) : ∀ x ∈ c.live, x.ptr ≠ null :=
  hI.owned.ptr_ne_null hP hI.rep

/-- A call of `malloc`, also through `realloc(NULL, s)` (`malloc.c:277-280`). -/
theorem malloc_call [Platform] (hP : ValidPage P) (hI : Inv P c A) (s : Nat) :
    let r := A.malloc P c.state.os s
    ∃ w', malloc s c.state = some (r.1, w') ∧ w'.os = r.2.2 ∧
      Inv P ⟨w', if r.1 = null then c.live else ⟨r.1, s⟩ :: c.live⟩ r.2.1 := by
  obtain ⟨w', hrun, hos, hr, -⟩ := malloc_run (s := s) hP hI.rep hI.ok
  have hv := AHeap.malloc_serves (s := s) hP hI.sound
  exact ⟨w', hrun, hos, hr, hv.sound.ok, hI.owned.serve hP hI.ok.toWf hv⟩

/-- A call of `free` on a held cell's pointer (`malloc.c:226-273`). -/
theorem free_call [Platform] (hP : ValidPage P) (hI : Inv P c A) (hk : A.Holds k) :
    let r := A.free P c.state.os k
    ∃ w', free (k.addr P) c.state = some ((), w') ∧ w'.os = r.2 ∧
      Inv P ⟨w', drop c.live (k.addr P)⟩ r.1 := by
  obtain ⟨w', hrun, hos, hr, -⟩ := free_run hP hI.rep hI.ok hk
  obtain ⟨hs, hkeep⟩ := AHeap.free_releases hP hI.sound hk
  exact ⟨w', hrun, hos, hr, hs.ok, hI.owned.release hkeep⟩

/-- A call of `realloc` on a held cell's pointer (`malloc.c:276-311`), to any size. -/
theorem realloc_call [Platform] (hP : ValidPage P) (hI : Inv P c A) (hk : A.Holds k) (s : Nat) :
    let r := A.realloc P c.state.os k s
    ∃ w', realloc (k.addr P) s c.state = some (r.1, w') ∧ w'.os = r.2.2 ∧
      Inv P ⟨w', if r.1 ≠ null then ⟨r.1, s⟩ :: drop c.live (k.addr P) else c.live⟩ r.2.1 := by
  obtain ⟨w', hrun, hos, hr, -⟩ := realloc_run (s := s) hP hI.rep hI.ok hk
  have hv := AHeap.realloc_resizes (s := s) hP hI.sound hk
  exact ⟨w', hrun, hos, hr, hv.sound.ok, hI.owned.resize hP hv⟩

/-- A write of the client is a write to the payload of a cell it owns, so nothing of the allocator's
changes. -/
theorem write_call {b : Byte} (hP : ValidPage P) (hr : Rep P w A) (ho : Owned P A live)
    (hv : (Op.write a b).Valid live) :
    ∃ k, A.Holds k ∧ (∃ x ∈ live, x.ptr = k.addr P) ∧ k.addr P ≤ a ∧ a < k.addr P + A.cap k ∧
      storeByte a b w = some ((), w.setMem (put w.mem a b)) ∧
      Rep P (w.setMem (put w.mem a b)) A := by
  obtain ⟨x, hx, h1, h2⟩ := hv
  obtain ⟨k, hk, haddr, hsize⟩ := ho.cell x hx
  have hcell := hr.wf.hasCell hk
  have hm : w.os.Mapped a 1 := by
    have := hr.payload_mapped hP hcell (i := a - k.addr P) (by omega)
    rwa [show k.addr P + (a - k.addr P) = a by omega] at this
  refine ⟨k, hk, ⟨x, hx, haddr.symm⟩, by omega, by omega, storeByte_of hm, ?_⟩
  refine hr.write_payload hP fun x hx => put_out ?_
  rintro rfl
  exact hx ⟨k, hcell, by omega, by omega⟩

/-- `realloc(NULL, s)` is `malloc(s)` (`malloc.c:277-280`). -/
theorem realloc_null [Platform] (s : Nat) : realloc null s = malloc s := if_pos rfl

/-- What a call returns and what it does to the abstract heap and the system, given what `free` and
`realloc` of a cell's pointer do. -/
inductive EffectOf (P : Nat) (A : AHeap) (os : Os) (release : Cell → AHeap × Os)
    (resize : Cell → Nat → Nat × AHeap × Os) : Op → Nat × AHeap × Os → Prop
  | malloc (s : Nat) : EffectOf P A os release resize (.malloc s) (A.malloc P os s)
  | freeNull : EffectOf P A os release resize (.free null) (null, A, os)
  | free {k : Cell} : A.Holds k →
      EffectOf P A os release resize (.free (k.addr P)) (null, release k)
  | reallocNull (s : Nat) : EffectOf P A os release resize (.realloc null s) (A.malloc P os s)
  | realloc {k : Cell} (s : Nat) : A.Holds k →
      EffectOf P A os release resize (.realloc (k.addr P) s) (resize k s)
  | write (a : Nat) (b : Byte) : EffectOf P A os release resize (.write a b) (null, A, os)

/-- The effect of a call of the mandatory allocator: one abstract operation for each entry point. -/
abbrev Effect (P : Nat) (A : AHeap) (os : Os) : Op → Nat × AHeap × Os → Prop :=
  EffectOf P A os (A.free P os) (A.realloc P os)

/-- **No call that keeps the rules faults**: it has its effect, and the invariant survives it. -/
theorem call_effect [Platform] (hP : ValidPage P) (hI : Inv P c A) (hv : op.Valid c.live) :
    ∃ w' r, mandatory.call op c.state = some (r.1, w') ∧ w'.os = r.2.2 ∧
      Effect P A c.state.os op r ∧
      Inv P ⟨w', op.after mandatory.zeroFrees c.live r.1⟩ r.2.1 := by
  have hnull : drop c.live null = c.live := drop_of_not_mem (hI.ptr_ne_null hP)
  cases op with
  | malloc s =>
    obtain ⟨w', hrun, hos, hI'⟩ := malloc_call hP hI s
    exact ⟨w', _, hrun, hos, EffectOf.malloc s, hI'⟩
  | free p =>
    rcases hv with rfl | hx
    · refine ⟨c.state, (null, A, c.state.os), rfl, rfl, EffectOf.freeNull, hI.rep, hI.ok, ?_⟩
      change Owned P A (drop c.live null)
      rw [hnull]
      exact hI.owned
    · obtain ⟨k, hk, rfl⟩ := hI.cell hx
      obtain ⟨w', hrun, hos, hI'⟩ := free_call hP hI hk
      exact ⟨w', (null, A.free P c.state.os k), Prog.bind_to hrun rfl, hos, EffectOf.free hk, hI'⟩
  | realloc p s =>
    have hafter : ∀ q, (Op.realloc p s).after mandatory.zeroFrees c.live q =
        if q ≠ null then ⟨q, s⟩ :: drop c.live p else c.live := by
      intro q
      simp [Op.after, mandatory]
    simp only [hafter]
    rcases hv.2 with rfl | hx
    · obtain ⟨w', hrun, hos, hI'⟩ := malloc_call hP hI s
      rw [← realloc_null] at hrun
      refine ⟨w', _, hrun, hos, EffectOf.reallocNull s, hI'.rep, hI'.ok, ?_⟩
      rw [hnull, ite_not]
      exact hI'.owned
    · obtain ⟨k, hk, rfl⟩ := hI.cell hx
      obtain ⟨w', hrun, hos, hI'⟩ := realloc_call hP hI hk s
      exact ⟨w', _, hrun, hos, EffectOf.realloc s hk, hI'⟩
  | write a b =>
    obtain ⟨k, hk, -, -, -, hrun, hr'⟩ := write_call hP hI.rep hI.owned hv
    exact ⟨_, (null, A, c.state.os), Prog.bind_to hrun rfl, rfl, EffectOf.write a b, hr', hI.ok,
      hI.owned⟩

/-! ## Runs -/

/-- **One step** has an effect and keeps the invariant; a step is one call of a client that keeps
the rules. -/
theorem step_effect [Platform] (hP : ValidPage P) (hI : Inv P c A) (hs : Step mandatory c op q c') :
    ∃ r, Effect P A c.state.os op r ∧ q = r.1 ∧ c'.state.os = r.2.2 ∧ Inv P c' r.2.1 := by
  obtain ⟨w', r, hrun, hos, he, hI'⟩ := call_effect hP hI hs.valid
  obtain ⟨rfl, rfl⟩ := Prod.mk.inj (Option.some.inj (hs.run.symm.trans hrun))
  rw [← hs.live] at hI'
  exact ⟨r, he, rfl, hos, hI'⟩

theorem step_inv [Platform] (hP : ValidPage P) (hI : Inv P c A) (hs : Step mandatory c op q c') :
    ∃ A', Inv P c' A' := by
  obtain ⟨r, -, -, -, hI'⟩ := step_effect hP hI hs
  exact ⟨r.2.1, hI'⟩

theorem not_mem_empty {h : Head} {x : Nat} : x ∉ AHeap.empty.lists h := List.not_mem_nil

theorem not_hasZone_empty {c : Cls} {z : Nat} : ¬AHeap.empty.HasZone c z := by
  rintro (h | h)
  · exact not_mem_empty h
  · exact not_mem_empty h

theorem empty_ok : AHeap.empty.Ok P where
  nodup := fun _ => List.nodup_nil
  once := fun h => absurd h not_mem_empty
  cells := fun h => absurd h not_hasZone_empty
  hasFree := fun h => absurd h not_mem_empty
  noFree := fun h => absurd h not_mem_empty
  large := fun _ h => absurd h not_mem_empty
  cached := fun h => absurd h not_mem_empty
  unused := fun _ => ⟨fun h => absurd h not_hasZone_empty, rfl, rfl, rfl⟩

/-- The heap before the first call is empty: `global_heap` is zero (`malloc.c:3`), and nothing is
mapped. -/
theorem init_rep (hP : ValidPage P) {m : Mem} {answers : List (Option Nat)} :
    Rep P (World.init P m answers) AHeap.empty where
  page := rfl
  flag := rfl
  wf := empty_ok.toWf
  backed := ⟨⟨hP.pos, rfl, List.nodup_nil, fun _ h => absurd h List.not_mem_nil,
    fun _ h => absurd h List.not_mem_nil⟩, fun h => absurd h List.not_mem_nil⟩
  lists := fun h => NodeLayout.isList_nil.mpr (by cases h <;> rfl)
  nodes := fun _ _ h => absurd h List.not_mem_nil

theorem init_inv (hP : ValidPage P) {m : Mem} {answers : List (Option Nat)} :
    Inv P ⟨World.init P m answers, []⟩ AHeap.empty :=
  ⟨init_rep hP, empty_ok, ⟨fun _ h => absurd h List.not_mem_nil, List.nodup_nil⟩⟩

/-- **The invariant holds in every reachable configuration**, whatever the kernel answers. -/
theorem reachable_inv [Platform] (hc : Reachable P c) : ∃ A, Inv P c A := by
  obtain ⟨hP, m, answers, t, hrun⟩ := hc
  exact hrun.invariant (I := fun c => ∃ A, Inv P c A)
    (fun hI _ hs => hI.elim fun _ hI => step_inv hP hI hs) ⟨_, init_inv hP⟩

/-- **No run gets stuck**: whatever the next call of the client is, it returns. -/
theorem reachable_total [Platform] (hc : Reachable P c) (hv : op.Valid c.live) :
    ∃ q c', Step mandatory c op q c' := by
  obtain ⟨A, hI⟩ := reachable_inv hc
  obtain ⟨w', r, hrun, -⟩ := call_effect hc.1 hI hv
  exact ⟨r.1, ⟨w', op.after mandatory.zeroFrees c.live r.1⟩, hv, hrun, rfl⟩

theorem Reachable.step [Platform]
    (hc : Reachable P c) (hs : Step mandatory c op q c') : Reachable P c' := by
  obtain ⟨hP, m, answers, t, hrun⟩ := hc
  exact ⟨hP, m, answers, _, hrun.snoc trivial hs⟩

/-- A kernel that grants the first four mappings and fails from then on. -/
def sampleAnswers : List (Option Nat) := [some 4096, some 65536, some 1048576, some 2097152]

/-- The state before the first call, with this kernel. -/
def sampleStart : Config World := ⟨World.init 4096 (fun _ => 0) sampleAnswers, []⟩

theorem sampleStart_reachable [Platform] : Reachable 4096 sampleStart :=
  ⟨validPage_4096, _, _, _, RunIn.nil⟩

/-- One allocation: the first slot of the first zone, 901 bytes into the page at 4096. -/
theorem step_sample [Platform] : ∃ c, Step mandatory sampleStart (.malloc 24) 4997 c ∧
    c.live = [⟨4997, 24⟩] := by
  obtain ⟨q, c, hs⟩ := reachable_total sampleStart_reachable (valid_malloc (s := 24) (by decide))
  obtain ⟨r, he, hq, -⟩ := step_effect validPage_4096 (init_inv validPage_4096) hs
  have hr : r = AHeap.empty.malloc 4096 (Os.init 4096 sampleAnswers) 24 := by
    cases he
    rfl
  have haddr : (AHeap.empty.malloc 4096 (Os.init 4096 sampleAnswers) 24).1 = 4997 := by
    decide +kernel
  rw [hr, haddr] at hq
  subst hq
  exact ⟨c, hs, hs.live⟩

/-- Calls of every class: the large block that is released is handed out again, and the tiny one is
resized in place. -/
def sampleCalls : List Op :=
  [.malloc 24, .malloc 500, .malloc 200000, .malloc 2000, .free 2097200, .malloc 1500,
    .realloc 4997 40]

/-- What is live after them: one small block, two large ones and a tiny one that was resized in
place. -/
def sampleLive : List Alloc :=
  [⟨4997, 40⟩, ⟨2097200, 1500⟩, ⟨1048624, 200000⟩, ⟨66445, 500⟩]

theorem run_sample : ∃ c t, Run mandatory sampleStart t c ∧ c.live = sampleLive ∧
    c.state.os.log = [.mmap 2048 (some 2097152), .mmap 200048 (some 1048576),
      .mmap 106496 (some 65536), .mmap 8192 (some 4096)] ∧
    (c.state.os.regions.all fun r => c.state.os.limit r < 2 ^ 60) := by
  have heval : (mandatory.eval (fun _ _ => true) sampleCalls sampleStart).map (fun e =>
      (e.2.live, e.2.state.os.log,
        e.2.state.os.regions.all fun r => decide (e.2.state.os.limit r < 2 ^ 60))) =
      some (sampleLive, [.mmap 2048 (some 2097152), .mmap 200048 (some 1048576),
        .mmap 106496 (some 65536), .mmap 8192 (some 4096)], true) := by decide +kernel
  obtain ⟨⟨t, c⟩, hrun, he⟩ := Option.map_eq_some_iff.mp heval
  obtain ⟨hlive, he⟩ := Prod.mk.inj he
  obtain ⟨hlog, hshort⟩ := Prod.mk.inj he
  exact ⟨c, t, Api.eval_run (fun _ _ _ => trivial) hrun, hlive, hlog, hshort⟩

theorem reachable_sample : ∃ c, Reachable 4096 c ∧ c.live = sampleLive := by
  obtain ⟨c, t, hrun, hlive, -⟩ := run_sample
  exact ⟨c, ⟨validPage_4096, _, _, t, hrun⟩, hlive⟩

end FtMalloc
