import FtMalloc.Abstract.Calls
import FtMalloc.Abstract.Supply
import FtMalloc.Results.Integrity

/-!
# The mapping discipline

`munmap_disciplined`: along client runs of the mandatory allocator every call returns, every
`munmap` call (`malloc.c:249, 266`) names one mapping that is still in place, it is the last system
call of the `free` or `realloc` that makes it, and when it is made nothing of the heap is in the
region or points into it. A `free` of a zone block leaves the free list of its class nonempty.
-/

namespace FtMalloc

open Lib

variable {P : Nat} {A : AHeap} {c c' : Config World} {op : Op} {q s n : Nat} {cl : Cls}
  {os os' os'' : Os} {k : Cell}

/-! ## What is left of an unmapped region -/

/-- Nothing refers to the `n` bytes at `a`: no live allocation has a byte there, no list has a
node there, and no head and no link points there. -/
structure Config.Unused (c : Config World) (a n : Nat) : Prop where
  live : ∀ x ∈ c.live, ∀ b, x.ptr ≤ b → b < x.ptr + x.size → ¬(a ≤ b ∧ b < a + n)
  node : ∀ h, ∀ x ∈ c.state.nodes h, ¬(a ≤ x ∧ x < a + n)
  head : ∀ h, ¬(a ≤ c.state.heap.get h ∧ c.state.heap.get h < a + n)
  link : ∀ h : Head, ∀ x ∈ c.state.nodes h, ∀ p,
    p = h.node.nextOf c.state.mem x ∨ p = h.node.prevOf c.state.mem x → ¬(a ≤ p ∧ p < a + n)

/-- A link of a list is NULL or a node of the list. -/
theorem Lib.NodeLayout.IsList.link_mem {L : NodeLayout} {m : Mem} {h x : Nat} {xs : List Nat}
    (hl : L.IsList m h xs) (hx : x ∈ xs) :
    (L.nextOf m x = 0 ∨ L.nextOf m x ∈ xs) ∧ (L.prevOf m x = 0 ∨ L.prevOf m x ∈ xs) := by
  obtain ⟨ys, zs, rfl⟩ := List.append_of_mem hx
  refine ⟨?_, ?_⟩
  · by_cases h0 : L.nextOf m x = 0
    · exact Or.inl h0
    · exact Or.inr (List.mem_append_right _ (List.mem_cons_of_mem _ (hl.nextOf_mem h0)))
  · by_cases h0 : L.prevOf m x = 0
    · exact Or.inl h0
    · exact Or.inr (List.mem_append_left _ (hl.prevOf_mem h0))

theorem Lib.NodeLayout.IsList.head_mem {L : NodeLayout} {m : Mem} {h : Nat} {xs : List Nat}
    (hl : L.IsList m h xs) : h = 0 ∨ h ∈ xs := by
  cases xs with
  | nil => exact Or.inl (NodeLayout.isList_nil.mp hl)
  | cons x xs =>
    rw [hl.head_cons]
    exact Or.inr List.mem_cons_self

/-- After a region was unmapped, everything of the heap is elsewhere. -/
theorem Inv.unused {r : Region} (hP : ValidPage P) (hI : Inv P c A) (ok : os.Ok)
    (hr : r ∈ os.regions) (hos : c.state.os = os.munmap r) : c.Unused r.base r.len := by
  -- a mapping that is still there was apart from `r`
  have hapart : ∀ s ∈ c.state.os.regions, s.base + s.len ≤ r.base ∨ r.base + r.len ≤ s.base := by
    intro s hs
    rw [hos] at hs
    obtain ⟨hne, hs⟩ := ok.mem_munmap.mp hs
    have h1 := ok.apart s hs r hr hne
    have h2 := ok.le_limit s
    have h3 := ok.le_limit r
    omega
  have hnode : ∀ {h x}, x ∈ A.lists h → ¬(r.base ≤ x ∧ x < r.base + r.len) := by
    intro h x hx hin
    have h1 := hapart _ (hI.rep.backed.region hx)
    have h2 := (hI.rep.backed.system.legal _ (hI.rep.backed.region hx)).1
    simp only at h1 h2
    omega
  have hbase := (ok.legal r hr).2.1
  have hnull : ∀ {p xs h}, A.lists h = xs → p = 0 ∨ p ∈ xs →
      ¬(r.base ≤ p ∧ p < r.base + r.len) := by
    rintro p xs h rfl (rfl | hp)
    · omega
    · exact hnode hp
  refine ⟨fun x hx b h1 h2 => ?_, fun h x hx => ?_, fun h => ?_, fun h x hx p hp => ?_⟩
  · obtain ⟨k, hk, hkx, hsx⟩ := hI.owned.cell x hx
    obtain ⟨s, hs, -, h3, h4⟩ := hI.rep.cell_region hP (hI.rep.wf.hasCell hk)
    have := hapart s hs
    omega
  · rw [hI.rep.nodes_eq] at hx
    exact hnode hx
  · exact hnull rfl (hI.rep.lists h).head_mem
  · rw [hI.rep.nodes_eq] at hx
    obtain ⟨h1, h2⟩ := (hI.rep.lists h).link_mem hx
    rcases hp with rfl | rfl
    · exact hnull rfl h1
    · exact hnull rfl h2

/-! ## One call -/

/-- The system calls of one call of the client: `munmap` is the last one, if it is there at all,
names one mapping in place, and leaves nothing behind. -/
def Disciplined (c c' : Config World) : Prop :=
  ∃ calls, c'.state.os.log = calls ++ c.state.os.log ∧
    ∀ a n, SysCall.munmap a n ∈ calls → ∃ rest, calls = .munmap a n :: rest ∧
      (∀ a n, SysCall.munmap a n ∉ rest) ∧
      ⟨a, n⟩ ∈ Os.outstanding (rest ++ c.state.os.log) ∧ c'.Unused a n

theorem Os.MapsOnly.disciplined (h : Os.MapsOnly c.state.os c'.state.os) : Disciplined c c' := by
  obtain ⟨l, hl, hn⟩ := h.log
  exact ⟨l, hl, fun a n hm => absurd hm (hn a n)⟩

/-- A release after mappings. -/
theorem Inv.disciplined {A' : AHeap} (hP : ValidPage P) (hI : Inv P c' A')
    (hmaps : Os.MapsOnly c.state.os os) (ok : os.Ok)
    (hun : c'.state.os = os ∨ ∃ r ∈ os.regions, c'.state.os = os.munmap r) :
    Disciplined c c' := by
  rcases hun with hos | ⟨r, hr, hos⟩
  · rw [← hos] at hmaps
    exact hmaps.disciplined
  · obtain ⟨l, hl, hn⟩ := hmaps.log
    refine ⟨.munmap r.base r.len :: l, ?_, fun a n hm => ?_⟩
    · rw [hos]
      change SysCall.munmap r.base r.len :: os.log = _
      rw [hl]
      rfl
    · rcases List.mem_cons.mp hm with he | hm
      · cases he
        refine ⟨l, rfl, hn, ?_, hI.unused hP ok hr hos⟩
        rw [← hl, ← ok.logged]
        exact hr
      · exact absurd hm (hn a n)

/-- The effect of `free` on a held cell's pointer. -/
theorem Inv.free_disciplined (hP : ValidPage P) (hI : Inv P c A) (hk : A.Holds k)
    (hos : c'.state.os = (A.free P c.state.os k).2) (hI' : Inv P c' (A.free P c.state.os k).1) :
    Disciplined c c' ∧
      ∀ cl z, c.state.FromZone cl z (k.addr P) → c'.state.nodes cl.freeHead ≠ [] := by
  refine ⟨hI'.disciplined hP (Os.MapsOnly.refl) hI.rep.backed.system ?_, fun cl z hz => ?_⟩
  · rw [hos]
    exact AHeap.free_unmaps hI.sound hk
  · obtain ⟨i, rfl⟩ := hI.fromZone hP hk hz
    rw [hI'.rep.nodes_eq]
    exact AHeap.free_nonempty hP hI.sound hk

/-- The effect of `realloc` on a held cell's pointer. -/
theorem Inv.realloc_disciplined (hP : ValidPage P) (hI : Inv P c A) (hk : A.Holds k)
    (hos : c'.state.os = (A.realloc P c.state.os k s).2.2)
    (hI' : Inv P c' (A.realloc P c.state.os k s).2.1) :
    Disciplined c c' ∧
      let q := (A.realloc P c.state.os k s).1
      (q ≠ null → q ≠ k.addr P →
        ∀ cl z, c.state.FromZone cl z (k.addr P) → c'.state.nodes cl.freeHead ≠ []) := by
  obtain ⟨h1, g1, -⟩ := AHeap.malloc_serves (s := s) hP hI.sound
  have hmaps : Os.MapsOnly c.state.os (A.malloc P c.state.os s).2.2 := AHeap.malloc_mapsOnly
  have hnodes := hI'.rep.nodes_eq
  simp only [AHeap.realloc, AHeap.replace] at hos hnodes ⊢
  by_cases hfit : s ≤ A.cap k
  · rw [if_pos hfit] at hos ⊢
    have hdone : Os.MapsOnly c.state.os c'.state.os := by
      rw [hos]
      exact Os.MapsOnly.refl
    exact ⟨hdone.disciplined, fun _ hne => absurd rfl hne⟩
  · rw [if_neg hfit] at hos ⊢
    simp only [if_neg hfit] at hnodes
    generalize A.malloc P c.state.os s = r at *
    by_cases h0 : r.1 = 0
    · rw [if_pos h0] at hos ⊢
      rw [← hos] at hmaps
      exact ⟨hmaps.disciplined, fun hne => absurd h0 hne⟩
    · simp only [if_neg h0] at hos hnodes ⊢
      refine ⟨hI'.disciplined hP hmaps h1.backed.system ?_, fun _ _ cl z hz => ?_⟩
      · rw [hos]
        exact AHeap.free_unmaps h1 (g1.held hk)
      · obtain ⟨i, rfl⟩ := hI.fromZone hP hk hz
        rw [hnodes]
        exact AHeap.free_nonempty hP h1 (g1.held hk)

/-- NULL lies in no zone. -/
theorem Inv.not_fromZone_null {z : Nat} (hI : Inv P c A) : ¬c.state.FromZone cl z null := by
  rintro ⟨hz, h1, -⟩
  obtain ⟨h, -, hm⟩ := (hI.rep.inClass_iff.mp hz).mem
  exact (hI.rep.nodeAt hm).ne_zero (Nat.le_zero.mp h1)

/-- The call releases `p`: a `free`, or a `realloc` that returned another block. -/
def Op.Releases (op : Op) (q p : Nat) : Prop :=
  op = .free p ∨ ∃ s, op = .realloc p s ∧ q ≠ null ∧ q ≠ p

/-- One call keeps the discipline. -/
theorem Step.disciplined [Platform] (hc : Reachable P c) (hs : Step mandatory c op q c') :
    Disciplined c c' ∧ ∀ p cl z, op.Releases q p → c.state.FromZone cl z p →
      c'.state.nodes cl.freeHead ≠ [] := by
  obtain ⟨A, hI⟩ := reachable_inv hc
  have hP := hc.1
  obtain ⟨r, he, rfl, hos, hI'⟩ := step_effect hP hI hs
  have hmaps : ∀ {os}, Os.MapsOnly c.state.os os → c'.state.os = os → Disciplined c c' := by
    rintro os h rfl
    exact h.disciplined
  cases he with
  | malloc s =>
    refine ⟨hmaps AHeap.malloc_mapsOnly hos, ?_⟩
    rintro p cl z (h | ⟨s, h, -⟩) <;> cases h
  | freeNull =>
    refine ⟨hmaps Os.MapsOnly.refl hos, ?_⟩
    rintro p cl z (h | ⟨s, h, -⟩) hz
    · cases h
      exact absurd hz hI.not_fromZone_null
    · cases h
  | free hk =>
    obtain ⟨hd, hnonempty⟩ := hI.free_disciplined hP hk hos hI'
    refine ⟨hd, ?_⟩
    rintro p cl z (h | ⟨s, h, -⟩) hz
    · cases h
      exact hnonempty cl z hz
    · cases h
  | reallocNull s =>
    refine ⟨hmaps AHeap.malloc_mapsOnly hos, ?_⟩
    rintro p cl z (h | ⟨s', h, -⟩) hz
    · cases h
    · cases h
      exact absurd hz hI.not_fromZone_null
  | realloc s hk =>
    obtain ⟨hd, hnonempty⟩ := hI.realloc_disciplined hP hk hos hI'
    refine ⟨hd, ?_⟩
    rintro p cl z (h | ⟨s', h, h0, hne⟩) hz
    · cases h
    · cases h
      exact hnonempty h0 hne cl z hz
  | write a b =>
    refine ⟨hmaps Os.MapsOnly.refl hos, ?_⟩
    rintro p cl z (h | ⟨s, h, -⟩) <;> cases h

/-- **The mapping discipline.** Whatever the client calls, the call returns: no `munmap` of another
range, which would be a fault, is ever made. A `munmap` names exactly one mapping that an earlier
`mmap` returned and no `munmap` gave back since, and nothing refers to the region when it is made. A
call that releases a zone block leaves the free list of its class nonempty. -/
theorem munmap_disciplined [Platform] (hc : Reachable P c) (hv : op.Valid c.live) :
    (∃ q c', Step mandatory c op q c') ∧ ∀ q c', Step mandatory c op q c' →
      Disciplined c c' ∧ ∀ p cl z, op.Releases q p → c.state.FromZone cl z p →
        c'.state.nodes cl.freeHead ≠ [] :=
  ⟨reachable_total hc hv, fun _ _ hs => hs.disciplined hc⟩

/-- A block of 200000 bytes is unmapped. -/
theorem munmap_disciplined_sample : ∃ (c c' : Config World) (q : Nat), c.live = sampleLive ∧
    Step mandatory c (.free 1048624) q c' ∧
    c'.state.os.log = .munmap 1048576 200048 :: c.state.os.log ∧ Disciplined c c' ∧
    ∀ p cl z, (Op.free 1048624).Releases q p → c.state.FromZone cl z p →
      c'.state.nodes cl.freeHead ≠ [] := by
  have heval : ((mandatory.eval (fun _ _ => true) sampleCalls sampleStart).bind fun e =>
      (mandatory.call (.free 1048624) e.2.state).map fun r => (e.2.live, decide
        (r.2.os.log = .munmap 1048576 200048 :: e.2.state.os.log))) = some (sampleLive, true) := by
    decide +kernel
  obtain ⟨⟨t, c⟩, hrun, he⟩ := Option.bind_eq_some_iff.mp heval
  obtain ⟨⟨q, w⟩, hcall, he⟩ := Option.map_eq_some_iff.mp he
  obtain ⟨hlive, hlog⟩ := Prod.mk.inj he
  have hlive : c.live = sampleLive := hlive
  have hc : Reachable 4096 c :=
    ⟨validPage_4096, _, _, t, Api.eval_run (fun _ _ _ => trivial) hrun⟩
  have hv : (Op.free 1048624).Valid c.live := by
    rw [hlive]
    decide
  have hs : Step mandatory c (.free 1048624) q ⟨w, _⟩ := ⟨hv, hcall, rfl⟩
  exact ⟨c, _, q, hlive, hs, of_decide_eq_true hlog, (munmap_disciplined hc hv).2 q _ hs⟩

end FtMalloc
