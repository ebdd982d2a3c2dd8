import FtMalloc.Refine.Footprint
import FtMalloc.Results.Integrity

/-!
# What the client writes does not matter (`malloc.c:125-311`, `ft_memcpy.c`)

Two runs that make the same `malloc`, `free` and `realloc` calls under the same kernel, and differ
in what the client writes to its allocations and when, are `Twin`: the same abstract heap, the same
system, and the same bytes wherever the allocator keeps something for itself.

* `Twin.write`: a client's write keeps this, in either run.
* `Twin.call`: so does a call made in both runs, and it returns the same in both.

Results:
* `data_independent`: the calls of both runs return the same, and the allocator's state is the same
  in the states reached. As the runs are arbitrary, so it is after every call.
-/

namespace FtMalloc

open Lib

/-- The call is one of the allocator's. -/
def Op.isCall : Op → Bool
  | write _ _ => false
  | _ => true

/-- The allocator's calls in a run, with their results. -/
def callsOf (t : List (Op × Nat)) : List (Op × Nat) := t.filter fun x => x.1.isCall

/-- The allocator's state is the same: the heap variable, the mappings, the nodes of each list, and
every byte the allocator keeps for itself. -/
structure SameState (w₁ w₂ : World) : Prop where
  heap : w₁.heap = w₂.heap
  os : w₁.os = w₂.os
  nodes : ∀ h, w₁.nodes h = w₂.nodes h
  metadata : ∀ a n, w₁.Metadata a n ↔ w₂.Metadata a n
  bytes : ∀ a n, w₁.Metadata a n → ∀ i, i < n → w₁.mem (a + i) = w₂.mem (a + i)

/-- The two configurations differ in the client's data only. -/
structure Twin (P : Nat) (A : AHeap) (c₁ c₂ : Config World) : Prop where
  left : Inv P c₁ A
  right : Inv P c₂ A
  os : c₁.state.os = c₂.state.os
  live : c₁.live = c₂.live
  same : Agrees c₁.state.mem c₂.state.mem (A.Meta P)

variable {P : Nat} {A : AHeap} {os : Os} {w w₁ w₂ : World} {m m' m₁ m₂ : Mem} {s a n q q₁ q₂ : Nat}
  {k : Cell} {op : Op} {c c₁ c₂ c₁' c₂' : Config World} {t t₁ t₂ : List (Op × Nat)} {b : Byte}
  {answers : List (Option Nat)}

/-! ## Calls -/

theorem ownOf_all : A.OwnOf P (fun _ => True) a ↔ A.Meta P a := by
  unfold AHeap.OwnOf AHeap.Meta
  simp

/-- An operation on all classes keeps what the allocator keeps the same. -/
theorem Footprint.same {A' : AHeap} {B : Nat → Prop} {f : Mem → Mem}
    (hf : Footprint P (fun _ => True) A A' B f) (he : Agrees m m' (A.Meta P)) :
    Agrees (f m) (f m') (A'.Meta P) :=
  (hf.agrees (he.mono fun _ ha => ownOf_all.mp ha)).mono fun _ ha => ownOf_all.mpr ha

theorem malloc_same (hP : ValidPage P) (hs : A.Sound P os) (he : Agrees m m' (A.Meta P)) :
    Agrees (A.mallocMem P os s m) (A.mallocMem P os s m') ((A.malloc P os s).2.1.Meta P) :=
  (malloc_footprint hP (fun _ => trivial) hs).same he

theorem free_same (hP : ValidPage P) (hs : A.Sound P os) (hk : A.Holds k)
    (he : Agrees m m' (A.Meta P)) :
    Agrees (A.freeMem P k m) (A.freeMem P k m') ((A.free P os k).1.Meta P) :=
  (free_footprint (B := fun _ => True) (K := fun _ => True) hP trivial hs.ok hk).same he

/-- **`realloc` copies the client's bytes**, and it copies them to where the client's bytes are. -/
theorem realloc_same (hP : ValidPage P) (hs : A.Sound P os) (hk : A.Holds k)
    (he : Agrees m m' (A.Meta P)) :
    Agrees (A.reallocMem P os k s m) (A.reallocMem P os k s m')
      ((A.realloc P os k s).2.1.Meta P) := by
  unfold AHeap.reallocMem AHeap.realloc
  by_cases hfit : s ≤ A.cap k
  · simp only [if_pos hfit]
    exact he
  · simp only [if_neg hfit]
    have he₁ := malloc_same (s := s) hP hs he
    have hv := AHeap.malloc_serves (s := s) hP hs
    generalize A.malloc P os s = r at *
    unfold AHeap.replaceMem AHeap.replace
    by_cases h0 : r.1 = 0
    · simp only [if_pos h0]
      exact he₁
    · simp only [if_neg h0]
      obtain ⟨k', haddr, -, hheld, hsize⟩ := hv.result.resolve_left h0
      -- the copy goes to the payload of the new cell
      have hout : ∀ {m a}, r.2.1.Meta P a → copyUp m r.1 (k.addr P) (A.cap k) a = m a := by
        rintro m a ⟨h, x, hx, ho⟩
        refine copyUp_out ?_
        by_contra hin
        exact hv.sound.backed.payload_not_own hP hv.sound.ok.toWf
          (hv.sound.ok.toWf.hasCell hheld) (by omega) (by omega) hx ho
      refine free_same hP hv.sound (hv.grows.held hk) fun a ha => ?_
      rw [hout ha, hout ha]
      exact he₁ a ha

/-- A call in two states that differ in the client's data only. -/
theorem Effect.same [Platform] {r : Nat × AHeap × Os} (hP : ValidPage P) (hI₁ : Inv P c₁ A)
    (hI₂ : Inv P c₂ A) (hos : c₁.state.os = c₂.state.os) (he : Effect P A c₁.state.os op r)
    (hop : op.isCall = true) (hrun₁ : mandatory.call op c₁.state = some (q₁, w₁))
    (hrun₂ : mandatory.call op c₂.state = some (q₂, w₂))
    (hsame : Agrees c₁.state.mem c₂.state.mem (A.Meta P)) :
    Agrees w₁.mem w₂.mem (r.2.1.Meta P) := by
  have hmalloc : ∀ {s}, malloc s c₁.state = some (q₁, w₁) → malloc s c₂.state = some (q₂, w₂) →
      Agrees w₁.mem w₂.mem ((A.malloc P c₁.state.os s).2.1.Meta P) := by
    intro s h₁ h₂
    obtain ⟨v₁, hv₁, -, -, -, hm₁⟩ := malloc_writes (s := s) hP hI₁.rep hI₁.ok
    obtain ⟨v₂, hv₂, -, -, -, hm₂⟩ := malloc_writes (s := s) hP hI₂.rep hI₂.ok
    obtain ⟨-, rfl⟩ := Prod.mk.inj (Option.some.inj (h₁.symm.trans hv₁))
    obtain ⟨-, rfl⟩ := Prod.mk.inj (Option.some.inj (h₂.symm.trans hv₂))
    rw [hm₁, hm₂, ← hos]
    exact malloc_same hP hI₁.sound hsame
  cases he with
  | malloc s => exact hmalloc hrun₁ hrun₂
  | freeNull =>
    obtain ⟨-, rfl⟩ := Prod.mk.inj (Option.some.inj hrun₁)
    obtain ⟨-, rfl⟩ := Prod.mk.inj (Option.some.inj hrun₂)
    exact hsame
  | @free k hk =>
    obtain ⟨v₁, hv₁, -, -, -, hm₁⟩ := free_writes hP hI₁.rep hI₁.ok hk
    obtain ⟨v₂, hv₂, -, -, -, hm₂⟩ := free_writes hP hI₂.rep hI₂.ok hk
    obtain ⟨-, rfl⟩ := Prod.mk.inj (Option.some.inj (hrun₁.symm.trans (Prog.bind_to hv₁ rfl)))
    obtain ⟨-, rfl⟩ := Prod.mk.inj (Option.some.inj (hrun₂.symm.trans (Prog.bind_to hv₂ rfl)))
    rw [hm₁, hm₂]
    exact free_same hP hI₁.sound hk hsame
  | reallocNull s =>
    refine hmalloc (s := s) ?_ ?_
    · rw [← realloc_null]
      exact hrun₁
    · rw [← realloc_null]
      exact hrun₂
  | @realloc k s hk =>
    obtain ⟨v₁, hv₁, -, -, -, hm₁, -⟩ := realloc_writes (s := s) hP hI₁.rep hI₁.ok hk
    obtain ⟨v₂, hv₂, -, -, -, hm₂, -⟩ := realloc_writes (s := s) hP hI₂.rep hI₂.ok hk
    obtain ⟨-, rfl⟩ := Prod.mk.inj (Option.some.inj (hrun₁.symm.trans hv₁))
    obtain ⟨-, rfl⟩ := Prod.mk.inj (Option.some.inj (hrun₂.symm.trans hv₂))
    rw [hm₁, hm₂, ← hos]
    exact realloc_same hP hI₁.sound hk hsame
  | write => cases hop

/-- **What a call does is determined** by the abstract heap and the system. -/
theorem Effect.unique {r r' : Nat × AHeap × Os} (hP : ValidPage P) (hr : Rep P w A) (hok : A.Ok P)
    (he : Effect P A os op r) (he' : Effect P A os op r') : r = r' := by
  have hne : ∀ {k : Cell}, A.Holds k → k.addr P ≠ null := fun hk =>
    hr.addr_ne_zero hP (hr.wf.hasCell hk)
  have hinj : ∀ {k k' : Cell}, A.Holds k → A.Holds k' → k.addr P = k'.addr P → k = k' :=
    fun hk hk' h => AHeap.Sound.addr_inj hP ⟨hok, hr.backed⟩ hk hk' h
  generalize hop : op = op' at he'
  cases he with
  | malloc s =>
    cases he' <;> cases hop
    rfl
  | freeNull =>
    cases he' with
    | freeNull => rfl
    | free hk => exact absurd (Op.free.inj hop).symm (hne hk)
    | _ => cases hop
  | free hk =>
    cases he' with
    | freeNull => exact absurd (Op.free.inj hop) (hne hk)
    | free hk' =>
      obtain rfl := hinj hk hk' (Op.free.inj hop)
      rfl
    | _ => cases hop
  | reallocNull s =>
    cases he' with
    | reallocNull s' =>
      obtain ⟨-, rfl⟩ := Op.realloc.inj hop
      rfl
    | realloc s' hk => exact absurd (Op.realloc.inj hop).1.symm (hne hk)
    | _ => cases hop
  | realloc s hk =>
    cases he' with
    | reallocNull s' => exact absurd (Op.realloc.inj hop).1 (hne hk)
    | realloc s' hk' =>
      obtain ⟨haddr, rfl⟩ := Op.realloc.inj hop
      obtain rfl := hinj hk hk' haddr
      rfl
    | _ => cases hop
  | write a b =>
    cases he' <;> cases hop
    rfl

/-! ## Two runs -/

/-- **A call in both runs** returns the same. -/
theorem Twin.call [Platform] (hP : ValidPage P) (hT : Twin P A c₁ c₂) (hop : op.isCall = true)
    (h₁ : Step mandatory c₁ op q₁ c₁') (h₂ : Step mandatory c₂ op q₂ c₂') :
    q₁ = q₂ ∧ ∃ A', Twin P A' c₁' c₂' := by
  obtain ⟨r, he₁, rfl, hos₁, hI₁⟩ := step_effect hP hT.left h₁
  obtain ⟨r', he₂, rfl, hos₂, hI₂⟩ := step_effect hP hT.right h₂
  rw [← hT.os] at he₂
  obtain rfl := Effect.unique hP hT.left.rep hT.left.ok he₁ he₂
  refine ⟨rfl, r.2.1, hI₁, hI₂, hos₁.trans hos₂.symm, ?_, ?_⟩
  · rw [h₁.live, h₂.live, hT.live]
  · exact Effect.same hP hT.left hT.right hT.os he₁ hop h₁.run h₂.run hT.same

/-- What a client's write does. -/
theorem step_write [Platform]
    (hP : ValidPage P) (hI : Inv P c A) (hs : Step mandatory c (.write a b) q c₁) :
    Inv P c₁ A ∧ c₁.state.os = c.state.os ∧ c₁.live = c.live ∧
      Agrees c.state.mem c₁.state.mem (A.Meta P) := by
  obtain ⟨k, hk, -, h1, h2, hrun, hr⟩ := write_call hP hI.rep hI.owned hs.valid
  have hcall : mandatory.call (.write a b) c.state =
      some (null, c.state.setMem (put c.state.mem a b)) := Prog.bind_to hrun rfl
  obtain ⟨-, hstate⟩ := Prod.mk.inj (Option.some.inj (hs.run.symm.trans hcall))
  have hlive : c₁.live = c.live := hs.live
  obtain ⟨state, live⟩ := c₁
  obtain rfl : state = c.state.setMem (put c.state.mem a b) := hstate
  obtain rfl : live = c.live := hlive
  refine ⟨⟨hr, hI.ok, hI.owned⟩, rfl, rfl, fun x hx => put_out ?_⟩
  rintro rfl
  exact hI.rep.payload_not_meta hP ⟨k, hI.rep.wf.hasCell hk, h1, h2⟩ hx

theorem Twin.symm (hT : Twin P A c₁ c₂) : Twin P A c₂ c₁ :=
  ⟨hT.right, hT.left, hT.os.symm, hT.live.symm, fun a ha => (hT.same a ha).symm⟩

/-- **A client's write** in one of the runs. -/
theorem Twin.write [Platform] (hP : ValidPage P) (hT : Twin P A c₁ c₂)
    (hs : Step mandatory c₁ (.write a b) q c₁') : Twin P A c₁' c₂ := by
  obtain ⟨hI, hos, hlive, hag⟩ := step_write hP hT.left hs
  refine ⟨hI, hT.right, hos.trans hT.os, hlive.trans hT.live, fun x hx => ?_⟩
  rw [hag x hx]
  exact hT.same x hx

theorem callsOf_write : callsOf (t ++ [(.write a b, q)]) = callsOf t := by
  simp [callsOf, Op.isCall]

theorem callsOf_call (hop : op.isCall = true) :
    callsOf (t ++ [(op, q)]) = callsOf t ++ [(op, q)] := by
  simp [callsOf, hop]

theorem isCall_cases (op : Op) : op.isCall = true ∨ ∃ a b, op = .write a b := by
  cases op <;> simp [Op.isCall]

/-- Every call of a run against every call of the other. -/
theorem run_twin [Platform] (hP : ValidPage P) (hT : Twin P A c₁ c₂) (h₁ : Run mandatory c₁ t₁ c₁')
    (h₂ : Run mandatory c₂ t₂ c₂')
    (hcalls : (callsOf t₁).map Prod.fst = (callsOf t₂).map Prod.fst) :
    callsOf t₁ = callsOf t₂ ∧ ∃ A', Twin P A' c₁' c₂' := by
  induction h₁ generalizing t₂ c₂' with
  | nil =>
    induction h₂ with
    | nil => exact ⟨rfl, A, hT⟩
    | @snoc t d d' op q _ _ hs ih =>
      rcases isCall_cases op with hop | ⟨a, b, rfl⟩
      · rw [callsOf_call hop] at hcalls
        simp [callsOf] at hcalls
      · rw [callsOf_write] at hcalls ⊢
        obtain ⟨he, A', hT'⟩ := ih hcalls
        exact ⟨he, A', (hT'.symm.write hP hs).symm⟩
  | @snoc t d d' op q hd _ hs ih =>
    rcases isCall_cases op with hop | ⟨a, b, rfl⟩
    · -- the other run makes this call too, and then some writes
      induction h₂ with
      | nil =>
        rw [callsOf_call hop] at hcalls
        simp [callsOf] at hcalls
      | @snoc t' e e' op' q' he _ hs' ih' =>
        rcases isCall_cases op' with hop' | ⟨a', b', rfl⟩
        · rw [callsOf_call hop, callsOf_call hop', List.map_append, List.map_append] at hcalls
          obtain ⟨hfirst, hlast⟩ := List.append_inj' hcalls rfl
          obtain rfl : op = op' := (List.cons.inj hlast).1
          obtain ⟨heq, A', hT'⟩ := ih he hfirst
          obtain ⟨rfl, hT''⟩ := hT'.call hP hop hs hs'
          rw [callsOf_call hop, callsOf_call hop, heq]
          exact ⟨rfl, hT''⟩
        · rw [callsOf_write] at hcalls ⊢
          obtain ⟨heq, A', hT'⟩ := ih' hcalls
          exact ⟨heq, A', (hT'.symm.write hP hs').symm⟩
    · rw [callsOf_write] at hcalls ⊢
      obtain ⟨heq, A', hT'⟩ := ih h₂ hcalls
      exact ⟨heq, A', hT'.write hP hs⟩

/-! ## What is the same -/

/-- Where the allocator keeps something is determined by the abstract heap. -/
theorem Rep.metadata_mono (h₁ : Rep P w₁ A) (h₂ : Rep P w₂ A) (hm : w₁.Metadata a n) :
    w₂.Metadata a n := by
  have hz : ∀ {c z}, w₁.InClass c z → w₂.InClass c z ∧ ZoneFieldsOf P w₁ c z ∧
      ZoneFieldsOf P w₂ c z := fun hz =>
    have hA := h₁.inClass_iff.mp hz
    ⟨h₂.inClass_iff.mpr hA, h₁.zone_fields hA, h₂.zone_fields hA⟩
  have hnodes : ∀ h, w₁.nodes h = w₂.nodes h := fun h => (h₁.nodes_eq h).trans
    (h₂.nodes_eq h).symm
  cases hm with
  | zone hm => exact .zone (hz hm).1
  | bitmap hm =>
    obtain ⟨hm', hf, hf'⟩ := hz hm
    rw [hf.bitmap, hf.bytes, ← hf'.bitmap, ← hf'.bytes]
    exact .bitmap hm'
  | sizes hm =>
    obtain ⟨hm', hf, hf'⟩ := hz hm
    rw [hf.sizes, hf.number, ← hf'.sizes, ← hf'.number]
    exact .sizes hm'
  | @header c z i hm hi =>
    obtain ⟨hm', hf, hf'⟩ := hz hm
    rw [hf.address, ← hf'.address]
    rw [hf.number, ← hf'.number] at hi
    exact .header hm' hi
  | block hc hb => exact .block hc (hnodes _ ▸ hb)
  | blockHeader hc hb => exact .blockHeader hc (hnodes _ ▸ hb)

theorem Twin.sameState (hP : ValidPage P) (hT : Twin P A c₁ c₂) :
    SameState c₁.state c₂.state where
  heap := hT.left.rep.heap_eq hT.right.rep rfl fun _ => rfl
  os := hT.os
  nodes := fun h => (hT.left.rep.nodes_eq h).trans (hT.right.rep.nodes_eq h).symm
  metadata := fun _ _ => ⟨hT.left.rep.metadata_mono hT.right.rep,
    hT.right.rep.metadata_mono hT.left.rep⟩
  bytes := fun _ _ hm _ hi => (hT.same _ (hT.left.rep.metadata_own hP hm _ (Nat.le_add_right _ _)
    (Nat.add_lt_add_left hi _))).symm

/-- **Independence from the client's data.** Two runs of the mandatory allocator over the same
kernel that make the same calls, whatever each of them writes to its allocations in between, get
the same results and end in the same allocator state with the same live allocations. -/
theorem data_independent [Platform] (hP : ValidPage P)
    (h₁ : Run mandatory ⟨World.init P m₁ answers, []⟩ t₁ c₁)
    (h₂ : Run mandatory ⟨World.init P m₂ answers, []⟩ t₂ c₂)
    (hcalls : (callsOf t₁).map Prod.fst = (callsOf t₂).map Prod.fst) :
    callsOf t₁ = callsOf t₂ ∧ c₁.live = c₂.live ∧ SameState c₁.state c₂.state := by
  have hstart : Twin P AHeap.empty ⟨World.init P m₁ answers, []⟩ ⟨World.init P m₂ answers, []⟩ := by
    refine ⟨init_inv hP, init_inv hP, rfl, rfl, ?_⟩
    rintro a ⟨h, x, hx, -⟩
    exact absurd hx not_mem_empty
  obtain ⟨he, A, hT⟩ := run_twin hP hstart h₁ h₂ hcalls
  exact ⟨he, hT.live, hT.sameState hP⟩

/-- A client that allocates, and one that also writes to what it got. -/
theorem data_independent_sample :
    ∃ c₁ c₂ q, Run mandatory sampleStart [(.malloc 24, 4997)] c₁ ∧
      Run mandatory sampleStart [(.malloc 24, 4997), (.write 4997 7, q)] c₂ ∧
      SameState c₁.state c₂.state := by
  obtain ⟨c₁, hs, hlive⟩ := step_sample
  have hv : (Op.write 4997 7).Valid c₁.live := by
    rw [hlive]
    exact ⟨⟨4997, 24⟩, by simp, by simp, by simp⟩
  obtain ⟨q, c₂, hs'⟩ := reachable_total (sampleStart_reachable.step hs) hv
  have hrun : Run mandatory sampleStart [(.malloc 24, 4997)] c₁ := RunIn.nil.snoc trivial hs
  exact ⟨c₁, c₂, q, hrun, hrun.snoc trivial hs',
    (data_independent validPage_4096 hrun (hrun.snoc trivial hs') rfl).2.2⟩

end FtMalloc
