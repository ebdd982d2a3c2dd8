import FtMalloc.Abstract.Moved
import FtMalloc.Results.Independence
import FtMalloc.Run.Accounting
import Mathlib.Data.List.Forall2

/-!
# Where the kernel maps does not matter (`malloc.c:5-311`)

A client that keeps its pointers by their place among its allocations makes a list of choices
(`Choice`): the same choices can be played on any machine, with any memory and any kernel (`Plays`).
Where the kernel maps decides the pointers, and so do the mappings it refuses. The refusals matter,
the addresses do not.

* `Op.Moved` and `Alloc.Moved`: the call and the allocation on the other machine.
* `Elsewhere`: the two machines hold the same heap, `ρ` says where.
* `Choice.exists_op`: every call that keeps the rules is a choice.

Results:
* `addresses_immaterial`: after the same choices, two machines whose kernels granted and refused the
  same calls hold the same heap at other addresses: the same mappings, the same nodes in the same
  order on every list, the same slots free, the same allocations at the same offsets. The calls that
  returned NULL are the same.
-/

namespace FtMalloc

open Lib AHeap

/-! ## Choices -/

/-- A call of a client that names its allocations by their place, latest first. A pointer without a
place is NULL. -/
inductive Choice
  | malloc (size : Nat)
  | free (x : Option Nat)
  | realloc (x : Option Nat) (size : Nat)
  | write (x offset : Nat) (byte : Byte)
  deriving DecidableEq, Repr

/-- The pointer at a place. -/
def ptrAt (live : List Alloc) (x : Option Nat) : Nat :=
  ((x.bind fun i => live[i]?).map Alloc.ptr).getD null

/-- The call on this machine. -/
def Choice.op (live : List Alloc) : Choice → Op
  | .malloc s => .malloc s
  | .free x => .free (ptrAt live x)
  | .realloc x s => .realloc (ptrAt live x) s
  | .write x o b => .write (ptrAt live (some x) + o) b

/-- A run of a client that keeps the rules, by its choices, with the results of its calls. -/
inductive Plays {σ : Type} (api : Api σ) (c : Config σ) : List (Choice × Nat) → Config σ → Prop
  | nil : Plays api c [] c
  | snoc {t : List (Choice × Nat)} {c₁ c₂ : Config σ} {x : Choice} {q : Nat} :
      Plays api c t c₁ → Step api c₁ (x.op c₁.live) q c₂ → Plays api c (t ++ [(x, q)]) c₂

variable {P : Nat} {A B A' B' : AHeap} {ρ ρ' : Nat → Nat} {os os' f f' : Os} {k : Cell}
  {x y : Alloc} {live live' : List Alloc} {p p' q q' s : Nat} {op op' : Op}
  {c c' c₁ c₁' : Config World} {t t' : List (Choice × Nat)}

theorem exists_ptrAt (h : ∃ x ∈ live, x.ptr = p) : ∃ i, ptrAt live (some i) = p := by
  obtain ⟨x, hx, rfl⟩ := h
  obtain ⟨i, hi⟩ := List.mem_iff_getElem?.mp hx
  refine ⟨i, ?_⟩
  simp [ptrAt, hi]

/-- **Every call that keeps the rules is a choice.** -/
theorem Choice.exists_op (hv : op.Valid live) : ∃ x : Choice, x.op live = op := by
  have hptr : ∀ {p}, (p = null ∨ ∃ x ∈ live, x.ptr = p) → ∃ x, ptrAt live x = p := by
    rintro p (rfl | h)
    · exact ⟨none, rfl⟩
    · exact (exists_ptrAt h).imp' some fun _ h => h
  cases op with
  | malloc s => exact ⟨.malloc s, rfl⟩
  | free p =>
    obtain ⟨x, rfl⟩ := hptr hv
    exact ⟨.free x, rfl⟩
  | realloc p s =>
    obtain ⟨x, rfl⟩ := hptr hv.2
    exact ⟨.realloc x s, rfl⟩
  | write a b =>
    obtain ⟨y, hy, h1, -⟩ := hv
    obtain ⟨i, hi⟩ := exists_ptrAt ⟨y, hy, rfl⟩
    refine ⟨.write i (a - y.ptr) b, congrArg (Op.write · b) ?_⟩
    rw [hi]
    omega

/-- So every run is played. -/
theorem Run.plays {σ : Type} {api : Api σ} {c c' : Config σ} {t : List (Op × Nat)}
    (h : Run api c t c') : ∃ t', Plays api c t' c' ∧ t'.map Prod.snd = t.map Prod.snd := by
  induction h with
  | nil => exact ⟨[], Plays.nil, rfl⟩
  | @snoc t c₁ c₂ op q _ _ hs ih =>
    obtain ⟨t', ht, hq⟩ := ih
    obtain ⟨x, rfl⟩ := Choice.exists_op hs.valid
    refine ⟨t' ++ [(x, q)], ht.snoc hs, ?_⟩
    rw [List.map_append, List.map_append, hq]
    rfl

/-! ## The other machine -/

/-- The allocation on the other machine: the same cell. -/
def Alloc.Moved (P : Nat) (A : AHeap) (ρ : Nat → Nat) (x y : Alloc) : Prop :=
  y.size = x.size ∧ ∃ k, A.Holds k ∧ k.addr P = x.ptr ∧ (k.moved ρ).addr P = y.ptr

/-- The call on the other machine. -/
inductive Op.Moved (P : Nat) (A : AHeap) (ρ : Nat → Nat) : Op → Op → Prop
  | malloc (s : Nat) : Op.Moved P A ρ (.malloc s) (.malloc s)
  | free {p p' : Nat} : Pointer P A ρ p p' → Op.Moved P A ρ (.free p) (.free p')
  | realloc {p p' : Nat} (s : Nat) : Pointer P A ρ p p' →
      Op.Moved P A ρ (.realloc p s) (.realloc p' s)
  | write (a a' : Nat) (b : Byte) : Op.Moved P A ρ (.write a b) (.write a' b)

theorem ptrAt_moved (h : List.Forall₂ (Alloc.Moved P A ρ) live live') (i : Option Nat) :
    Pointer P A ρ (ptrAt live i) (ptrAt live' i) := by
  cases i with
  | none => exact Pointer.nil
  | some i =>
    induction h generalizing i with
    | nil => exact Pointer.nil
    | cons hxy _ ih =>
      cases i with
      | zero =>
        obtain ⟨-, k, hk, hx, hy⟩ := hxy
        change Pointer P A ρ (Alloc.ptr _) (Alloc.ptr _)
        rw [← hx, ← hy]
        exact Pointer.cell hk
      | succ i => exact ih i

theorem Choice.op_moved (h : List.Forall₂ (Alloc.Moved P A ρ) live live') (x : Choice) :
    Op.Moved P A ρ (x.op live) (x.op live') := by
  cases x with
  | malloc s => exact Op.Moved.malloc s
  | free x => exact Op.Moved.free (ptrAt_moved h x)
  | realloc x s => exact Op.Moved.realloc s (ptrAt_moved h x)
  | write x o b => exact Op.Moved.write _ _ b

/-- **The two machines**: one heap at two places. -/
structure Elsewhere (P : Nat) (ρ : Nat → Nat) (A B : AHeap) (c c' : Config World) : Prop where
  left : Inv P c A
  right : Inv P c' B
  heap : A.Moved ρ B
  system : c.state.os.Moved ρ c'.state.os
  live : List.Forall₂ (Alloc.Moved P A ρ) c.live c'.live

/-- Two lists lose the entries of a pointer. -/
theorem forall₂_drop {R S : Alloc → Alloc → Prop} (h : List.Forall₂ R live live')
    (hptr : ∀ x y, R x y → (x.ptr = p ↔ y.ptr = p')) (hkeep : ∀ x y, R x y → x.ptr ≠ p → S x y) :
    List.Forall₂ S (drop live p) (drop live' p') := by
  induction h with
  | nil => exact List.Forall₂.nil
  | @cons x y l l' hxy _ ih =>
    by_cases hx : x.ptr = p
    · have hy := (hptr x y hxy).mp hx
      simpa [drop, hx, hy] using ih
    · have hy : y.ptr ≠ p' := fun e => hx ((hptr x y hxy).mpr e)
      rw [drop_cons_of_ne hx, drop_cons_of_ne hy]
      exact List.Forall₂.cons (hkeep x y hxy hx) ih

section Pair

variable (hP : ValidPage P) (hE : Elsewhere P ρ A B c c')
include hP hE

/-- Pointers of one cell: they are equal on one machine when they are on the other. -/
theorem Elsewhere.addr_iff {k k' : Cell} (hk : A.Holds k) (hk' : A.Holds k') :
    k.addr P = k'.addr P ↔ (k.moved ρ).addr P = (k'.moved ρ).addr P := by
  constructor
  · intro h
    rw [hE.left.sound.addr_inj hP hk hk' h]
  · intro h
    have hsame := hE.right.sound.addr_inj hP (hE.heap.holds hk) (hE.heap.holds hk') h
    rw [hE.heap.moved_inj hE.right.ok.toWf hk hk' hsame]

omit hP in
/-- The allocations that stay on both machines. -/
theorem Elsewhere.kept {r r' : AHeap × Os} (h : Follows ρ c.state.os r r' ρ')
    (hkeep : ∀ {k}, A.Holds k → r.1.Holds k) :
    List.Forall₂ (Alloc.Moved P r.1 ρ') c.live c'.live := by
  refine hE.live.imp fun x y hxy => ?_
  obtain ⟨hsize, k, hk, hx, hy⟩ := hxy
  refine ⟨hsize, k, hkeep hk, hx, ?_⟩
  rw [h.cell hE.left.rep.backed hk]
  exact hy

/-- The allocations that stay when a cell is released. -/
theorem Elsewhere.released {r r' : AHeap × Os} (h : Follows ρ c.state.os r r' ρ')
    (hk : A.Holds k) (hkeep : KeepsBut k A r.1) :
    List.Forall₂ (Alloc.Moved P r.1 ρ') (drop c.live (k.addr P))
      (drop c'.live ((k.moved ρ).addr P)) := by
  refine forall₂_drop hE.live ?_ ?_
  · rintro x y ⟨-, k', hk', hx, hy⟩
    rw [← hx, ← hy]
    exact hE.addr_iff hP hk' hk
  · rintro x y ⟨hsize, k', hk', hx, hy⟩ hne
    have hkk : k' ≠ k := by
      rintro rfl
      exact hne hx.symm
    refine ⟨hsize, k', (hkeep hkk hk').1, hx, ?_⟩
    rw [h.cell hE.left.rep.backed hk']
    exact hy

end Pair

/-- Both are NULL or neither is. -/
theorem AHeap.Pointer.null_iff (h : Pointer P A ρ q q') : q = null ↔ q' = null := by
  cases h with
  | nil => exact Iff.rfl
  | cell hk => exact iff_of_false Cell.addr_ne_zero Cell.addr_ne_zero

/-- The allocations after both machines returned the same cell. -/
theorem AHeap.Pointer.served (h : Pointer P A ρ q q')
    (hl : List.Forall₂ (Alloc.Moved P A ρ) live live') :
    List.Forall₂ (Alloc.Moved P A ρ) (if q = null then live else ⟨q, s⟩ :: live)
      (if q' = null then live' else ⟨q', s⟩ :: live') := by
  cases h with
  | nil => exact hl
  | @cell k hk =>
    rw [if_neg Cell.addr_ne_zero, if_neg Cell.addr_ne_zero]
    exact List.Forall₂.cons ⟨rfl, k, hk, rfl, rfl⟩ hl

/-! ## A call on both machines -/

section Call

variable (hP : ValidPage P) (hE : Elsewhere P ρ A B c c')
include hP hE

theorem Elsewhere.malloc (hq : q = (A.malloc P c.state.os s).1)
    (hq' : q' = (B.malloc P c'.state.os s).1)
    (ha : (A.malloc P c.state.os s).2.2.Agree (B.malloc P c'.state.os s).2.2) :
    (q = null ↔ q' = null) ∧
      ∃ ρ', Follows ρ c.state.os (A.malloc P c.state.os s).2 (B.malloc P c'.state.os s).2 ρ' ∧
        List.Forall₂ (Alloc.Moved P (A.malloc P c.state.os s).2.1 ρ')
          (if q = null then c.live else ⟨q, s⟩ :: c.live)
          (if q' = null then c'.live else ⟨q', s⟩ :: c'.live) := by
  obtain ⟨ρ', hg⟩ := malloc_moved hE.left.sound hE.right.sound hE.heap hE.system hP ha
  have hpt := hg.pointer
  rw [← hq, ← hq'] at hpt
  have hv := malloc_serves (s := s) hP hE.left.sound
  exact ⟨hpt.null_iff, ρ', hg.toFollows, hpt.served (hE.kept hg.toFollows hv.grows.held)⟩

theorem Elsewhere.realloc (hk : A.Holds k) (hq : q = (A.realloc P c.state.os k s).1)
    (hq' : q' = (B.realloc P c'.state.os (k.moved ρ) s).1)
    (ha : (A.realloc P c.state.os k s).2.2.Agree
      (B.realloc P c'.state.os (k.moved ρ) s).2.2) :
    (q = null ↔ q' = null) ∧
      ∃ ρ', Follows ρ c.state.os (A.realloc P c.state.os k s).2
          (B.realloc P c'.state.os (k.moved ρ) s).2 ρ' ∧
        List.Forall₂ (Alloc.Moved P (A.realloc P c.state.os k s).2.1 ρ')
          (if q = null then c.live else ⟨q, s⟩ :: drop c.live (k.addr P))
          (if q' = null then c'.live else ⟨q', s⟩ :: drop c'.live ((k.moved ρ).addr P)) := by
  obtain ⟨ρ', hf, hpt⟩ :=
    realloc_moved hE.left.sound hE.right.sound hE.heap hE.system hP hk ha
  have hv := realloc_resizes (s := s) hP hE.left.sound hk
  rw [← hq, ← hq'] at hpt
  refine ⟨hpt.null_iff, ρ', hf, ?_⟩
  by_cases h0 : q = null
  · rw [if_pos h0, if_pos (hpt.null_iff.mp h0)]
    refine hE.kept hf fun {k'} hk' => ?_
    by_cases he : k' = k
    · rw [he]
      rcases hv.result with ⟨-, hheld, -⟩ | ⟨hne, -⟩
      · exact hheld
      · exact absurd (hq.symm.trans h0) hne
    · exact (hv.keeps he hk').1
  · have hserved := hpt.served (s := s) (hE.released hP hf hk hv.keeps)
    rwa [if_neg h0, if_neg (hpt.null_iff.not.mp h0)] at hserved ⊢

/-- **A call on both machines** returns NULL on both or on neither, and they hold the same heap
again. -/
theorem Elsewhere.step [Platform] (hm : Op.Moved P A ρ op op') (h : Step mandatory c op q c₁)
    (h' : Step mandatory c' op' q' c₁') (ha : c₁.state.os.Agree c₁'.state.os) :
    (q = null ↔ q' = null) ∧ ∃ ρ' A' B', Elsewhere P ρ' A' B' c₁ c₁' := by
  obtain ⟨r, he, hq, hos, hI⟩ := step_effect hP hE.left h
  obtain ⟨r', he', hq', hos', hI'⟩ := step_effect hP hE.right h'
  have hlive := h.live
  have hlive' := h'.live
  have hnull : drop c.live null = c.live := drop_of_not_mem (hE.left.ptr_ne_null hP)
  have hnull' : drop c'.live null = c'.live := drop_of_not_mem (hE.right.ptr_ne_null hP)
  -- what is left to show once the effects are known
  have hdone : (q = null ↔ q' = null) → ∀ ρ', Follows ρ c.state.os r.2 r'.2 ρ' →
      List.Forall₂ (Alloc.Moved P r.2.1 ρ') c₁.live c₁'.live →
      (q = null ↔ q' = null) ∧ ∃ ρ' A' B', Elsewhere P ρ' A' B' c₁ c₁' := by
    intro hiff ρ' hf hl
    refine ⟨hiff, ρ', r.2.1, r'.2.1, hI, hI', hf.heap, ?_, hl⟩
    rw [hos, hos']
    exact hf.system
  rw [hos, hos'] at ha
  have hunique : ∀ {e}, Effect P A c.state.os op e → r = e := fun h =>
    Effect.unique hP hE.left.rep hE.left.ok he h
  have hunique' : ∀ {e}, Effect P B c'.state.os op' e → r' = e := fun h =>
    Effect.unique hP hE.right.rep hE.right.ok he' h
  have hstay : Follows ρ c.state.os (A, c.state.os) (B, c'.state.os) ρ :=
    ⟨fun _ _ => rfl, hE.heap, hE.system⟩
  cases hm with
  | malloc s =>
    obtain rfl := hunique (EffectOf.malloc s)
    obtain rfl := hunique' (EffectOf.malloc s)
    obtain ⟨hiff, ρ', hf, hl⟩ := hE.malloc hP hq hq' ha
    rw [hlive, hlive'] at hdone
    exact hdone hiff ρ' hf hl
  | free hp =>
    cases hp with
    | nil =>
      obtain rfl := hunique EffectOf.freeNull
      obtain rfl := hunique' EffectOf.freeNull
      refine hdone (by rw [hq, hq']) ρ hstay ?_
      rw [hlive, hlive']
      change List.Forall₂ _ (drop c.live null) (drop c'.live null)
      rw [hnull, hnull']
      exact hE.live
    | @cell k hk =>
      obtain rfl := hunique (EffectOf.free hk)
      obtain rfl := hunique' (EffectOf.free (hE.heap.holds hk))
      have hf := free_moved hE.left.sound hE.right.sound hE.heap hE.system hk
      refine hdone (by rw [hq, hq']) ρ hf ?_
      rw [hlive, hlive']
      exact hE.released hP hf hk (free_releases hP hE.left.sound hk).keeps
  | realloc s hp =>
    have hafter : ∀ {live q p}, (Op.realloc p s).after mandatory.zeroFrees live q =
        if q = null then live else ⟨q, s⟩ :: drop live p := by
      intro live q p
      simp [Op.after, mandatory]
    rw [hlive, hlive', hafter, hafter] at hdone
    cases hp with
    | nil =>
      obtain rfl := hunique (EffectOf.reallocNull s)
      obtain rfl := hunique' (EffectOf.reallocNull s)
      obtain ⟨hiff, ρ', hf, hl⟩ := hE.malloc hP hq hq' ha
      rw [hnull, hnull'] at hdone
      exact hdone hiff ρ' hf hl
    | @cell k hk =>
      obtain rfl := hunique (EffectOf.realloc s hk)
      obtain rfl := hunique' (EffectOf.realloc s (hE.heap.holds hk))
      obtain ⟨hiff, ρ', hf, hl⟩ := hE.realloc hP hk hq hq' ha
      exact hdone hiff ρ' hf hl
  | write a a' b =>
    obtain rfl := hunique (EffectOf.write a b)
    obtain rfl := hunique' (EffectOf.write a' b)
    refine hdone (by rw [hq, hq']) ρ hstay ?_
    rw [hlive, hlive']
    exact hE.live

end Call

/-! ## Runs -/

/-- The log of system calls only grows along a step. -/
theorem Step.since [Platform] (hP : ValidPage P) (hI : Inv P c A) (h : Step mandatory c op q c₁) :
    c.state.os.Since c₁.state.os := by
  obtain ⟨r, he, -, hos, -⟩ := step_effect hP hI h
  rw [hos]
  exact he.since hP hI

/-- The allocation on the other machine: in the same mapping, at the same offset. -/
def Alloc.Relocated (ρ : Nat → Nat) (os : Os) (x y : Alloc) : Prop :=
  y.size = x.size ∧ ∃ g ∈ os.regions, ∃ d, d + x.size ≤ g.len ∧ x.ptr = g.base + d ∧
    y.ptr = ρ g.base + d

/-- The heap of `w` at other addresses. -/
structure Relocated (ρ : Nat → Nat) (w w' : World) : Prop where
  outcomes : w'.os.outcomes = w.os.outcomes
  regions : w'.os.regions = w.os.regions.map (Region.moved ρ)
  nodes : ∀ h, w'.nodes h = (w.nodes h).map ρ
  count : ∀ {cl z}, w.InClass cl z → w'.freeCount (ρ z) = w.freeCount z
  bits : ∀ {cl z} {i : Nat}, w.InClass cl z → (i : Int) < w.numberOfBlocks z →
    bit w'.mem (w'.bitmap (ρ z)) i = bit w.mem (w.bitmap z) i

theorem Cell.moved_addr (k : Cell) : (k.moved ρ).addr P + k.base = ρ k.base + k.addr P := by
  cases k with
  | slot c z i =>
    change c.slotAddr P (ρ z) i + z = ρ z + c.slotAddr P z i
    unfold Cls.slotAddr
    omega
  | block b =>
    change ρ b + 48 + b = ρ b + (b + 48)
    omega

theorem Elsewhere.alloc (hP : ValidPage P) (hE : Elsewhere P ρ A B c c') (hx : x ∈ c.live)
    (h : Alloc.Moved P A ρ x y) : Alloc.Relocated ρ c.state.os x y := by
  obtain ⟨hsize, k, hk, hxk, hyk⟩ := h
  obtain ⟨k', hk', hxk', hcap⟩ := hE.left.owned.cell x hx
  obtain rfl := hE.left.sound.addr_inj hP hk hk' (hxk.trans hxk'.symm)
  obtain ⟨h, hmem, h1, h2⟩ := (hE.left.rep.wf.hasCell hk).node hP
  have hmoved := k.moved_addr (P := P) (ρ := ρ)
  refine ⟨hsize, ⟨k.base, _⟩, hE.left.rep.backed.region hmem, k.addr P - k.base, ?_, ?_, ?_⟩
  · change k.addr P - k.base + x.size ≤ A.len P h k.base
    omega
  · change x.ptr = k.base + (k.addr P - k.base)
    omega
  · change y.ptr = ρ k.base + (k.addr P - k.base)
    omega

theorem Elsewhere.relocated (hP : ValidPage P) (hE : Elsewhere P ρ A B c c') :
    Relocated ρ c.state c'.state := by
  have hr := hE.left.rep
  have hr' := hE.right.rep
  refine ⟨hE.system.outcomes, hE.system.regions, fun h => ?_, fun {cl z} hz => ?_,
    fun {cl z i} hz hi => ?_⟩
  · rw [hr'.nodes_eq, hr.nodes_eq]
    exact hE.heap.lists h
  · have hzone := hr.inClass_iff.mp hz
    have hzone' := hE.heap.hasZone hzone
    unfold World.freeCount
    rw [(hr.zone hzone).1.count, (hr'.zone hzone').1.count, hE.heap.slots hzone]
  · have hzone := hr.inClass_iff.mp hz
    have hzone' := hE.heap.hasZone hzone
    have hbits := (hP.layout cl).bits
    rw [(hr.zone_fields hzone).number] at hi
    have hlt : i < 8 * cl.bitmapLen P := by omega
    rw [(hr.zone_fields hzone).bitmap, (hr'.zone_fields hzone').bitmap,
      (hr.zone hzone).1.bits i hlt, (hr'.zone hzone').1.bits i hlt, hE.heap.slots hzone]

theorem init_elsewhere (hP : ValidPage P) {m m' : Mem} {answers answers' : List (Option Nat)} :
    Elsewhere P id AHeap.empty AHeap.empty ⟨World.init P m answers, []⟩
      ⟨World.init P m' answers', []⟩ :=
  ⟨init_inv hP, init_inv hP, ⟨rfl, fun _ => rfl, fun _ => rfl, fun _ _ => rfl⟩, ⟨rfl, rfl⟩,
    List.Forall₂.nil⟩

theorem Plays.inv [Platform] (hP : ValidPage P) {m : Mem} {answers : List (Option Nat)}
    (h : Plays mandatory ⟨World.init P m answers, []⟩ t c) : ∃ A, Inv P c A := by
  induction h with
  | nil => exact ⟨_, init_inv hP⟩
  | snoc _ hs ih =>
    obtain ⟨A, hI⟩ := ih
    exact step_inv hP hI hs

/-- **Two machines play the same choices**: they hold the same heap, and the same calls return
NULL. -/
theorem plays_elsewhere [Platform]
    (hP : ValidPage P) {m m' : Mem} {answers answers' : List (Option Nat)}
    (h : Plays mandatory ⟨World.init P m answers, []⟩ t c)
    (h' : Plays mandatory ⟨World.init P m' answers', []⟩ t' c')
    (hsame : t'.map Prod.fst = t.map Prod.fst) (ha : c.state.os.Agree c'.state.os) :
    List.Forall₂ (fun e e' => e.2 = null ↔ e'.2 = null) t t' ∧
      ∃ ρ A B, Elsewhere P ρ A B c c' := by
  induction h generalizing t' c' with
  | nil =>
    cases h' with
    | nil => exact ⟨List.Forall₂.nil, id, _, _, init_elsewhere hP⟩
    | snoc => simp at hsame
  | @snoc t c₁ c₂ x q h₁ hs ih =>
    cases h' with
    | nil => simp at hsame
    | @snoc t' c₁' _ x' q' h₁' hs' =>
      rw [List.map_append, List.map_append] at hsame
      obtain ⟨ht, hx⟩ := List.append_inj' hsame rfl
      obtain rfl : x' = x := List.head_eq_of_cons_eq hx
      obtain ⟨A₁, hI⟩ := h₁.inv hP
      obtain ⟨B₁, hI'⟩ := h₁'.inv hP
      obtain ⟨hres, ρ, A, B, hE⟩ := ih h₁' ht (ha.before (hs.since hP hI) (hs'.since hP hI'))
      obtain ⟨hiff, hE'⟩ := hE.step hP (Choice.op_moved hE.live x') hs hs' ha
      exact ⟨List.rel_append hres (List.Forall₂.cons hiff List.Forall₂.nil), hE'⟩

/-- **Addresses are immaterial.** Two clients play the same choices on machines with any memories,
over kernels that map anywhere, and as far as both kernels were asked they granted and refused the
same calls. Then the two heaps are one heap at two places, the allocations are the same at the same
offsets of their mappings, and the same calls returned NULL. -/
theorem addresses_immaterial [Platform]
    (hP : ValidPage P) {m m' : Mem} {answers answers' : List (Option Nat)}
    (h : Plays mandatory ⟨World.init P m answers, []⟩ t c)
    (h' : Plays mandatory ⟨World.init P m' answers', []⟩ t' c')
    (hsame : t'.map Prod.fst = t.map Prod.fst) (ha : c.state.os.Agree c'.state.os) :
    List.Forall₂ (fun e e' => e.2 = null ↔ e'.2 = null) t t' ∧
      ∃ ρ, Relocated ρ c.state c'.state ∧
        List.Forall₂ (Alloc.Relocated ρ c.state.os) c.live c'.live := by
  obtain ⟨hres, ρ, A, B, hE⟩ := plays_elsewhere hP h h' hsame ha
  refine ⟨hres, ρ, hE.relocated hP, ?_⟩
  have hmem := (List.forall₂_and_left c.live c'.live).mpr ⟨fun x hx => hx, hE.live⟩
  exact hmem.imp fun x y hxy => hE.alloc hP hxy.1 hxy.2

/-- The first call of a client. -/
theorem plays_malloc [Platform]
    (hP : ValidPage P) (hs : s < 2 ^ 64) (m : Mem) (answers : List (Option Nat)) :
    ∃ c, Plays mandatory ⟨World.init P m answers, []⟩
        [(.malloc s, (AHeap.empty.malloc P (Os.init P answers) s).1)] c ∧
      c.state.os = (AHeap.empty.malloc P (Os.init P answers) s).2.2 := by
  have hI : Inv P ⟨World.init P m answers, []⟩ AHeap.empty := init_inv hP
  obtain ⟨q, c, h⟩ := reachable_total ⟨hP, m, answers, _, RunIn.nil⟩ (valid_malloc hs)
  obtain ⟨r, he, hq, hos, -⟩ := step_effect hP hI h
  obtain rfl := Effect.unique hP hI.rep hI.ok he (EffectOf.malloc s)
  subst hq
  exact ⟨c, Plays.nil.snoc (x := .malloc s) h, hos⟩

/-- A large block from two kernels. -/
theorem addresses_immaterial_sample : ∃ c c',
    Plays mandatory sampleStart [(.malloc 2000, 1048624)] c ∧
      Plays mandatory ⟨World.init 4096 (fun _ => 1) [some 8192, some 4096000, some 65536], []⟩
        [(.malloc 2000, 65584)] c' ∧
      ∃ ρ, Relocated ρ c.state c'.state := by
  obtain ⟨c, hc, hos⟩ := plays_malloc validPage_4096 (s := 2000) (by decide) (fun _ => 0)
    sampleAnswers
  obtain ⟨c', hc', hos'⟩ := plays_malloc validPage_4096 (s := 2000) (by decide) (fun _ => 1)
    [some 8192, some 4096000, some 65536]
  have hagree : c.state.os.Agree c'.state.os := by
    rw [hos, hos']
    exact Or.inl (List.suffix_refl [true, true, true])
  obtain ⟨-, ρ, hρ, -⟩ := addresses_immaterial validPage_4096 hc hc' rfl hagree
  exact ⟨c, c', hc, hc', ρ, hρ⟩

end FtMalloc
