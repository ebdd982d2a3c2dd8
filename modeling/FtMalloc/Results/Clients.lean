import FtMalloc.Lib.Terminating
import FtMalloc.Run.Alone

/-!
# Programs among other programs

`programs_total`: any number of client programs run at once over the bonus allocator. If each is
right over a heap of its own (`Client.Meets`), which may refuse any request, then from every state
that some interleaving of their atomic steps reaches there is no endless run; a program that has not
ended can take a step; and one that has ended has ended as it should, its blocks with the bytes it
left there.
-/

namespace FtMalloc

open Lib Dialogue Bonus

variable {P : Nat} {A : AHeap} {W W' : BonusWorld} {live : List Alloc} {a : Activity} {pc pc' : Pc}
  {ι α : Type} {pr pr' : Process ι α} {Q : ι → α → Private → Prop}

/-! ## Every program ends -/

/-- How many steps a call has left at most. -/
def Bonus.Pc.rank : Pc → Nat
  | .store _ _ => 1
  | .check _ => 3
  | .setup _ => 2
  | .alloc _ => 1
  | .freeHeader _ => 2
  | .freeBlock _ _ => 1
  | .header _ _ => 4
  | .grow _ _ _ _ => 3
  | .copy _ _ _ _ _ => 2
  | .release _ _ _ _ => 1

/-- A step that reads the header of a block goes on to one of lower rank. -/
theorem readFree_rank {ptr : Nat} {w w' : World} (h : readFree ptr w = some (.go pc', w')) :
    pc'.rank < 2 := by
  obtain ⟨word, w₁, -, h⟩ := Prog.bind_eq_some.mp h
  split at h
  · cases h
  · obtain ⟨type, w₂, -, h⟩ := Prog.bind_eq_some.mp h
    have h := (Prod.mk.inj (Option.some.inj h)).1
    split at h
    · cases h
    · cases h
      simp [Pc.rank]

theorem readRealloc_rank {ptr size : Nat} {w w' : World}
    (h : readRealloc ptr size w = some (.go pc', w')) : pc'.rank < 4 := by
  obtain ⟨word, w₁, -, h⟩ := Prog.bind_eq_some.mp h
  obtain ⟨type, w₂, -, h⟩ := Prog.bind_eq_some.mp h
  obtain ⟨current, w₃, -, h⟩ := Prog.bind_eq_some.mp h
  have h := (Prod.mk.inj (Option.some.inj h)).1
  split at h
  · cases h
  · cases h
    simp [Pc.rank]

theorem lift_eq_some {β : Type} {x : C β} {b : β} (h : lift x W = some (b, W')) :
    x W.world = some (b, W'.world) := by
  obtain ⟨r, hr, hb⟩ := Option.map_eq_some_iff.mp h
  cases hb
  exact hr

/-- A call gets closer to its end with each step. -/
theorem exec_rank [Platform] (h : pc.exec W = some (.go pc', W')) : pc'.rank < pc.rank := by
  have after : ∀ {β : Type} {x : B β} {f : β → Next},
      (x >>= fun b => pure (f b)) W = some (.go pc', W') → ∃ b, f b = .go pc' := by
    intro β x f hx
    obtain ⟨b, W₁, -, hb⟩ := Prog.bind_eq_some.mp hx
    exact ⟨b, (Prod.mk.inj (Option.some.inj hb)).1⟩
  cases pc with
  | store | alloc | freeBlock | release =>
    obtain ⟨b, hb⟩ := after h
    cases hb
  | check size =>
    obtain ⟨w, hw⟩ := after h
    cases hw
    split
    · simp [Pc.rank]
    · simp [Pc.rank]
  | setup size =>
    obtain ⟨e, he⟩ := after h
    split at he
    · cases he
    · cases he
      simp [Pc.rank]
  | freeHeader ptr => exact readFree_rank (lift_eq_some h)
  | header ptr size => exact readRealloc_rank (lift_eq_some h)
  | grow ptr size type current =>
    obtain ⟨new, hnew⟩ := after h
    split at hnew
    · cases hnew
    · cases hnew
      simp [Pc.rank]
  | copy =>
    obtain ⟨u, hu⟩ := after h
    cases hu
    simp [Pc.rank]

/-- A call under way ends, when the program does after it. -/
theorem acc_call [Platform] {i : ι} {op : Op} {k : Nat → Client α} {tr : List (Op × Nat)}
    (hk : ∀ q live tr, Acc (Sys.After ProcessStep) (⟨i, live, k q, tr⟩ : Process ι α)) {n : Nat} :
    ∀ {a : Activity}, a.pc.rank ≤ n →
      Acc (Sys.After ProcessStep) (⟨i, ⟨live, some a⟩, .ask (.op op) k, tr⟩ : Process ι α) := by
  induction n with
  | zero =>
    rintro ⟨op', before, pc⟩ hn
    cases pc <;> exact absurd hn (by simp [Pc.rank])
  | succ n ih =>
    refine fun {a} hn => Acc.intro _ ?_
    rintro pr' ⟨W, W', hs⟩
    cases hs with
    | @exec _ _ _ _ a _ o hrun =>
      cases o with
      | go pc =>
        have hlt := exec_rank hrun
        exact ih (a := ⟨a.op, a.before, pc⟩) (by simp only; omega)
      | done q => exact hk q _ _

/-- **No program takes steps for ever**, whatever is done to the heap meanwhile. -/
theorem processes_wf [Platform] : WellFounded (Sys.After (ProcessStep (ι := ι) (α := α))) := by
  refine ⟨fun ⟨i, t, client, tr⟩ => ?_⟩
  induction client generalizing t tr with
  | ret r =>
    refine Acc.intro _ ?_
    rintro pr' ⟨W, W', hs⟩
    cases hs
  | ask e k ih =>
    obtain ⟨live, call⟩ := t
    cases e with
    | op op =>
      have hcall : ∀ {a : Activity}, Acc (Sys.After ProcessStep)
          (⟨i, ⟨live, some a⟩, .ask (.op op) k, tr⟩ : Process ι α) :=
        acc_call (fun q t tr => ih q t tr) (Nat.le_refl _)
      cases call with
      | some a => exact hcall
      | none =>
        refine Acc.intro _ ?_
        rintro pr' ⟨W, W', hs⟩
        cases hs with
        | call =>
          cases hstart : op.start with
          | go pc => exact hcall
          | done q => exact ih q _ _
    | read b =>
      refine Acc.intro _ ?_
      rintro pr' ⟨W, W', hs⟩
      cases hs with
      | read hrun => exact ih _ _ _

/-! ## Every program meets its contract -/

/-- The program has ended, and `Q` holds of what it returned and of what its thread has. -/
def Process.Ended (Q : ι → α → Private → Prop) (m : Mem) (pr : Process ι α) : Prop :=
  ∃ r live, ∃ h : Private, pr.thread = ⟨live, none⟩ ∧ pr.client = .ret r ∧
    h.blocks = view m live ∧ h.trace = pr.trace ∧ Q pr.id r h

/-- **Progress**: a process has ended, or can take a step. -/
theorem ProcessInv.progress [Platform]
    (hP : ValidPage P) (hI : HeapInv P A W) (hp : ProcessInv P Q A W pr) :
    (∃ W' pr', ProcessStep W pr W' pr') ∨ pr.Ended Q W.world.mem := by
  obtain ⟨i, ⟨live, call⟩, client, tr⟩ := pr
  obtain ⟨ht, h, hv, htr, hf⟩ := hp
  cases call with
  | some a =>
    obtain ⟨k, hk, -⟩ := hf
    obtain ⟨o, W', A', hrun, -⟩ := exec_advances hP hI ht
    obtain rfl : client = .ask (.op a.op) k := hk
    exact Or.inl ⟨_, _, .exec hrun⟩
  | none =>
    cases client with
    | ret r => exact Or.inr ⟨r, live, h, rfl, rfl, hv, htr, hf⟩
    | ask e k =>
      cases e with
      | op op => exact Or.inl ⟨_, _, .call⟩
      | read b =>
        obtain ⟨x, -, -, -, hfetch⟩ := readBlock_run hP hI ht.owned hv hf.1
        exact Or.inl ⟨_, _, .read hfetch⟩

variable [DecidableEq ι] {programs : ι → Client α} {S : Sys ι BonusWorld (Process ι α)}

/-- Programs that are right over private heaps make progress, and end as they should. -/
theorem programs_progress [Platform] (hS : Programs.Reachable P programs S)
    (hm : ∀ i, (programs i).Meets (Q i) Private.empty) (i : ι) :
    (∃ W' pr', ProcessStep S.shared (S.thread i) W' pr') ∨
      (S.thread i).Ended Q S.shared.world.mem := by
  obtain ⟨A, hI, hown, -⟩ := programs_inv hS hm
  exact (hown i).progress hS.1 hI

/-- **Client programs among each other.** -/
theorem programs_total [Platform] [Finite ι] (hS : Programs.Reachable P programs S)
    (hm : ∀ i, (programs i).Meets (Q i) Private.empty) :
    (∀ run : Nat → Sys ι BonusWorld (Process ι α), run 0 = S →
      ∃ n, ¬Sys.Step ProcessStep (run n) (run (n + 1))) ∧
    ∀ i, (∃ W' pr', ProcessStep S.shared (S.thread i) W' pr') ∨
      ∃ r, (S.thread i).client = .ret r ∧ ∃ h : Private, Q i r h ∧
        h.blocks = view S.shared.world.mem (S.thread i).thread.owned ∧
        h.trace = (S.thread i).trace := by
  refine ⟨fun run _ => Sys.ends processes_wf run, fun i => (programs_progress hS hm i).imp_right ?_⟩
  rintro ⟨r, live, h, ht, hc, hv, htr, hq⟩
  rw [Programs.id_eq hS] at hq
  refine ⟨r, hc, h, hq, ?_, htr⟩
  rw [hv, ht]
  rfl

/-! ### A program that ends while another is in a call -/

/-- A block is allocated and grown; it is released when there is no room for it. -/
def growsBlock : Client Nat := do
  let p ← Client.malloc 24
  if p = null then
    pure null
  else
    let q ← Client.realloc p 400
    if q = null then
      Client.free p
      pure null
    else
      pure q

/-- A block is allocated and released. -/
def freesBlock : Client Nat := do
  let p ← Client.malloc 500
  Client.free p
  pure null

/-- The program ends with the block that it returns and no other. -/
def Returns (r : Nat) (h : Private) : Prop :=
  (r = null → h.blocks = []) ∧ (r ≠ null → ∃ bytes, h.blocks = [⟨r, bytes⟩] ∧ bytes.length = 400)

theorem growsBlock_meets : growsBlock.Meets Returns .empty := by
  refine wp_bind.mpr (Client.meets_malloc (by decide) (by decide) (fun h hb _ => ?_)
    fun p bytes h hp _ hb _ => ?_)
  · rw [if_pos rfl]
    exact ⟨fun _ => hb, fun h0 => absurd rfl h0⟩
  rw [if_neg hp]
  have hmem : ⟨p, bytes⟩ ∈ h.blocks := hb ▸ List.mem_cons_self
  have hdrop : Block.drop h.blocks p = [] := by
    rw [hb]
    exact Block.drop_singleton
  refine wp_bind.mpr (Client.meets_realloc hmem hp (by decide) (by decide) (fun h₁ hb₁ _ => ?_)
    fun q bytes' h₁ hq hlen _ hb₁ _ => ?_)
  · rw [if_pos rfl]
    refine wp_bind.mpr (Client.meets_free (Or.inr ⟨_, hb₁ ▸ hmem, rfl⟩) fun h₂ hb₂ _ => ?_)
    exact ⟨fun _ => hb₂.trans (hb₁ ▸ hdrop), fun h0 => absurd rfl h0⟩
  · rw [if_neg hq]
    exact ⟨fun h0 => absurd h0 hq, fun _ => ⟨bytes', hb₁.trans (congrArg _ hdrop), hlen⟩⟩

theorem freesBlock_meets : freesBlock.Meets Returns .empty := by
  have hends : ∀ {p : Nat} {h : Private}, (p = null ∨ ∃ b ∈ h.blocks, b.ptr = p) →
      Block.drop h.blocks p = [] → (do Client.free p; pure null : Client Nat).Meets Returns h :=
    fun hp hdrop => wp_bind.mpr (Client.meets_free hp fun h' hb' _ =>
      ⟨fun _ => hb'.trans hdrop, fun h0 => absurd rfl h0⟩)
  refine wp_bind.mpr (Client.meets_malloc (by decide) (by decide) (fun h hb _ => ?_)
    fun p bytes h _ _ hb _ => ?_)
  · exact hends (Or.inl rfl) (by rw [hb]; rfl)
  · refine hends (Or.inr ⟨_, hb ▸ List.mem_cons_self, rfl⟩) ?_
    rw [hb]
    exact Block.drop_singleton

/-- The block of the first program has moved; the second is in its `malloc`. -/
theorem programs_total_sample : ∃ S : Sys Bool BonusWorld (Process Bool Nat),
    (S.thread true).client = .ret 8589935501 ∧
    (S.thread true).thread.owned = [⟨8589935501, 400⟩] ∧
    (S.thread false).thread.call.isSome ∧
    (∀ run : Nat → Sys Bool BonusWorld (Process Bool Nat), run 0 = S →
      ∃ n, ¬Sys.Step ProcessStep (run n) (run (n + 1))) ∧
    ∀ i, (∃ W' pr', ProcessStep S.shared (S.thread i) W' pr') ∨
      ∃ r, (S.thread i).client = .ret r ∧ ∃ h : Private, Returns r h ∧
        h.blocks = view S.shared.world.mem (S.thread i).thread.owned ∧
        h.trace = (S.thread i).trace := by
  let answers := [some (2 ^ 32), some (2 ^ 33)]
  let programs : Bool → Client Nat := fun i => if i then growsBlock else freesBlock
  have heval : (growsBlock.alone [] (BonusWorld.init 4096 (fun _ => 0) answers)).map (·.1) =
      some (8589935501, [⟨8589935501, 400⟩]) := by decide +kernel
  obtain ⟨⟨⟨r, live⟩, W⟩, hrun, he⟩ := Option.map_eq_some_iff.mp heval
  obtain ⟨rfl, rfl⟩ := Prod.mk.inj he
  obtain ⟨tr, hr⟩ := Client.alone_reach (S := Programs.init 4096 (fun _ => 0) answers programs)
    (i := true) rfl hrun
  let S := (Programs.init 4096 (fun _ => 0) answers programs).set true W
    ⟨true, ⟨[⟨8589935501, 400⟩], none⟩, .ret 8589935501, tr⟩
  have hcall : Sys.Step ProcessStep S (S.set false _ _) := .mk false .call
  refine ⟨_, rfl, rfl, rfl, programs_total (Q := fun _ => Returns)
    ⟨validPage_4096, _, _, hr.tail hcall⟩ fun i => ?_⟩
  cases i with
  | true => exact growsBlock_meets
  | false => exact freesBlock_meets

end FtMalloc
