import FtMalloc.Abstract.Calls
import FtMalloc.Abstract.Supply

/-!
# Which cells are handed out, and with which size

`Abstract/Steps.lean` says which cells an operation keeps. Here is the other direction: an
operation hands out nothing but the cell it returns. `Records A k n` says that the cell `k` is
handed out and that the allocator has written down the size `n` for it.

* `free_records`: after a release, the other cells are recorded as before.
* `malloc_gains`: a call that takes no last slot in vain (`LastTaken`) records the cell it returns
  and no other. The size is the one requested, or that of the cached block it reuses (`Sized`).
* `realloc_gains`: the same of a resizing, which releases the old cell when it returns a new one.
-/

namespace FtMalloc

namespace AHeap

/-- `k` is handed out, with the size `n` written down for it, in `requested_sizes` or in the block's
`size`. -/
def Records (A : AHeap) : Cell → Nat → Prop
  | .slot c z i, n => A.HasZone c z ∧ (A.slots z)[i]? = some (some n)
  | .block b, n => b ∈ A.lists .fullLargeBlocks ∧ A.size b = n

/-- The size written down for a request of `s` bytes: `s`, or that of the cached block which
serves it. -/
def Sized (A : AHeap) (s n : Nat) : Prop := n = s ∨ 1024 < s ∧ ∃ b, A.fit s = some b ∧ n = A.size b

variable {P : Nat} {A : AHeap} {os : Os} {h h' : Head} {x z i s b n : Nat} {c : Cls} {k k' : Cell}

theorem holds_iff_records : A.Holds k ↔ ∃ n, A.Records k n := by
  cases k with
  | slot c z i => exact exists_and_left.symm
  | block b =>
    constructor
    · intro hb
      exact ⟨_, hb, rfl⟩
    · rintro ⟨n, hb, -⟩
      exact hb

theorem Records.holds (hk : A.Records k n) : A.Holds k := holds_iff_records.mpr ⟨n, hk⟩

theorem Records.unique {m : Nat} (hk : A.Records k n) (hk' : A.Records k m) : n = m := by
  cases k with
  | slot c z i => exact Option.some.inj (Option.some.inj (hk.2.symm.trans hk'.2))
  | block b => exact hk.2.symm.trans hk'.2

/-! ## Cells under the updates -/

/-- A node that is taken out takes its cells along: nothing new is recorded. -/
theorem Wf.records_of_detach (hw : A.Wf P) (hk : (A.detach x h).Records k n) : A.Records k n := by
  cases k with
  | slot c z i =>
    obtain ⟨hz, hr⟩ := hk
    obtain ⟨g, hc, hm⟩ := hz.mem
    exact ⟨hasZone_of_mem hc (hw.mem_detach.mp hm).1, hr⟩
  | block b => exact ⟨(hw.mem_detach.mp hk.1).1, hk.2⟩

/-- What changing one slot leaves as it was: the records of every other cell. -/
theorem records_of_setSlot {o : Option Nat} (hw : A.Wf P) (hz : A.HasZone c z)
    (hk : (A.setSlot z i o).Records k n) :
    A.Records k n ∧ k ≠ .slot c z i ∨ o = some n ∧ k = .slot c z i := by
  cases k with
  | slot c' y j =>
    obtain ⟨hy, hr⟩ := hk
    rw [slots_setSlot] at hr
    by_cases e : y = z
    · subst e
      obtain rfl := hw.cls_unique hz hy
      rw [if_pos rfl] at hr
      by_cases hij : i = j
      · subst hij
        have hlt : i < (A.slots y).length := by
          have := (List.getElem?_eq_some_iff.mp hr).1
          rwa [List.length_set] at this
        rw [List.getElem?_set_self hlt] at hr
        exact Or.inr ⟨Option.some.inj hr, rfl⟩
      · rw [List.getElem?_set_ne hij] at hr
        refine Or.inl ⟨⟨hy, hr⟩, fun he => hij ?_⟩
        injection he with _ _ h
        exact h.symm
    · rw [if_neg e] at hr
      refine Or.inl ⟨⟨hy, hr⟩, fun he => e ?_⟩
      injection he
  | block b =>
    refine Or.inl ⟨hk, fun he => ?_⟩
    cases he

/-- The slots of a new zone are free, so it records nothing. -/
theorem records_of_addZone (hk : (A.addZone P c b).Records k n) : A.Records k n := by
  cases k with
  | slot c' y j =>
    obtain ⟨hy, hr⟩ := hk
    rw [slots_addZone] at hr
    by_cases e : y = b
    · rw [if_pos e, List.getElem?_replicate] at hr
      split at hr <;> simp at hr
    · rw [if_neg e] at hr
      exact ⟨(hasZone_addZone.mp hy).resolve_right fun h => e h.2, hr⟩
  | block b' =>
    refine ⟨(mem_addZone.mp hk.1).resolve_right fun h => ?_, hk.2⟩
    cases c <;> cases h.1

theorem records_of_init (hk : A.init.Records k n) : A.Records k n := by
  cases k <;> exact hk

theorem records_of_addBlock (hf : A.Fresh b) (hk : (A.addBlock b s).Records k n) :
    A.Records k n ∨ k = .block b ∧ n = s := by
  cases k with
  | slot c y j => exact Or.inl ⟨hasZone_addBlock.mp hk.1, hk.2⟩
  | block b' =>
    obtain ⟨hm, hn⟩ := hk
    rw [size_addBlock] at hn
    rcases mem_addBlock.mp hm with hm | ⟨-, rfl⟩
    · rw [if_neg (hf.ne_of_mem hm)] at hn
      exact Or.inl ⟨hm, hn⟩
    · rw [if_pos rfl] at hn
      exact Or.inr ⟨rfl, hn.symm⟩

/-- Moving a zone leaves the cells alone, with what is recorded for them. -/
theorem Wf.records_of_move (hw : A.Wf P) (hx : x ∈ A.lists h) (hc : h'.cls = h.cls)
    (hz : h.cls = some c) (hk : (A.move x h h').Records k n) : A.Records k n := by
  have hheld := (hw.holds_move hx hc hz).mp hk.holds
  cases k with
  | slot c' z i => exact ⟨hheld.1, hk.2⟩
  | block b => exact ⟨hheld, hk.2⟩

/-- Large blocks move between their two lists: on the full one they are held, on the other they are
not. -/
theorem Wf.records_of_move_large (hw : A.Wf P) (hx : x ∈ A.lists h) (hc : h'.cls = h.cls)
    (hk : (A.move x h h').Records k n) :
    A.Records k n ∧ k ≠ .block x ∨ h' = .fullLargeBlocks ∧ k = .block x ∧ n = A.size x := by
  cases k with
  | slot c z i =>
    refine Or.inl ⟨⟨(hw.hasZone_move hx hc).mp hk.1, hk.2⟩, fun he => ?_⟩
    cases he
  | block b =>
    obtain ⟨hm, hn⟩ := hk
    rcases (hw.mem_move hx).mp hm with ⟨hne, hb⟩ | ⟨rfl, e⟩
    · refine Or.inl ⟨⟨hb, hn⟩, fun he => hne ?_⟩
      injection he
    · exact Or.inr ⟨e.symm, rfl, hn.symm⟩

/-! ## Release -/

theorem freeSlot_records (hs : A.Sound P os) (hk : A.Holds (.slot c z i))
    (hk' : (A.freeSlot P os c z i).1.Records k' n) : k' ≠ .slot c z i ∧ A.Records k' n := by
  have hz := hk.1
  have hw : (A.setSlot z i none).Wf P := hs.ok.toWf.setSlot
  have hkeep : (A.setSlot z i none).Records k' n → k' ≠ .slot c z i ∧ A.Records k' n := by
    intro h
    rcases records_of_setSlot hs.ok.toWf hz h with ⟨h1, h2⟩ | ⟨h, -⟩
    · exact ⟨h2, h1⟩
    · cases h
  obtain ⟨-, r, hslot⟩ := hk
  unfold freeSlot at hk'
  by_cases hall : (A.setSlot z i none).freeCount z = c.cells P
  · rw [if_pos hall] at hk'
    split at hk'
    · exact hkeep hk'
    · exact hkeep (hw.records_of_detach hk')
  · rw [if_neg hall] at hk'
    by_cases hone : (A.setSlot z i none).freeCount z = 1
    · rw [if_pos hone] at hk'
      have hzf : z ∈ A.lists c.fullHead := hs.ok.on_full hz hslot hone
      exact hkeep (hw.records_of_move hzf c.cls_full_free.symm c.cls_fullHead hk')
    · rw [if_neg hone] at hk'
      exact hkeep hk'

theorem freeLarge_records (hs : A.Sound P os) (hk : A.Holds (.block b))
    (hk' : (A.freeLarge os b).1.Records k' n) : k' ≠ .block b ∧ A.Records k' n := by
  have hw := hs.ok.toWf
  have hb : b ∈ A.lists .fullLargeBlocks := hk
  unfold freeLarge at hk'
  split at hk'
  · refine ⟨?_, hw.records_of_detach hk'⟩
    rintro rfl
    exact (hw.mem_detach.mp hk'.1).2 ⟨rfl, rfl⟩
  · rcases hw.records_of_move_large hb Head.cls_large.symm hk' with ⟨h1, h2⟩ | ⟨h, -⟩
    · exact ⟨h2, h1⟩
    · cases h

/-- **A release** takes back its cell and leaves the others as they were recorded. -/
theorem free_records (hs : A.Sound P os) (hk : A.Holds k)
    (hk' : (A.free P os k).1.Records k' n) : k' ≠ k ∧ A.Records k' n := by
  cases k with
  | slot c z i => exact freeSlot_records hs hk hk'
  | block b => exact freeLarge_records hs hk hk'

theorem free_holds (hP : ValidPage P) (hs : A.Sound P os) (hk : A.Holds k) :
    (A.free P os k).1.Holds k' ↔ k' ≠ k ∧ A.Holds k' := by
  constructor
  · intro hk'
    obtain ⟨n, hn⟩ := holds_iff_records.mp hk'
    obtain ⟨hne, hr⟩ := free_records hs hk hn
    exact ⟨hne, hr.holds⟩
  · rintro ⟨hne, hk'⟩
    exact ((free_releases hP hs hk).keeps hne hk').1

/-! ## Allocation -/

/-- What the allocation `r` of `s` bytes records is the cell of the pointer it returns. -/
def Gains (P : Nat) (A : AHeap) (s : Nat) (r : Nat × AHeap × Os) : Prop :=
  ∀ k n, r.2.1.Records k n → A.Records k n ∨ r.1 ≠ 0 ∧ k.addr P = r.1 ∧ A.Sized s n

theorem createZone_records (hk : (A.createZone P os c).2.1.Records k n) : A.Records k n := by
  unfold createZone at hk
  cases hr : os.reply (c.total P) with
  | none =>
    rw [hr] at hk
    exact hk
  | some b =>
    rw [hr] at hk
    exact records_of_addZone hk

theorem fit_addZone : (A.addZone P c b).fit s = A.fit s := by
  cases c <;> rfl

/-- The setup records nothing and maps no large block: it adds two zones. -/
theorem ready_records (hk : (A.ready P os).2.1.Records k n) : A.Records k n := by
  unfold ready at hk
  split at hk
  · exact hk
  · cases hb : os.reply (Cls.tiny.total P) with
    | none =>
      rw [setup_tiny_refused hb] at hk
      exact hk
    | some b =>
      cases hb' : (os.mmap (Cls.tiny.total P)).reply (Cls.small.total P) with
      | none =>
        rw [setup_small_refused hb hb'] at hk
        exact records_of_addZone hk
      | some b' =>
        rw [setup_granted hb hb'] at hk
        exact records_of_addZone (records_of_addZone (records_of_init hk))

theorem ready_sized (hn : (A.ready P os).2.1.Sized s n) : A.Sized s n := by
  unfold ready at hn
  split at hn
  · exact hn
  · cases hb : os.reply (Cls.tiny.total P) with
    | none =>
      rw [setup_tiny_refused hb] at hn
      exact hn
    | some b =>
      cases hb' : (os.mmap (Cls.tiny.total P)).reply (Cls.small.total P) with
      | none =>
        rw [setup_small_refused hb hb', Sized, fit_addZone] at hn
        exact hn
      | some b' =>
        have hfit : ((A.addZone P .tiny b).addZone P .small b').init.fit s = A.fit s := by
          change ((A.addZone P .tiny b).addZone P .small b').fit s = A.fit s
          rw [fit_addZone, fit_addZone]
        rw [setup_granted hb hb', Sized, hfit] at hn
        exact hn

/-- Taking a slot, with its zone retired and replaced when it was the last one. -/
theorem takeSlot_records (hs : A.Sound P os) (hz : z ∈ A.lists c.freeHead)
    (hk : (A.takeSlot P os c z i s).2.1.Records k n) :
    A.Records k n ∨ k = .slot c z i ∧ n = s := by
  have hw : (A.setSlot z i (some s)).Wf P := hs.ok.toWf.setSlot
  have hset : (A.setSlot z i (some s)).Records k n := by
    unfold takeSlot at hk
    by_cases h0 : (A.setSlot z i (some s)).freeCount z = 0
    · rw [if_pos h0] at hk
      exact hw.records_of_move hz c.cls_full_free c.cls_freeHead (createZone_records hk)
    · rw [if_neg h0] at hk
      exact hk
  rcases records_of_setSlot hs.ok.toWf (Or.inl hz) hset with ⟨h, -⟩ | ⟨h, hk⟩
  · exact Or.inl h
  · exact Or.inr ⟨hk, (Option.some.inj h).symm⟩

theorem takeSlot_result : (A.takeSlot P os c z i s).1 = 0 ∨
    (A.takeSlot P os c z i s).1 = c.slotAddr P z i := by
  unfold takeSlot
  by_cases h0 : (A.setSlot z i (some s)).freeCount z = 0
  · rw [if_pos h0]
    dsimp only
    split
    · exact Or.inr rfl
    · exact Or.inl rfl
  · rw [if_neg h0]
    exact Or.inr rfl

theorem alloc_gains (hs : A.Sound P os) (h0 : (A.alloc P os s).1 ≠ 0) :
    Gains P A s (A.alloc P os s) := by
  intro k n hk
  unfold alloc at *
  cases hc : Cls.ofSize s with
  | some c =>
    simp only [hc, allocZone] at h0 hk ⊢
    cases hl : A.lists c.freeHead with
    | nil =>
      simp only [hl] at h0
      exact absurd rfl h0
    | cons z rest =>
      have hz : z ∈ A.lists c.freeHead := first_mem hl
      simp only [hl] at h0 hk ⊢
      cases hi : A.leastFree z with
      | none =>
        simp only [hi] at h0
        exact absurd rfl h0
      | some i =>
        simp only [hi] at h0 hk ⊢
        refine (takeSlot_records hs hz hk).imp id ?_
        rintro ⟨rfl, rfl⟩
        exact ⟨h0, (takeSlot_result.resolve_left h0).symm, Or.inl rfl⟩
  | none =>
    have hbig := Cls.ofSize_none.mp hc
    simp only [hc, allocLarge] at h0 hk ⊢
    cases hf : A.fit s with
    | some b =>
      simp only [hf] at h0 hk ⊢
      rcases hs.ok.toWf.records_of_move_large (fit_some hf).1 Head.cls_large hk with
        ⟨h, -⟩ | ⟨-, rfl, hn⟩
      · exact Or.inl h
      · exact Or.inr ⟨h0, rfl, Or.inr ⟨hbig, b, hf, hn⟩⟩
    | none =>
      simp only [hf] at h0 hk ⊢
      cases hr : os.reply (wrap (48 + s)) with
      | none =>
        simp only [hr] at h0
        exact absurd rfl h0
      | some b =>
        simp only [hr] at h0 hk ⊢
        refine (records_of_addBlock (hs.backed.fresh hr) hk).imp id ?_
        rintro ⟨rfl, rfl⟩
        exact ⟨h0, rfl, Or.inl rfl⟩

/-- A call that returns NULL records nothing, unless it takes a last slot. -/
theorem Denied.records {r : AHeap × Os} (hd : A.Denied P os s r)
    (hno : ¬A.LastTaken P os s) (hk : r.1.Records k n) : A.Records k n := by
  cases hd with
  | size => exact hk
  | tiny => exact hk
  | small => exact records_of_addZone hk
  | block => exact records_of_addZone (records_of_addZone (records_of_init hk))
  | empty => exact hk
  | refill h hi hc hl hleast h0 hr =>
    exact absurd ⟨_, _, _, _, fun e => h (Or.inl e), hi, hc, hl, hleast, h0, hr⟩ hno
  | large => exact hk

/-- **A call of `malloc`** records the cell it returns, and no other when it does not lose the
last slot of a zone. -/
theorem malloc_gains (hP : ValidPage P) (hs : A.Sound P os) (hno : ¬A.LastTaken P os s) :
    Gains P A s (A.malloc P os s) := by
  intro k n hk
  by_cases h0 : (A.malloc P os s).1 = 0
  · exact Or.inl ((denied_of_null hP hs h0).records hno hk)
  · have hsize : ¬(s = 0 ∨ ptrdiffMax < s) := by
      intro h
      rw [malloc, if_pos h] at h0
      exact h0 rfl
    have hs₁ := (ready_sound hP hs).1
    have hready : A.malloc P os s = if (A.ready P os).1 then
        (A.ready P os).2.1.alloc P (A.ready P os).2.2 s else (0, (A.ready P os).2) := by
      simp only [malloc, if_neg hsize]
    rw [hready] at h0 hk ⊢
    by_cases hr : (A.ready P os).1 = true
    · rw [if_pos hr] at h0 hk ⊢
      exact (alloc_gains hs₁ h0 k n hk).imp ready_records fun h => ⟨h.1, h.2.1, ready_sized h.2.2⟩
    · rw [if_neg hr] at h0
      exact absurd rfl h0

/-! ## Resizing -/

/-- What the resizing `r` of `k` to `s` bytes records: in place, everything as before; otherwise
the cell of the pointer it returns instead of `k`. -/
def Moves (P : Nat) (A : AHeap) (k : Cell) (s : Nat) (r : Nat × AHeap × Os) : Prop :=
  (s ≤ A.cap k ∧ r.1 = k.addr P ∧ r.2.1 = A) ∨ A.cap k < s ∧
    ∀ k' n, r.2.1.Records k' n → A.Records k' n ∧ (r.1 ≠ 0 → k' ≠ k) ∨
      r.1 ≠ 0 ∧ k'.addr P = r.1 ∧ A.Sized s n

/-- **A resizing** records the cell it returns, and no other when it does not lose the last slot
of a zone. -/
theorem realloc_gains (hP : ValidPage P) (hs : A.Sound P os) (hk : A.Holds k)
    (hno : A.cap k < s → ¬A.LastTaken P os s) : Moves P A k s (A.realloc P os k s) := by
  unfold realloc Moves
  by_cases hfit : s ≤ A.cap k
  · rw [if_pos hfit]
    exact Or.inl ⟨hfit, rfl, rfl⟩
  · rw [if_neg hfit]
    have hlt : A.cap k < s := by omega
    have hg : Gains P A s (A.malloc P os s) := malloc_gains hP hs (hno hlt)
    obtain ⟨h1, g1, -⟩ := malloc_serves (s := s) hP hs
    generalize A.malloc P os s = r at *
    refine Or.inr ⟨hlt, fun k' n hk' => ?_⟩
    unfold replace at hk' ⊢
    by_cases h0 : r.1 = 0
    · rw [if_pos h0] at hk' ⊢
      exact Or.inl ⟨(hg k' n hk').resolve_right fun h => h.1 h0, fun h => absurd h0 h⟩
    · rw [if_neg h0] at hk' ⊢
      obtain ⟨hne, hrec⟩ := free_records h1 (g1.held hk) hk'
      exact (hg k' n hrec).imp (fun h => ⟨h, fun _ => hne⟩) id

/-! ## Runs without failures -/

/-- **A last slot is lost** only when an `mmap` fails: that of the zone to take its zone's place
(`malloc.c:152-153`). -/
theorem not_lastTaken (hs : A.Sound P os) (hu : (A.malloc P os s).2.2.Unrefused) :
    ¬A.LastTaken P os s := by
  rintro ⟨c, z, i, rest, h0, hi, hc, hl, hleast, hcount, hr⟩
  have hsize : ¬(s = 0 ∨ ptrdiffMax < s) := by
    have := Cls.ofSize_some hc
    simp only [ptrdiffMax]
    cases c <;> simp only [Cls.size] at this <;> omega
  rw [(Denied.refill hsize hi hc hl hleast hcount hr).malloc hs] at hu
  exact hu.granted hr

/-- A resizing of a run without failures loses no slot, as its `malloc` does not. -/
theorem not_lastTaken_realloc (hP : ValidPage P) (hs : A.Sound P os) (hk : A.Holds k)
    (hu : (A.realloc P os k s).2.2.Unrefused) (hlt : A.cap k < s) : ¬A.LastTaken P os s := by
  unfold realloc at hu
  rw [if_neg (by omega)] at hu
  exact not_lastTaken hs (hu.of_since (replace_since hk (malloc_serves hP hs)))

end AHeap

end FtMalloc
