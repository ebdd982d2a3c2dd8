import FtMalloc.Results.Integrity
import FtMalloc.Run.Bonus

/-!
# Large blocks of the bonus allocator (`bonus/src/malloc_bonus.c:90-103, 178-200, 317-365`)

`create_block` maps `sizeof(block_t) + sizeof(void *) + size` bytes, a `size_t` sum. `malloc`
rejects sizes above `PTRDIFF_MAX` before it gets there, `realloc` goes to `alloc_block` without the
test.

Results:
* `sizes_hold`: in every run whose mappings do not wrap, every large block has the mapping its size
  needs, and every live allocation has its bytes.
* `sizes_wrap`: a resizing to `2 ^ 64 - 1` bytes returns a block of one page.
-/

namespace FtMalloc

open Lib

/-- Every large block was mapped with at least the bytes of its header and of its size. -/
def World.Covered (w : World) : Prop :=
  ∀ h : Head, h.cls = none → ∀ b ∈ w.nodes h, ∃ r ∈ w.os.regions, r.base = b ∧
    BlockT.sizeof + 8 + ld w.mem 8 (b + BlockT.size) ≤ r.len

/-- The large blocks are covered, and the requested bytes of each live allocation are mapped. -/
structure Config.SizesHold (c : Config BonusWorld) : Prop where
  covered : c.state.world.Covered
  mapped : ∀ x ∈ c.live, c.state.world.os.Mapped x.ptr x.size

variable {P : Nat} {w : World} {A : AHeap} {c : Config BonusWorld}

theorem Rep.covered (hr : Rep P w A) : w.Covered := by
  intro h hc b hb
  rw [hr.nodes_eq] at hb
  have hreg := hr.backed.region hb
  rw [AHeap.len_of_large hc] at hreg
  refine ⟨_, hreg, rfl, ?_⟩
  rw [(hr.block hc hb).1.size]

theorem BonusInv.sizesHold (hP : ValidPage P) (hI : BonusInv P c A) : c.SizesHold := by
  have hr : Rep P c.state.world A := hI.inv.rep
  refine ⟨hr.covered, fun x hx => ?_⟩
  obtain ⟨k, hk, hkx, hsx⟩ := hI.inv.owned.cell x hx
  obtain ⟨r, hreg, -, h1, h2⟩ := hr.cell_region hP (hr.wf.hasCell hk)
  have hle := hr.backed.system.le_limit r
  exact Os.mapped_of_region hreg (by omega) (by omega)

/-- **Sizes.** In a run none of whose resizings gets a mapping of a wrapped length, every large
block has the bytes its size needs and every live allocation has the bytes requested. -/
theorem sizes_hold [Platform] (hP : ValidPage P) {m : Mem} {answers : List (Option Nat)}
    {t : List (Op × Nat)} (hrun : RunIn bonus Unwrapped ⟨BonusWorld.init P m answers, []⟩ t c) :
    c.SizesHold := by
  obtain ⟨A, hI⟩ := Bonus.run_inv hP hrun
  exact hI.sizesHold hP

/-- A block is allocated and resized. -/
def resizeTo [Platform] (s : Nat) : Bonus.B Nat := do
  let p ← Bonus.malloc 1
  Bonus.realloc p s

/-- The run of `resizeTo`. -/
theorem resizeTo_run [Platform] {W W' : BonusWorld} {s q : Nat} {G : Config BonusWorld → Op → Prop}
    (hs : s < 2 ^ 64) (hrun : resizeTo s W = some (q, W')) (h0 : q ≠ null)
    (hG : ∀ c, G c (.malloc 1) ∧ ∀ p, G c (.realloc p s)) :
    ∃ t c, RunIn bonus G ⟨W, []⟩ t c ∧ c.state = W' ∧ ⟨q, s⟩ ∈ c.live := by
  obtain ⟨p, W₁, h1, h2⟩ := Prog.bind_eq_some.mp hrun
  have hmalloc : Step bonus ⟨W, []⟩ (.malloc 1) p ⟨W₁, (Op.malloc 1).after true [] p⟩ :=
    ⟨valid_malloc (by decide), h1, rfl⟩
  have hvalid : (Op.realloc p s).Valid ((Op.malloc 1).after true [] p) := by
    refine ⟨hs, ?_⟩
    by_cases hp : p = null
    · exact Or.inl hp
    · refine Or.inr ⟨⟨p, 1⟩, ?_, rfl⟩
      simp [Op.after, hp]
  have hrealloc : Step bonus ⟨W₁, (Op.malloc 1).after true [] p⟩ (.realloc p s) q
      ⟨W', (Op.realloc p s).after true ((Op.malloc 1).after true [] p) q⟩ := ⟨hvalid, h2, rfl⟩
  refine ⟨_, _, (RunIn.nil.snoc (hG _).1 hmalloc).snoc ((hG _).2 p) hrealloc, rfl, ?_⟩
  simp [Op.after, h0]

theorem sizes_hold_sample : ∃ t c, RunIn bonus Unwrapped
    ⟨BonusWorld.init 4096 (fun _ => 0) sampleAnswers, []⟩ t c ∧ ⟨1048624, 2000⟩ ∈ c.live ∧
    c.SizesHold := by
  have heval : ((resizeTo 2000) (BonusWorld.init 4096 (fun _ => 0) sampleAnswers)).map (·.1) =
      some 1048624 := by decide +kernel
  obtain ⟨⟨q, W'⟩, hrun, rfl⟩ := Option.map_eq_some_iff.mp heval
  have hguard : ∀ c, Unwrapped c (.malloc 1) ∧ ∀ p, Unwrapped c (.realloc p 2000) := by
    refine fun c => ⟨fun _ _ he => ?_, fun p _ _ he _ => ?_⟩
    · cases he
    · cases he
      exact Or.inl (by decide)
  obtain ⟨t, c, hc, -, hlive⟩ := resizeTo_run (by decide) hrun (by decide) hguard
  exact ⟨t, c, hc, hlive, sizes_hold validPage_4096 hc⟩

/-- Resized to `2 ^ 64 - 1` bytes, a block gets a mapping of 47 bytes. -/
theorem sizes_wrap : ¬∀ m answers t c, Run bonus ⟨BonusWorld.init 4096 m answers, []⟩ t c →
    c.SizesHold := by
  intro h
  have heval : ((resizeTo (2 ^ 64 - 1)) (BonusWorld.init 4096 (fun _ => 0) sampleAnswers)).map
      (fun r => (r.1, decide (r.2.world.os.Mapped r.1 (2 ^ 64 - 1)))) = some (1048624, false) := by
    decide +kernel
  obtain ⟨⟨q, W'⟩, hrun, hq⟩ := Option.map_eq_some_iff.mp heval
  obtain ⟨rfl, hmapped⟩ := Prod.mk.inj hq
  obtain ⟨t, c, hc, rfl, hlive⟩ := resizeTo_run (G := fun _ _ => True) (by decide) hrun (by decide)
    fun _ => ⟨trivial, fun _ => trivial⟩
  exact of_decide_eq_false hmapped ((h _ _ t c hc).mapped _ hlive)

end FtMalloc
