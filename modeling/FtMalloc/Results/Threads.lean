import FtMalloc.Results.Integrity
import FtMalloc.Run.Interleaving

/-!
# Exclusive ownership among threads

`threads_exclusive`: in every state that some interleaving of the atomic steps of any number of
threads reaches, no two allocations that threads own overlap, each lies in a mapping that was not
unmapped, and a `realloc` that returns a block returns the bytes of the old one.
-/

namespace FtMalloc

open Lib Bonus

variable {P : Nat} {A : AHeap} {W : BonusWorld} {t : Thread} {live : List Alloc} {x y : Alloc}
  {ι : Type} [DecidableEq ι] {S : Sys ι BonusWorld Thread}

/-- Allocations of different pointers do not overlap. -/
theorem HeapInv.apart (hP : ValidPage P) (hI : HeapInv P A W) {live' : List Alloc}
    (ho : Owned P A live) (ho' : Owned P A live') (hx : x ∈ live) (hy : y ∈ live')
    (hne : x.ptr ≠ y.ptr) : x.Apart y := by
  obtain ⟨k, hk, hkx, hsx⟩ := ho.cell x hx
  obtain ⟨k', hk', hky, hsy⟩ := ho'.cell y hy
  have hkk : k ≠ k' := by
    rintro rfl
    exact hne (hkx.symm.trans hky)
  have hw := hI.rep.wf
  have hap := hI.rep.backed.cells_apart hP hw (hw.hasCell hk) (hw.hasCell hk') hkk
  unfold Alloc.Apart
  omega

/-- What a `realloc` returns. -/
theorem ThreadInv.realloc_bytes [Platform]
    (hP : ValidPage P) (hI : HeapInv P A W) (ht : ThreadInv P A W t)
    {a : Activity} {p s q : Nat} {W' : BonusWorld} (hc : t.call = some a)
    (hop : a.op = .realloc p s) (hp : p ≠ null) (hrun : a.pc.exec W = some (.done q, W'))
    (hq : q ≠ null) (hx : x ∈ t.live) (hxp : x.ptr = p) :
    ∀ j, j < min x.size s → W'.world.mem (q + j) = a.before (p + j) := by
  obtain ⟨live, call⟩ := t
  obtain rfl : call = some a := hc
  obtain ⟨o, W₁, A', hrun', -, hkept⟩ := exec_advances hP hI ht
  obtain ⟨rfl, rfl⟩ := Prod.mk.inj (Option.some.inj (hrun.symm.trans hrun'))
  obtain ⟨k, hk, haddr, hbytes⟩ := hkept q p s rfl hq hop hp
  obtain ⟨k', hk', haddr', hsize⟩ := ht.owned.cell x (List.mem_append_right _ hx)
  obtain rfl : k' = k := hI.sound.addr_inj hP hk' hk (haddr'.trans (hxp.trans haddr.symm))
  exact fun j hj => hbytes j (by omega)

/-- **Exclusive ownership.** Whatever the interleaving, the allocations of one thread do not
overlap each other, nor those of another thread; each lies in a mapping that is still in place; and
when a `realloc` of an owned block returns, what it returns starts with the bytes that the block had
when the call began. -/
theorem threads_exclusive [Platform] (hS : Threads.Reachable P S) :
    (∀ i, (S.thread i).owned.Pairwise Alloc.Apart) ∧
    (∀ i j, i ≠ j → ∀ x ∈ (S.thread i).owned, ∀ y ∈ (S.thread j).owned, x.Apart y) ∧
    (∀ i, ∀ x ∈ (S.thread i).owned, ∃ r ∈ Os.outstanding S.shared.world.os.log,
      r.base ≤ x.ptr ∧ x.ptr + x.size ≤ r.base + r.len) ∧
    ∀ i a p s q W', (S.thread i).call = some a → a.op = .realloc p s → p ≠ null →
      a.pc.exec S.shared = some (.done q, W') → q ≠ null →
      ∀ x ∈ (S.thread i).live, x.ptr = p →
        ∀ j, j < min x.size s → W'.world.mem (q + j) = a.before (p + j) := by
  obtain ⟨A, hI, hown, hdisjoint⟩ := threads_inv hS
  have hP := hS.1
  refine ⟨fun i => ?_, fun i j hij x hx y hy => ?_, fun i x hx => ?_, ?_⟩
  · have ho := (hown i).owned
    refine (List.pairwise_map.mp ho.nodup).imp_of_mem fun hx hy hne => ?_
    exact hI.apart hP ho ho hx hy hne
  · exact hI.apart hP (hown i).owned (hown j).owned hx hy (hdisjoint hij x hx y hy)
  · obtain ⟨k, hk, hkx, hsx⟩ := (hown i).owned.cell x hx
    obtain ⟨r, hreg, -, h1, h2⟩ := hI.rep.cell_region hP (hI.rep.wf.hasCell hk)
    exact ⟨r, hI.rep.backed.system.logged ▸ hreg, by omega, by omega⟩
  · intro i a p s q W' hc hop hp hrun hq x hx hxp
    exact (hown i).realloc_bytes hP hI hc hop hp hrun hq hx hxp

/-- A call of `malloc` that no other thread interrupts. -/
theorem Threads.Reachable.malloc [Platform]
    (hS : Threads.Reachable P S) {i : ι} {s q : Nat} {W' : BonusWorld}
    (hi : S.thread i = ⟨[], none⟩) (h1 : 1 ≤ s) (h2 : s ≤ ptrdiffMax) (h0 : q ≠ null)
    (hrun : Bonus.malloc s S.shared = some (q, W')) :
    Threads.Reachable P (S.set i W' ⟨[⟨q, s⟩], none⟩) := by
  obtain ⟨hP, m, answers, hreach⟩ := hS
  have hlive : (Op.malloc s).after bonus.zeroFrees [] q = [⟨q, s⟩] := if_neg h0
  have hs : Step bonus ⟨S.shared, []⟩ (.malloc s) q ⟨W', [⟨q, s⟩]⟩ :=
    ⟨valid_malloc (lt_of_le_ptrdiffMax h2), hrun, hlive.symm⟩
  exact ⟨hP, m, answers, hreach.trans (hs.reach ⟨h1, h2⟩ hi rfl)⟩

theorem threads_exclusive_sample : ∃ S : Sys Bool BonusWorld Thread, Threads.Reachable 4096 S ∧
    ⟨4997, 24⟩ ∈ (S.thread true).owned ∧ ⟨5069, 24⟩ ∈ (S.thread false).owned ∧
    (S.thread true).owned.Pairwise Alloc.Apart ∧
    ∀ x ∈ (S.thread true).owned, ∀ y ∈ (S.thread false).owned, x.Apart y := by
  have heval : ((do
      let p ← Bonus.malloc 24
      let q ← Bonus.malloc 24
      pure (p, q) : B (Nat × Nat)) (BonusWorld.init 4096 (fun _ => 0) sampleAnswers)).map (·.1) =
      some (4997, 5069) := by decide +kernel
  obtain ⟨⟨r, W₂⟩, hrun, rfl⟩ := Option.map_eq_some_iff.mp heval
  obtain ⟨p, W₁, h1, hrun⟩ := Prog.bind_eq_some.mp hrun
  obtain ⟨q, W₂, h2, hrun⟩ := Prog.bind_eq_some.mp hrun
  obtain ⟨hpq, -⟩ := Prod.mk.inj (Option.some.inj hrun)
  obtain ⟨rfl, rfl⟩ := Prod.mk.inj hpq
  have hS : Threads.Reachable 4096 (Threads.init Bool 4096 (fun _ => 0) sampleAnswers) :=
    ⟨validPage_4096, _, _, Relation.ReflTransGen.refl⟩
  have hS₁ := hS.malloc (i := true) rfl (by decide) (by decide) (by decide) h1
  have hS₂ := hS₁.malloc (i := false) rfl (by decide) (by decide) (by decide) h2
  have hall := threads_exclusive hS₂
  exact ⟨_, hS₂, List.mem_cons_self, List.mem_cons_self, hall.1 true,
    hall.2.1 true false (by decide)⟩

end FtMalloc
