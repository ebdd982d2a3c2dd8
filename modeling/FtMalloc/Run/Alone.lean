import FtMalloc.Run.Clients

/-!
# A program that no other interrupts

`Client.alone` takes a program from between two of its calls to its end, with no step of the others
in between: each call is the function of `malloc_bonus.c` (`bonus`), and each read is one of the
memory as it is then. It can be evaluated, where the interleavings of `ProcessStep` cannot.

Result: `Client.alone_reach`: the interleaving in which the others stand still is one of those of
`ProcessStep`. So programs that run one after the other reach a state that the theorems about
interleaved programs are about.
-/

namespace FtMalloc

open Lib Dialogue Bonus

variable {ι α : Type} [DecidableEq ι] {S : Sys ι BonusWorld (Process ι α)} {i : ι}
  {W W' : BonusWorld} {live live' : List Alloc} {client : Client α} {a : α} {op : Op}
  {tr : List (Op × Nat)} {k : Nat → Client α} {before : Mem} {o : Next} {q n : Nat}

variable [Platform]

/-- The rest of a program, from a moment at which it owns `live`: what it returns, and what it owns
then. -/
def Client.alone : List Alloc → Client α → B (α × List Alloc)
  | live, .ret a => pure (a, live)
  | live, .ask (.op op) k => do
    let q ← bonus.call op
    Client.alone (op.after bonus.zeroFrees live q) (k q)
  | live, .ask (.read b) k => do
    let c ← lift (loadByte b)
    Client.alone live (k c)

/-- The steps of a call, with none of the others in between. -/
theorem Next.process_reach (hrun : o.run n W = some (q, W')) :
    Sys.Reach ProcessStep (S.set i W (.resume i tr live op before k o))
      (S.set i W' (.resume i tr live op before k (.done q))) := by
  induction n generalizing o W with
  | zero =>
    cases o with
    | go pc => cases hrun
    | done q' =>
      obtain ⟨rfl, rfl⟩ := Prod.mk.inj (Option.some.inj hrun)
      exact Relation.ReflTransGen.refl
  | succ n ih =>
    cases o with
    | go pc =>
      obtain ⟨o, W₁, h1, h2⟩ := Prog.bind_eq_some.mp hrun
      have hexec : ProcessStep W (.resume i tr live op before k (.go pc)) W₁
          (.resume i tr live op before k o) := ProcessStep.exec (a := ⟨op, before, pc⟩) h1
      have hstep := Sys.Step.mk (S := S.set i W (.resume i tr live op before k (.go pc))) i
        (by rw [Sys.set_thread]; exact hexec)
      rw [Sys.set_set] at hstep
      exact Relation.ReflTransGen.head hstep (ih h2)
    | done q' =>
      obtain ⟨rfl, rfl⟩ := Prod.mk.inj (Option.some.inj hrun)
      exact Relation.ReflTransGen.refl

/-- A call of a program, from the request to the return. -/
theorem call_reach (hi : S.thread i = ⟨i, ⟨live, none⟩, .ask (.op op) k, tr⟩)
    (hrun : bonus.call op S.shared = some (q, W')) :
    Sys.Reach ProcessStep S (S.set i W'
      ⟨i, ⟨op.after bonus.zeroFrees live q, none⟩, k q, tr ++ [(op, q)]⟩) := by
  have hcall : ProcessStep S.shared (S.thread i) S.shared
      (.resume i tr live op S.shared.world.mem k op.start) := by
    rw [hi]
    exact ProcessStep.call
  rw [call_eq_run] at hrun
  exact Relation.ReflTransGen.head (Sys.Step.mk i hcall) (Next.process_reach hrun)

/-- **A program alone** is a run in which only its process takes steps, so what it computes can be
evaluated and then interleaved with the others. -/
theorem Client.alone_reach (hi : S.thread i = ⟨i, ⟨live, none⟩, client, tr⟩)
    (hrun : client.alone live S.shared = some ((a, live'), W')) :
    ∃ tr', Sys.Reach ProcessStep S (S.set i W' ⟨i, ⟨live', none⟩, .ret a, tr'⟩) := by
  induction client generalizing S live tr with
  | ret b =>
    obtain ⟨he, rfl⟩ := Prod.mk.inj (Option.some.inj hrun)
    obtain ⟨rfl, rfl⟩ := Prod.mk.inj he
    refine ⟨tr, ?_⟩
    rw [← hi, Sys.set_self]
  | ask e k ih =>
    cases e with
    | op op =>
      obtain ⟨q, W₁, hcall, hrest⟩ := Prog.bind_eq_some.mp hrun
      have hfirst := call_reach hi hcall
      obtain ⟨tr', hlast⟩ := ih q (S := S.set i W₁ _) Sys.set_thread hrest
      rw [Sys.set_set] at hlast
      exact ⟨tr', hfirst.trans hlast⟩
    | read b =>
      obtain ⟨c, W₁, hload, hrest⟩ := Prog.bind_eq_some.mp hrun
      have hread : ProcessStep S.shared (S.thread i) W₁ ⟨i, ⟨live, none⟩, k c, tr⟩ := by
        rw [hi]
        exact ProcessStep.read hload
      obtain ⟨tr', hlast⟩ := ih c (S := S.set i W₁ _) Sys.set_thread hrest
      rw [Sys.set_set] at hlast
      exact ⟨tr', Relation.ReflTransGen.head (Sys.Step.mk i hread) hlast⟩

end FtMalloc
