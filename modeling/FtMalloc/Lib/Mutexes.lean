import FtMalloc.Lib.Interleave

/-!
# Mutexes among threads

A mutex is held or not (`held`), and a thread keeps the list of those it has locked (`locks`). A
step of a thread leaves both as they are, locks a mutex that is free, or unlocks one of its own
(`LockStep`).

* `Balanced`: the held mutexes are those on the threads' lists, each on one list, once. Every
  `LockStep` keeps it (`Balanced.step`).
* `Balanced.exists_awake`: when a thread that waits holds nothing, somebody holds the mutex it waits
  for and does not wait.
-/

namespace FtMalloc.Lib

variable {ι σ τ μ : Type} [DecidableEq ι] [DecidableEq μ] {held : σ → μ → Bool}
  {locks : τ → List μ} {S : Sys ι σ τ} {s : σ} {t : τ} {i : ι} {m : μ}

/-- What a step of a thread does to the mutexes and to its list: it takes a free one, gives back one
of its own, or touches none. -/
inductive LockStep (h : μ → Bool) (l : List μ) : (μ → Bool) → List μ → Prop
  | keep : LockStep h l h l
  | lock (m : μ) : h m = false → LockStep h l (Function.update h m true) (m :: l)
  | unlock (m : μ) : m ∈ l → LockStep h l (Function.update h m false) (l.erase m)

/-- The held mutexes are those the threads have locked, each by one thread and once. -/
structure Balanced (held : σ → μ → Bool) (locks : τ → List μ) (S : Sys ι σ τ) : Prop where
  nodup : ∀ i, (locks (S.thread i)).Nodup
  taken : ∀ i, ∀ m ∈ locks (S.thread i), held S.shared m = true
  holder : ∀ m, held S.shared m = true → ∃ i, m ∈ locks (S.thread i)
  exclusive : ∀ i j m, m ∈ locks (S.thread i) → m ∈ locks (S.thread j) → i = j

namespace Balanced

/-- A thread that takes a free mutex. -/
theorem lock (hb : Balanced held locks S) (hfree : held S.shared m = false)
    (hs : held s = Function.update (held S.shared) m true)
    (ht : locks t = m :: locks (S.thread i)) : Balanced held locks (S.set i s t) := by
  have hnobody : ∀ j, m ∉ locks (S.thread j) := fun j hm => by
    rw [hb.taken j m hm] at hfree
    cases hfree
  have hmem : ∀ j m', m' ∈ locks ((S.set i s t).thread j) ↔
      m' ∈ locks (S.thread j) ∨ j = i ∧ m' = m := by
    intro j m'
    by_cases hj : j = i
    · subst hj
      rw [Sys.set_thread, ht, List.mem_cons]
      simp [or_comm]
    · rw [Sys.set_thread_ne hj]
      simp [hj]
  refine ⟨fun j => ?_, fun j m' hm => ?_, fun m' hm => ?_, fun j k m' hj hk => ?_⟩
  · by_cases hj : j = i
    · subst hj
      rw [Sys.set_thread, ht]
      exact List.nodup_cons.mpr ⟨hnobody j, hb.nodup j⟩
    · rw [Sys.set_thread_ne hj]
      exact hb.nodup j
  · change held s m' = true
    rw [hs]
    by_cases he : m' = m
    · rw [he, Function.update_self]
    · rw [Function.update_of_ne he]
      exact hb.taken j m' (((hmem j m').mp hm).resolve_right fun h => he h.2)
  · change held s m' = true at hm
    rw [hs] at hm
    by_cases he : m' = m
    · exact ⟨i, (hmem i m').mpr (Or.inr ⟨rfl, he⟩)⟩
    · rw [Function.update_of_ne he] at hm
      obtain ⟨j, hj⟩ := hb.holder m' hm
      exact ⟨j, (hmem j m').mpr (Or.inl hj)⟩
  · rcases (hmem j m').mp hj with hj | ⟨hji, he⟩
    · rcases (hmem k m').mp hk with hk | ⟨-, he⟩
      · exact hb.exclusive j k m' hj hk
      · exact absurd (he ▸ hj) (hnobody j)
    · rcases (hmem k m').mp hk with hk | ⟨hki, -⟩
      · exact absurd (he ▸ hk) (hnobody k)
      · exact hji.trans hki.symm

/-- A thread that gives back a mutex of its own. -/
theorem unlock (hb : Balanced held locks S) (hm : m ∈ locks (S.thread i))
    (hs : held s = Function.update (held S.shared) m false)
    (ht : locks t = (locks (S.thread i)).erase m) : Balanced held locks (S.set i s t) := by
  have hmem : ∀ j m', m' ∈ locks ((S.set i s t).thread j) ↔ m' ∈ locks (S.thread j) ∧ m' ≠ m := by
    intro j m'
    by_cases hj : j = i
    · subst hj
      rw [Sys.set_thread, ht, (hb.nodup j).mem_erase_iff, and_comm]
    · rw [Sys.set_thread_ne hj]
      refine ⟨fun h => ⟨h, fun he => hj ?_⟩, fun h => h.1⟩
      exact hb.exclusive j i m (he ▸ h) hm
  refine ⟨fun j => ?_, fun j m' hj => ?_, fun m' h => ?_, fun j k m' hj hk => ?_⟩
  · by_cases hj : j = i
    · subst hj
      rw [Sys.set_thread, ht]
      exact (hb.nodup j).erase m
    · rw [Sys.set_thread_ne hj]
      exact hb.nodup j
  · obtain ⟨h, hne⟩ := (hmem j m').mp hj
    change held s m' = true
    rw [hs, Function.update_of_ne hne]
    exact hb.taken j m' h
  · change held s m' = true at h
    rw [hs] at h
    by_cases he : m' = m
    · rw [he, Function.update_self] at h
      cases h
    · rw [Function.update_of_ne he] at h
      obtain ⟨j, hj⟩ := hb.holder m' h
      exact ⟨j, (hmem j m').mpr ⟨hj, he⟩⟩
  · exact hb.exclusive j k m' ((hmem j m').mp hj).1 ((hmem k m').mp hk).1

omit [DecidableEq μ] in
/-- A step that touches no mutex. -/
theorem keep (hb : Balanced held locks S) (hs : held s = held S.shared)
    (ht : locks t = locks (S.thread i)) : Balanced held locks (S.set i s t) := by
  have hlocks : ∀ j, locks ((S.set i s t).thread j) = locks (S.thread j) := by
    intro j
    by_cases hj : j = i
    · subst hj
      rw [Sys.set_thread, ht]
    · rw [Sys.set_thread_ne hj]
  refine ⟨fun j => ?_, fun j m hm => ?_, fun m hm => ?_, fun j k m hj hk => ?_⟩
  · rw [hlocks]
    exact hb.nodup j
  · rw [hlocks] at hm
    exact (congrFun hs m).trans (hb.taken j m hm)
  · obtain ⟨j, hj⟩ := hb.holder m ((congrFun hs m).symm.trans hm)
    exact ⟨j, by rwa [hlocks]⟩
  · rw [hlocks] at hj hk
    exact hb.exclusive j k m hj hk

/-- **One step** of one thread keeps the balance. -/
theorem step (hb : Balanced held locks S)
    (h : LockStep (held S.shared) (locks (S.thread i)) (held s) (locks t)) :
    Balanced held locks (S.set i s t) := by
  generalize hh : held s = h' at h
  generalize hl : locks t = l' at h
  cases h with
  | keep => exact hb.keep hh hl
  | lock m hfree => exact hb.lock hfree hh hl
  | unlock m hm => exact hb.unlock hm hh hl

omit [DecidableEq ι] [DecidableEq μ] in
/-- **No circle.** If those who wait hold nothing, whoever holds a mutex somebody waits for is
awake. -/
theorem exists_awake (hb : Balanced held locks S) (waits : τ → μ → Prop)
    (hw : ∀ j m, waits (S.thread j) m → locks (S.thread j) = []) (hheld : held S.shared m = true) :
    ∃ j, m ∈ locks (S.thread j) ∧ ∀ m', ¬waits (S.thread j) m' := by
  obtain ⟨j, hj⟩ := hb.holder m hheld
  refine ⟨j, hj, fun m' hwait => ?_⟩
  rw [hw j m' hwait] at hj
  exact absurd hj List.not_mem_nil

end Balanced

end FtMalloc.Lib
