import FtMalloc.Source.Bonus

/-!
# The addresses `free` and `realloc` read (`bonus/src/malloc_bonus.c:293-344`)

The bonus `free` and `realloc` decode the word before the pointer they are given. Here the two
functions run beside a list of the addresses they read while they do, in order; the sections they
enter afterwards run as they are (`call`) and record nothing.

Results: `free_erases`, `realloc_erases`: without the list, the functions are those of
`Source/Bonus.lean`. `Records` says that a program only adds to the list.
-/

namespace FtMalloc

open Lib

namespace Bonus

/-- The bonus allocator and the addresses read so far, in order. -/
structure Reader where
  state : BonusWorld
  reads : List Nat

namespace Reads

/-- A function whose reads are recorded. -/
abbrev R (α : Type) := Prog Reader α

variable {α β : Type}

/-- A call that records nothing: `malloc` and the critical sections, which the guards of `free` come
before. -/
def call (x : B α) : R α := fun s => (x s.state).map fun r => (r.1, ⟨r.2, s.reads⟩)

/-- Record an address. -/
def record (a : Nat) : R Unit := Prog.modify fun s => { s with reads := s.reads ++ [a] }

/-- Load an `n`-byte unsigned number. -/
def load (n a : Nat) : R Nat := do
  record a
  call (lift (FtMalloc.load n a))

/-- Load an `int`. -/
def loadInt (a : Nat) : R Int := do
  record a
  call (lift (FtMalloc.loadInt a))

/-- `META_IS_ZONE(meta) ? META_ZONE(meta)->type : ((block_t *)meta)->type`
(`malloc_bonus.c:307`). -/
def headerType (word : Nat) : R Int :=
  if metaIsZone word then loadInt (metaZone word + ZoneT.type) else loadInt (word + BlockT.type)

/-- `ZONE_BLOCK_SIZE(z)`. -/
def zoneBlockSize (zone : Nat) : R Nat := do
  let t ← loadInt (zone + ZoneT.type)
  pure (if t = tinyBlock then tinyBlockSize else smallBlockSize)

/-- `current_size` of `realloc` (`malloc_bonus.c:337`, `344`). -/
def currentSize (word : Nat) : R Nat :=
  if metaIsZone word then zoneBlockSize (metaZone word) else load 8 (word + BlockT.size)

/-- `free` (`malloc_bonus.c:293-315`), with its reads recorded. -/
def free [Platform] (ptr : Nat) : R Unit := do
  if ptr = null then
    pure ()
  else
    let word ← load 8 (ptr - 8)
    if word < 0x100000000 then
      pure ()
    else
      let type ← headerType word
      if type ≠ tinyBlock ∧ type ≠ smallBlock ∧ type ≠ largeBlock then pure ()
      else call (freeSection type ptr)

/-- `realloc` (`malloc_bonus.c:317-365`), with its reads recorded up to the comparison of the
sizes. -/
def realloc [Platform] (ptr size : Nat) : R Nat := do
  if ptr = null then
    call (malloc size)
  else if size = 0 then
    free ptr
    pure null
  else
    let word ← load 8 (ptr - 8)
    let oldType ← headerType word
    let current ← currentSize word
    if size ≤ current then
      pure ptr
    else
      let new ← call (allocSection size)
      if new = null then
        pure null
      else
        call (lift (ftMemcpy new ptr current))
        call (freeSection oldType ptr)
        pure new

/-! ## Without the list -/

/-- `x` does what `y` does. -/
def Erases (x : R α) (y : B α) : Prop :=
  ∀ s, (x s).map (fun r => (r.1, r.2.state)) = y s.state

variable {x : R α} {y : B α} {f : α → R β} {g : α → B β} {s s' : Reader} {a n word : Nat} {v : α}

theorem erases_pure (v : α) : Erases (pure v) (pure v) := fun _ => rfl

theorem erases_call (y : B α) : Erases (call y) y := fun s => by
  unfold call
  cases y s.state <;> rfl

theorem Erases.bind (hx : Erases x y) (hf : ∀ v, Erases (f v) (g v)) :
    Erases (x >>= f) (y >>= g) := fun s => by
  have h := hx s
  rw [Prog.bind_run, Prog.bind_run, ← h]
  cases x s with
  | none => rfl
  | some r => exact hf r.1 r.2

theorem Erases.ite {c : Prop} [Decidable c] {x' : R α} {y' : B α} (hx : Erases x y)
    (hx' : Erases x' y') : Erases (if c then x else x') (if c then y else y') := by
  split
  · exact hx
  · exact hx'

theorem load_erases : Erases (load n a) (lift (FtMalloc.load n a)) := fun s =>
  erases_call _ ⟨s.state, s.reads ++ [a]⟩

theorem loadInt_erases : Erases (loadInt a) (lift (FtMalloc.loadInt a)) := fun s =>
  erases_call _ ⟨s.state, s.reads ++ [a]⟩

theorem lift_ite {c : Prop} [Decidable c] (u v : C α) :
    lift (if c then u else v) = if c then lift u else lift v := by
  split <;> rfl

theorem lift_bind (u : C α) (k : α → C β) : lift (u >>= k) = lift u >>= fun v => lift (k v) := by
  funext W
  change ((u >>= k) W.world).map _ = (lift u W).bind _
  rw [Prog.bind_run]
  unfold lift
  cases u W.world <;> rfl

theorem headerType_erases : Erases (headerType word) (lift (Bonus.headerType word)) := by
  unfold headerType Bonus.headerType
  rw [lift_ite]
  exact loadInt_erases.ite loadInt_erases

theorem currentSize_erases : Erases (currentSize word) (lift (FtMalloc.currentSize word)) := by
  unfold currentSize FtMalloc.currentSize zoneBlockSize FtMalloc.zoneBlockSize
  rw [lift_ite, lift_bind]
  exact Erases.ite (loadInt_erases.bind fun _ => erases_pure _) load_erases

/-- **`free`** without the list. -/
theorem free_erases [Platform] (p : Nat) : Erases (free p) (Bonus.free p) := by
  unfold free Bonus.free
  refine (erases_pure _).ite (load_erases.bind fun word => (erases_pure _).ite ?_)
  exact headerType_erases.bind fun type => (erases_pure _).ite (erases_call _)

/-- **`realloc`** without the list. -/
theorem realloc_erases [Platform]
    (p size : Nat) : Erases (realloc p size) (Bonus.realloc p size) := by
  unfold realloc Bonus.realloc
  refine (erases_call _).ite (Erases.ite ((free_erases p).bind fun _ => erases_pure _) ?_)
  refine load_erases.bind fun word => headerType_erases.bind fun oldType =>
    currentSize_erases.bind fun current => (erases_pure _).ite ?_
  refine (erases_call _).bind fun new => (erases_pure _).ite ?_
  exact (erases_call _).bind fun _ => (erases_call _).bind fun _ => erases_pure _

/-! ## The list grows -/

/-- The program adds to the list and takes nothing from it. -/
def Records (x : R α) : Prop := ∀ s v s', x s = some (v, s') → s.reads <+: s'.reads

theorem records_pure (v : α) : Records (pure v : R α) := fun s _ _ h => by
  cases h
  exact List.prefix_rfl

theorem records_call (y : B α) : Records (call y) := fun s v s' h => by
  obtain ⟨r, -, hr⟩ := Option.map_eq_some_iff.mp h
  cases hr
  exact List.prefix_rfl

theorem Records.bind (hx : Records x) (hf : ∀ v, Records (f v)) : Records (x >>= f) := by
  intro s v s'' h
  obtain ⟨u, s', h1, h2⟩ := Prog.bind_eq_some.mp h
  exact (hx _ _ _ h1).trans (hf u _ _ _ h2)

theorem Records.ite {c : Prop} [Decidable c] {x' : R α} (hx : Records x) (hx' : Records x') :
    Records (if c then x else x') := by
  split
  · exact hx
  · exact hx'

theorem record_records : Records (record a) := fun s _ _ h => by
  cases h
  exact List.prefix_append _ _

theorem load_records : Records (load n a) := record_records.bind fun _ => records_call _

theorem loadInt_records : Records (loadInt a) := record_records.bind fun _ => records_call _

theorem currentSize_records : Records (currentSize word) :=
  Records.ite (loadInt_records.bind fun _ => records_pure _) load_records

/-- A load that returns is on the list. -/
theorem loadInt_run {v : Int} (h : loadInt a s = some (v, s')) : s'.reads = s.reads ++ [a] := by
  obtain ⟨r, -, hr⟩ := Option.map_eq_some_iff.mp h
  cases hr
  rfl

end Reads

end Bonus

end FtMalloc
