import FtMalloc.Run.Interleaving

/-!
# The sequential run behind an interleaving

The sections of a call are calls of the sequential allocator of `malloc.c`: a resizing that moves is
a `malloc`, a write for each byte copied and a `free` (`Pc.acts`). In the order in which they happen
they are a run of one client, which ends where the threads are, for addresses from `2 ^ 32` on
(`Os.High`): below, the bonus `free` does nothing while its `realloc` does release the old block
(`malloc_bonus.c:300-307`, `:361-363`). The sizes are up to `PTRDIFF_MAX` (`Op.InRange`), as
`malloc.c` refuses a larger one.

Only the setup is not a call of its own: `malloc` of `malloc.c` sets up and allocates at once, while
in the bonus allocator other threads may come between the two. `Caught` is the difference.

Results:
* `exec_acts`: one step of a call, as calls of the sequential allocator.
* `Threads.History.sequential`: an interleaving, as a run of one client.
-/

namespace FtMalloc

open Lib Bonus

variable {P : Nat} {A A' A₀ : AHeap} {W W' : BonusWorld} {w w' : World} {live : List Alloc}
  {k k' : Cell} {p q s : Nat} {op : Op} {before : Mem} {a : Activity} {o : Next} {t t' u : Thread}
  {x : Alloc} {c c' : Config World} {l l' : List (Op × Nat)}

/-! ## Runs, one after the other -/

theorem Run.single {σ : Type} {api : Api σ} {c c' : Config σ} (hs : FtMalloc.Step api c op q c') :
    Run api c [(op, q)] c' :=
  .snoc .nil trivial hs

theorem loadByte_eq {b : Byte} (h : loadByte p w = some (b, w')) : b = w.mem p ∧ w' = w := by
  unfold loadByte at h
  split at h
  · cases h
    exact ⟨rfl, rfl⟩
  · cases h

theorem storeByte_eq {b : Byte} {r : Unit} (h : storeByte p b w = some (r, w')) :
    w'.mem = put w.mem p b := by
  unfold storeByte at h
  split at h
  · cases h
    rfl
  · cases h

/-! ## What a step does -/

/-- The calls of the sequential allocator that a step of a call amounts to. -/
def Bonus.Pc.acts (W : BonusWorld) : Pc → Next → List (Op × Nat)
  | .store a b, _ => [(.write a b, null)]
  | .setup s, .done q => [(.malloc s, q)]
  | .alloc s, .done q => [(.malloc s, q)]
  | .freeBlock p _, _ => [(.free p, null)]
  | .header p s, .done q => [(.realloc p s, q)]
  | .grow _ s _ _, .done q => [(.malloc s, q)]
  | .grow _ s _ _, .go (.copy _ _ _ _ new) => [(.malloc s, new)]
  | .copy p _ _ current new, _ =>
    (List.range current).map fun j => (.write (new + j) (W.world.mem (p + j)), null)
  | .release p _ _ _, _ => [(.free p, null)]
  | _, _ => []

/-- The heap of the sequential run: the threads' own, or the one before the setup when nothing was
allocated since. -/
def Caught (w w' : World) : Prop :=
  w = w' ∨ w.heap.initialized = 0 ∧ w'.heap.initialized ≠ 0 ∧ ensureSetup w = some (0, w')

theorem ensureSetup_skip (hi : w.heap.initialized ≠ 0) : ensureSetup w = some (0, w) :=
  Prog.bind_to rfl (Prog.if_false_run hi rfl)

theorem Rep.initialized_ne (hr : Rep P w A) : w.heap.initialized ≠ 0 ↔ A.initialized = true := by
  rw [hr.flag]
  split
  · simp [*]
  · simp [*]

/-- Once something is allocated, the two heaps are one: the sequential client has called `malloc`,
and so it has set up. -/
theorem Caught.eq (hc : Caught c.state w) (hI : Inv P c A) (hx : x ∈ c.live) : c.state = w := by
  rcases hc with h | ⟨h0, -, -⟩
  · exact h
  · obtain ⟨k, hk, -⟩ := hI.owned.cell x hx
    exact absurd h0 (hI.rep.initialized_ne.mpr (hI.ok.initialized_of_holds hk))

/-- A setup that succeeds leaves the sequential heap behind, until its client calls `malloc`. -/
theorem Caught.setup (hc : Caught w w') {w'' : World} (hrun : ensureSetup w' = some (0, w''))
    (hi : w''.heap.initialized ≠ 0) : Caught w w'' := by
  have hskip : w'.heap.initialized ≠ 0 → w'' = w' := fun h =>
    (Prod.mk.inj (Option.some.inj (hrun.symm.trans (ensureSetup_skip h)))).2
  rcases hc with rfl | ⟨h0, h1, hset⟩
  · by_cases h0 : w.heap.initialized = 0
    · exact Or.inr ⟨h0, hi, hrun⟩
    · exact Or.inl (hskip h0).symm
  · rw [hskip h1]
    exact Or.inr ⟨h0, h1, hset⟩

/-- `malloc` of `malloc.c` in the heap of the sequential run does its setup, if that is still to
come, and then the section of the allocation. -/
theorem Caught.malloc [Platform]
    (hc : Caught w w') (hI : HeapInv P A W) (hw : W.world = w') (hP : ValidPage P)
    (h1 : 1 ≤ s) (h2 : s ≤ ptrdiffMax) (hi : w'.heap.initialized ≠ 0) {w'' : World}
    (hrun : Bonus.allocBlock s w' = some (q, w'')) : FtMalloc.malloc s w = some (q, w'') := by
  subst hw
  rw [allocBlock_eq hP hI.rep hI.ok] at hrun
  rcases hc with rfl | ⟨h0, -, hset⟩
  · rwa [malloc_initialized (by omega) hi]
  · exact Prog.if_false_run (by omega) (Prog.bind_to hset (Prog.if_false_run (by decide) hrun))

/-! ## What the threads own together -/

/-- The allocations after a step of `t`: what it owns now, and what others own. -/
def Carries (t : Thread) (L : List Alloc) (t' : Thread) (L' : List Alloc) : Prop :=
  ∀ x, x ∈ L' ↔ x ∈ t'.owned ∨ x ∈ L ∧ ∀ y ∈ t.owned, y.ptr ≠ x.ptr

section Carries

variable {L : List Alloc} (hsub : ∀ x ∈ t.owned, x ∈ L) (hnd : (L.map Alloc.ptr).Nodup)

/-- Among live allocations, the pointers tell them apart, since no pointer is live twice. -/
theorem mem_of_ptr {L : List Alloc} (hnd : (L.map Alloc.ptr).Nodup) {y : Alloc} (hx : x ∈ L)
    (hy : y ∈ L) (h : y.ptr = x.ptr) : y = x :=
  List.inj_on_of_nodup_map hnd hy hx h

include hsub hnd

theorem mem_live_iff : x ∈ L ↔ x ∈ t.owned ∨ x ∈ L ∧ ∀ y ∈ t.owned, y.ptr ≠ x.ptr := by
  constructor
  · intro hx
    by_cases hmine : ∃ y ∈ t.owned, y.ptr = x.ptr
    · obtain ⟨y, hy, hyx⟩ := hmine
      exact Or.inl (mem_of_ptr hnd hx (hsub y hy) hyx ▸ hy)
    · exact Or.inr ⟨hx, fun y hy h => hmine ⟨y, hy, h⟩⟩
  · rintro (hx | hx)
    · exact hsub x hx
    · exact hx.1

theorem Carries.still (h : ∀ x, x ∈ t'.owned ↔ x ∈ t.owned) : Carries t L t' L := fun x => by
  rw [h]
  exact mem_live_iff hsub hnd

theorem mem_drop_live_iff (hp : ∃ y ∈ t.owned, y.ptr = p) :
    x ∈ drop L p ↔ x ∈ drop t.owned p ∨ x ∈ L ∧ ∀ y ∈ t.owned, y.ptr ≠ x.ptr := by
  obtain ⟨y, hy, rfl⟩ := hp
  rw [mem_drop, mem_drop]
  constructor
  · rintro ⟨hx, hne⟩
    exact ((mem_live_iff hsub hnd).mp hx).imp_left fun h => ⟨h, hne⟩
  · rintro (⟨hx, hne⟩ | ⟨hx, hothers⟩)
    · exact ⟨hsub x hx, hne⟩
    · exact ⟨hx, (hothers y hy).symm⟩

theorem Carries.add {y : Alloc} (h : t'.owned = y :: t.owned) : Carries t L t' (y :: L) :=
  fun x => by
    rw [h, List.mem_cons, List.mem_cons, or_assoc]
    exact or_congr_right (mem_live_iff hsub hnd)

theorem Carries.drop (hp : ∃ y ∈ t.owned, y.ptr = p) (h : t'.owned = drop t.owned p) :
    Carries t L t' (drop L p) := fun x => by
  rw [h]
  exact mem_drop_live_iff hsub hnd hp

theorem Carries.resize {y : Alloc} (hp : ∃ y ∈ t.owned, y.ptr = p)
    (h : t'.owned = y :: FtMalloc.drop t.owned p) : Carries t L t' (y :: FtMalloc.drop L p) :=
  fun x => by
    rw [h, List.mem_cons, List.mem_cons, or_assoc]
    exact or_congr_right (mem_drop_live_iff hsub hnd hp)

end Carries

/-! ## One step of a call -/

/-- A step of the thread, as calls of the client of the sequential allocator, which has the thread's
allocations and those of all others. -/
def Thread.Acts [Platform] (c : Config World) (t : Thread) (l : List (Op × Nat)) (W' : BonusWorld)
    (t' : Thread) : Prop :=
  ∃ c', Run mandatory c l c' ∧ Caught c'.state W'.world ∧ Carries t c.live t' c'.live

/-- A `malloc`, also one whose setup fails or whose block is refused. -/
theorem Thread.Acts.malloc [Platform] (hIc : Inv P c A) (hsub : ∀ x ∈ t.owned, x ∈ c.live)
    (hs : s ≤ ptrdiffMax) (hrun : FtMalloc.malloc s c.state = some (q, W'.world))
    (hown : t'.owned = if q = null then t.owned else ⟨q, s⟩ :: t.owned) :
    Thread.Acts c t [(.malloc s, q)] W' t' := by
  refine ⟨⟨W'.world, if q = null then c.live else ⟨q, s⟩ :: c.live⟩,
    Run.single ⟨valid_malloc (lt_of_le_ptrdiffMax hs), hrun, rfl⟩, Or.inl rfl, ?_⟩
  simp only
  split
  · rename_i h0
    rw [if_pos h0] at hown
    exact Carries.still hsub hIc.owned.nodup fun x => by rw [hown]
  · rename_i h0
    rw [if_neg h0] at hown
    exact Carries.add hsub hIc.owned.nodup hown

/-- A `free` of a pointer of the thread's. -/
theorem Thread.Acts.free [Platform] (hIc : Inv P c A) (hsub : ∀ x ∈ t.owned, x ∈ c.live)
    (hp : ∃ y ∈ t.owned, y.ptr = p) (h0 : p ≠ null)
    (hrun : freePtr p c.state = some ((), W'.world)) (hown : t'.owned = drop t.owned p) :
    Thread.Acts c t [(.free p, null)] W' t' := by
  obtain ⟨y, hy, hyp⟩ := hp
  have hfree : FtMalloc.free p c.state = some ((), W'.world) := Prog.if_false_run h0 hrun
  exact ⟨⟨W'.world, _⟩, Run.single ⟨Or.inr ⟨y, hsub y hy, hyp⟩, Prog.bind_to hfree rfl, rfl⟩,
    Or.inl rfl, Carries.drop hsub hIc.owned.nodup ⟨y, hy, hyp⟩ hown⟩

/-- The copy of a resizing (`malloc_bonus.c:359`), byte by byte, each one a write of the client to
its new block. -/
theorem copy_writes [Platform] {d n lo : Nat} {live : List Alloc} (hx : x ∈ live) (hd : x.ptr = d)
    (hn : lo + n ≤ x.size) (hsep : ∀ i j, i < lo + n → j < lo + n → p + i ≠ d + j)
    (hrun : Prog.forUp (fun i => do let b ← loadByte (p + i); storeByte (d + i) b) lo n w =
      some ((), w')) :
    Run mandatory ⟨w, live⟩
      ((List.range' lo n).map fun j => (.write (d + j) (w.mem (p + j)), null)) ⟨w', live⟩ := by
  induction n generalizing lo w with
  | zero =>
    obtain ⟨-, rfl⟩ := Prod.mk.inj (Option.some.inj hrun)
    exact .nil
  | succ n ih =>
    obtain ⟨u, w₁, hbody, hrest⟩ := Prog.bind_eq_some.mp hrun
    obtain ⟨b, w₂, hload, hstore⟩ := Prog.bind_eq_some.mp hbody
    obtain ⟨rfl, rfl⟩ := loadByte_eq hload
    have hmem := storeByte_eq hstore
    have hstep : FtMalloc.Step mandatory ⟨w₂, live⟩ (.write (d + lo) (w₂.mem (p + lo))) null
        ⟨w₁, live⟩ :=
      ⟨⟨x, hx, by omega, by omega⟩, Prog.bind_to hstore rfl, rfl⟩
    have hkept : ∀ j, j ∈ List.range' (lo + 1) n → w₁.mem (p + j) = w₂.mem (p + j) := by
      intro j hj
      rw [List.mem_range'_1] at hj
      rw [hmem]
      exact put_out (hsep j lo (by omega) (by omega))
    have htail := ih (by omega) (fun i j hi hj => hsep i j (by omega) (by omega)) hrest
    rw [List.map_congr_left fun j hj => by rw [hkept j hj]] at htail
    exact (Run.single hstep).append htail

/-- A step that is no call: the threads' heap is the client's still, or a setup ahead of it. -/
theorem Thread.Acts.still [Platform] (hIc : Inv P c A) (hsub : ∀ x ∈ t.owned, x ∈ c.live)
    (hc : Caught c.state W'.world) (hown : ∀ x, x ∈ t'.owned ↔ x ∈ t.owned) :
    Thread.Acts c t [] W' t' :=
  ⟨c, .nil, hc, Carries.still hsub hIc.owned.nodup hown⟩

theorem StoreDone.acts [Platform] {b : Nat} {v : Byte} (hs : StoreDone P A W live b v W')
    (hIc : Inv P c A₀) (hsub : ∀ x ∈ live, x ∈ c.live) (hv : (Op.write b v).Valid live)
    (hstate : c.state = W.world) :
    Thread.Acts c ⟨live, some ⟨.write b v, before, .store b v⟩⟩ [(.write b v, null)] W'
      ⟨live, none⟩ := by
  obtain ⟨x, hx, hin⟩ := hv
  obtain ⟨state, L⟩ := c
  obtain rfl : state = W.world := hstate
  exact ⟨⟨_, L⟩, Run.single ⟨⟨x, hsub x hx, hin⟩, Prog.bind_to hs.call rfl, rfl⟩, Or.inl rfl,
    Carries.still hsub hIc.owned.nodup fun _ => Iff.rfl⟩

/-- A setup that fails is a `malloc` that fails (`malloc_bonus.c:230-233`). -/
theorem SetupDone.acts [Platform] {e : Int} (hs : SetupDone P A W e A' W') (he : e ≠ 0)
    (hc : Caught c.state W.world) (hIc : Inv P c A₀) (hsub : ∀ x ∈ t.owned, x ∈ c.live)
    (hm : op.Mallocs s) (hown : t'.owned = t.owned) :
    Thread.Acts c t [(.malloc s, null)] W' t' := by
  have hrange := hm.2
  have hsame : c.state = W.world := by
    rcases hc with h | ⟨-, h1, -⟩
    · exact h
    · have hskip := hs.call.symm.trans (ensureSetup_skip h1)
      exact absurd (Prod.mk.inj (Option.some.inj hskip)).1 he
  refine Thread.Acts.malloc hIc hsub hm.2.2 ?_ (hown.trans (if_pos rfl).symm)
  rw [hsame]
  exact Prog.if_false_run (by omega) (Prog.bind_to hs.call (Prog.if_true_run he rfl))

/-- An allocation is a `malloc`: that of a call of `malloc`, or the one inside a `realloc` that
moves. -/
theorem AllocDone.acts [Platform] (hs : AllocDone P A W live s q A' W') (hP : ValidPage P)
    (hI : HeapInv P A W) (hc : Caught c.state W.world) (hIc : Inv P c A₀)
    (hsub : ∀ x ∈ t.owned, x ∈ c.live) (hrange : 1 ≤ s ∧ s ≤ ptrdiffMax)
    (hi : A.initialized = true)
    (hown : t'.owned = if q = null then t.owned else ⟨q, s⟩ :: t.owned) :
    Thread.Acts c t [(.malloc s, q)] W' t' :=
  Thread.Acts.malloc hIc hsub hrange.2 (hc.malloc hI rfl hP hrange.1 hrange.2
    (hI.rep.initialized_ne.mpr hi) hs.call) hown

/-- A resizing in place is a `realloc` that returns its argument. -/
theorem fits_acts [Platform] (hP : ValidPage P) (hI : HeapInv P A W) (hIc : Inv P c A₀)
    (hsub : ∀ x ∈ t.owned, x ∈ c.live) (hr : Resizing P A W.world.mem t.owned k s before)
    (hfit : s ≤ A.cap k) (hstate : c.state = W.world)
    (hown : t'.owned = ⟨k.addr P, s⟩ :: drop t.owned (k.addr P)) :
    Thread.Acts c t [(.realloc (k.addr P) s, k.addr P)] W t' := by
  obtain ⟨x, hx, hxk⟩ := hr.mine
  have h0 : k.addr P ≠ null := hI.rep.addr_ne_zero hP (hI.rep.wf.hasCell hr.held)
  have hlt : s < 2 ^ 64 := by
    have := hr.range.2
    omega
  have hsame : FtMalloc.realloc (k.addr P) s c.state = some (k.addr P, W.world) := by
    rw [hstate]
    exact realloc_measured hP hI.rep (hI.rep.wf.hasCell hr.held) (Prog.if_true_run hfit rfl)
  have hlive : (Op.realloc (k.addr P) s).after mandatory.zeroFrees c.live (k.addr P) =
      ⟨k.addr P, s⟩ :: drop c.live (k.addr P) := if_pos h0
  exact ⟨⟨W.world, ⟨k.addr P, s⟩ :: drop c.live (k.addr P)⟩,
    Run.single ⟨⟨hlt, Or.inr ⟨x, hsub x hx, hxk⟩⟩, hsame, hlive.symm⟩, Or.inl rfl,
    Carries.resize hsub hIc.owned.nodup ⟨x, hx, hxk⟩ hown⟩

/-- The copy is a write for every byte of the old block. -/
theorem CopyDone.acts [Platform] (hs : CopyDone P A W k k' W') (hP : ValidPage P)
    (hI : HeapInv P A W) (hIc : Inv P c A₀) (hv : Moving P A W.world.mem live k k' s before)
    (hsub : ∀ x ∈ ⟨k'.addr P, s⟩ :: live, x ∈ c.live) (hstate : c.state = W.world)
    (hown : ∀ x, x ∈ t'.owned ↔ x ∈ t.owned) (ht : t.owned = ⟨k'.addr P, s⟩ :: live) :
    Thread.Acts c t ((List.range (A.cap k)).map fun j =>
      (.write (k'.addr P + j) (W.world.mem (k.addr P + j)), null)) W' t' := by
  have hw := hI.rep.wf
  have hgrows := hv.grows
  have hfits := hv.fits
  have hcell' := hw.hasCell hv.target
  have hap := hI.rep.backed.cells_apart hP hw (hw.hasCell hv.held) hcell' hv.ne.symm
  have hloop := (Prog.if_false_run (hI.rep.addr_ne_zero hP hcell') rfl).symm.trans hs.call
  have hnew : ⟨k'.addr P, s⟩ ∈ c.live := hsub _ List.mem_cons_self
  have hn : 0 + A.cap k ≤ s := by omega
  have hsep : ∀ i j, i < 0 + A.cap k → j < 0 + A.cap k → k.addr P + i ≠ k'.addr P + j :=
    fun i j hi hj => by omega
  have hwrites := copy_writes hnew rfl hn hsep hloop
  obtain ⟨state, L⟩ := c
  obtain rfl : state = W.world := hstate
  rw [← List.range_eq_range'] at hwrites
  exact ⟨_, hwrites, Or.inl rfl, Carries.still (ht ▸ hsub) hIc.owned.nodup hown⟩

/-- **One step of a call**, as calls of the sequential allocator: a section is one call, the copy a
write for every byte, and the unlocked steps are none. -/
theorem exec_acts [Platform] (hP : ValidPage P) (hhigh : W.world.os.High) (hI : HeapInv P A W)
    (ht : ThreadInv P A W ⟨live, some a⟩) (hc : Caught c.state W.world) (hIc : Inv P c A₀)
    (hsub : ∀ x ∈ Thread.owned ⟨live, some a⟩, x ∈ c.live) (hop : a.op.InRange)
    (hrun : a.pc.exec W = some (o, W')) :
    Thread.Acts c ⟨live, some a⟩ (a.pc.acts W o) W' (.settle live a.op a.before o) := by
  have ho : Owned P A (a.pc.pending ++ live) := ht.owned
  have hlive : ∀ x ∈ live, x ∈ c.live := fun x hx => hsub x (List.mem_append_right _ hx)
  have hnull : ∀ x ∈ live, x.ptr ≠ null := fun x hx =>
    ho.ptr_ne_null hP hI.rep x (List.mem_append_right _ hx)
  have hstate : ∀ {x}, x ∈ live → c.state = W.world := fun hx => hc.eq hIc (hlive _ hx)
  have hmine : ∀ {k : Cell}, k.OwnedIn P live → c.state = W.world := fun ⟨_, hx, _⟩ => hstate hx
  obtain ⟨A', hd⟩ := exec_did hP hI ht hrun
  cases hd with
  | store hv hs =>
    have ⟨x, hx, _⟩ := hv
    exact hs.acts hIc hsub hv (hstate hx)
  | check hm hpc =>
    rcases hpc with rfl | ⟨rfl, -⟩
    · exact .still hIc hsub hc fun _ => Iff.rfl
    · exact .still hIc hsub hc fun _ => Iff.rfl
  | setup hm hs =>
    exact .still hIc hsub (hc.setup hs.call (hs.heap.rep.initialized_ne.mpr (hs.ready rfl)))
      fun _ => Iff.rfl
  | setupFailed hm hs he => exact hs.acts he hc hIc hsub hm (after_mallocs hm hnull)
  | alloc hm hi hs => exact hs.acts hP hI hc hIc hsub hm.2 hi (after_mallocs hm hnull)
  | skip hk _ hlow =>
    have hword := hI.rep.backed.word_high hP hhigh (hI.rep.wf.hasCell hk)
    omega
  | freeHeader => exact .still hIc hsub hc fun _ => Iff.rfl
  | freeBlock _ hm hs =>
    obtain ⟨x, hx, hxk⟩ := hm
    refine .free hIc hsub ⟨x, hx, hxk⟩ (hxk ▸ hnull x hx) ?_ rfl
    rw [hstate hx]
    exact hs.call
  | fits hr hfit =>
    have h0 := hI.rep.addr_ne_zero hP (hI.rep.wf.hasCell hr.held)
    exact fits_acts hP hI hIc hsub hr hfit (hmine hr.mine)
      ((after_realloc hr.range.1).trans (if_neg h0))
  | header => exact .still hIc hsub hc fun _ => Iff.rfl
  | growFailed hr _ hs =>
    exact hs.acts hP hI hc hIc hsub hop (hI.ok.initialized_of_holds hr.held)
      ((after_realloc hr.range.1).trans ((if_pos rfl).trans (if_pos rfl).symm))
  | grow hr _ hs hheld =>
    have h0 := hs.heap.rep.addr_ne_zero hP (hs.heap.rep.wf.hasCell hheld)
    exact hs.acts hP hI hc hIc hsub hop (hI.ok.initialized_of_holds hr.held)
      (if_neg h0).symm
  | copy hv hs => exact hs.acts hP hI hIc hv hsub (hmine hv.mine) (fun _ => Iff.rfl) rfl
  | @release k k' s _ _ _ hv _ hs =>
    obtain ⟨x, hx, hxk⟩ := hv.mine
    have hne : k'.addr P ≠ k.addr P := fun e => hv.ne (hI.sound.addr_inj hP hv.target hv.held e)
    have h0 := hI.rep.addr_ne_zero hP (hI.rep.wf.hasCell hv.target)
    refine .free hIc hsub ⟨x, List.mem_cons_of_mem _ hx, hxk⟩ (hxk ▸ hnull x hx) ?_ ?_
    · rw [hstate hx]
      exact hs.call
    · exact ((after_realloc hv.range.1).trans (if_neg h0)).trans (drop_cons_of_ne hne).symm

/-! ## Interleavings -/

/-- An interleaving, with the calls of the sequential allocator that its steps amount to, oldest
first. -/
inductive Threads.History [Platform] {ι : Type} [DecidableEq ι] (S₀ : Sys ι BonusWorld Thread) :
    List (Op × Nat) → Sys ι BonusWorld Thread → Prop
  | nil : History S₀ [] S₀
  | call {l : List (Op × Nat)} {S : Sys ι BonusWorld Thread} {i : ι} {live : List Alloc} {op : Op} :
      History S₀ l S → S.thread i = ⟨live, none⟩ → op.Valid live → op.InRange →
      History S₀ l (S.set i S.shared (.settle live op S.shared.world.mem op.start))
  | exec {l : List (Op × Nat)} {S : Sys ι BonusWorld Thread} {i : ι} {live : List Alloc}
      {a : Activity} {o : Next} {W' : BonusWorld} : History S₀ l S → S.thread i = ⟨live, some a⟩ →
      a.pc.exec S.shared = some (o, W') →
      History S₀ (l ++ a.pc.acts S.shared o) (S.set i W' (.settle live a.op a.before o))

variable {ι : Type} [DecidableEq ι] {S S₀ : Sys ι BonusWorld Thread} {m : Mem}
  {answers : List (Option Nat)}

theorem Threads.History.reach [Platform]
    (ht : Threads.History S₀ l S) : Sys.Reach (ThreadStepIn Op.InRange) S₀ S := by
  induction ht with
  | nil => exact .refl
  | call _ hi hv hr ih => exact ih.tail (.mk _ (hi ▸ .call hv hr))
  | exec _ hi hrun ih => exact ih.tail (.mk _ (hi ▸ .exec hrun))

/-- Every interleaving has its calls, in the order of its steps. -/
theorem Threads.exists_history [Platform]
    (hr : Sys.Reach (ThreadStepIn Op.InRange) S₀ S) : ∃ l, Threads.History S₀ l S := by
  induction hr with
  | refl => exact ⟨[], .nil⟩
  | @tail S₁ _ _ hs ih =>
    obtain ⟨l, ht⟩ := ih
    obtain ⟨i, hn⟩ := hs
    generalize hi : S₁.thread i = t at hn
    cases hn with
    | call hv hr => exact ⟨_, ht.call hi hv hr⟩
    | exec hrun => exact ⟨_, ht.exec hi hrun⟩

/-- Every call under way is one the machine allows, since it was when it began. -/
theorem calls_allowed [Platform] {R : Op → Prop} :
    Sys.Keeps (ThreadStepIn R) (fun (_ : Unit) _ => True)
      (fun _ _ t => ∀ a, t.call = some a → R a.op) (fun _ _ => True) where
  symm := fun _ => trivial
  step := by
    intro _ W t W' t' _ hj hn
    refine ⟨(), trivial, fun a ha => ?_, fun u _ hu => ⟨hu, trivial⟩⟩
    have hsettle : ∀ {live op before o}, Thread.settle live op before o = t' → R op → R a.op := by
      rintro live op before o rfl hop
      cases o with
      | go pc => exact Option.some.inj ha ▸ hop
      | done q => cases ha
    cases hn with
    | call _ hr => exact hsettle rfl hr
    | exec => exact hsettle rfl (hj _ rfl)

theorem Threads.History.inRange [Platform] (ht : Threads.History (Threads.init ι P m answers) l S)
    (i : ι) (a : Activity) (ha : (S.thread i).call = some a) : a.op.InRange := by
  have hinit : ∀ j a, ((Threads.init ι P m answers).thread j).call = some a → a.op.InRange :=
    fun _ _ h => by cases h
  obtain ⟨_, hh⟩ := calls_allowed.reach (g := ()) ⟨trivial, hinit, fun _ => trivial⟩ ht.reach
  exact hh.own i a ha

/-- A call that begins owns what its thread did, and has no block of its own yet. -/
theorem start_owned [Platform] (hr : op.InRange) (hnull : ∀ x ∈ live, x.ptr ≠ null) :
    (Thread.settle live op before op.start).owned = live := by
  cases hstart : op.start with
  | done q =>
    obtain ⟨rfl, rfl⟩ := start_done hr.inBounds hstart
    exact drop_of_not_mem hnull
  | go pc =>
    have hmalloc : ∀ {s pc}, startMalloc s = .go pc → pc.pending = [] := by
      intro s pc h
      unfold startMalloc at h
      split at h <;> cases h
      rfl
    have hpending : pc.pending = [] := by
      cases op with
      | malloc s => exact hmalloc hstart
      | free p =>
        simp only [Op.start, startFree] at hstart
        split at hstart <;> cases hstart
        rfl
      | realloc p s =>
        simp only [Op.start, startRealloc] at hstart
        split at hstart
        · exact hmalloc hstart
        · split at hstart <;> cases hstart <;> rfl
      | write b v =>
        cases hstart
        rfl
    exact congrArg (· ++ live) hpending

/-- The mandatory allocator keeps to high addresses along its runs, if the kernel proposes no
others. -/
theorem Run.high [Platform] (hP : ValidPage P) (hhigh : ∀ b, some b ∈ answers → 2 ^ 32 ≤ b)
    (hrun : Run mandatory ⟨World.init P m answers, []⟩ l c) :
    ∃ A, Inv P c A ∧ c.state.os.High := by
  refine hrun.invariant (I := fun c => ∃ A, Inv P c A ∧ c.state.os.High) ?_
    ⟨_, init_inv hP, fun r hr => absurd hr List.not_mem_nil, hhigh⟩
  rintro c op q c' ⟨A, hI, hh⟩ - hs
  obtain ⟨r, he, -, hos, hI'⟩ := step_effect hP hI hs
  exact ⟨_, hI', hos ▸ he.high hP hI.sound hh⟩

theorem Caught.high (hP : ValidPage P) (hI : Inv P c A) (hh : c.state.os.High)
    (hc : Caught c.state w) : w.os.High := by
  rcases hc with rfl | ⟨-, -, hset⟩
  · exact hh
  · obtain ⟨w', hrun, hos, -⟩ := ensureSetup_run hP hI.rep
    obtain ⟨-, rfl⟩ := Prod.mk.inj (Option.some.inj (hset.symm.trans hrun))
    rw [hos]
    exact hh.maps AHeap.ready_mapsOnly

/-- **The sequential run behind an interleaving**, by induction on its steps: each one prolongs the
run by the calls it amounts to. -/
theorem Threads.History.sequential [Platform]
    (hP : ValidPage P) (hhigh : ∀ b, some b ∈ answers → 2 ^ 32 ≤ b)
    (ht : Threads.History (Threads.init ι P m answers) l S) :
    ∃ c, Run mandatory ⟨World.init P m answers, []⟩ l c ∧ Caught c.state S.shared.world ∧
      ∀ x, x ∈ c.live ↔ ∃ i, x ∈ (S.thread i).owned := by
  induction ht with
  | nil => 
    refine ⟨_, .nil, Or.inl rfl, fun x => ⟨fun h => absurd h List.not_mem_nil, ?_⟩⟩
    rintro ⟨i, hx⟩
    exact absurd hx List.not_mem_nil
  | @call l S i live op ht hi hv hr ih =>
    obtain ⟨c, hrun, hc, hlive⟩ := ih
    obtain ⟨A, hI, hown, -⟩ := threads_inv ⟨hP, m, answers, Threads.reach_inBounds ht.reach⟩
    have hnull : ∀ x ∈ live, x.ptr ≠ null := by
      have howned := (hown i).owned.ptr_ne_null hP hI.rep
      rw [hi] at howned
      exact howned
    refine ⟨c, hrun, hc, fun x => (hlive x).trans (exists_congr fun j => ?_)⟩
    by_cases hj : j = i
    · subst hj
      rw [Sys.set_thread, start_owned hr hnull, hi]
      exact Iff.rfl
    · rw [Sys.set_thread_ne hj]
  | @exec l S i live a o W' ht hi hexec ih =>
    obtain ⟨c, hrun, hc, hlive⟩ := ih
    obtain ⟨A, hI, hown, hdisjoint⟩ := threads_inv ⟨hP, m, answers, Threads.reach_inBounds ht.reach⟩
    obtain ⟨A₀, hIc, hh⟩ := Run.high hP hhigh hrun
    have hti := hown i
    rw [hi] at hti
    obtain ⟨c', hrun', hc', hcarry⟩ := exec_acts hP (hc.high hP hIc hh) hI hti hc hIc
      (fun x hx => (hlive x).mpr ⟨i, hi ▸ hx⟩) (ht.inRange i a (hi ▸ rfl)) hexec
    refine ⟨c', hrun.append hrun', hc', fun x => (hcarry x).trans ⟨?_, ?_⟩⟩
    · rintro (hx | ⟨hx, hothers⟩)
      · exact ⟨i, by rwa [Sys.set_thread]⟩
      · obtain ⟨j, hj⟩ := (hlive x).mp hx
        have hji : j ≠ i := fun e => hothers x (hi ▸ e ▸ hj) rfl
        exact ⟨j, by rwa [Sys.set_thread_ne hji]⟩
    · rintro ⟨j, hj⟩
      by_cases hji : j = i
      · subst hji
        rw [Sys.set_thread] at hj
        exact Or.inl hj
      · rw [Sys.set_thread_ne hji] at hj
        exact Or.inr ⟨(hlive x).mpr ⟨j, hj⟩, fun y hy => hdisjoint (Ne.symm hji) y (hi ▸ hy) x hj⟩

end FtMalloc
