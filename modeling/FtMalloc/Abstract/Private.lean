import Mathlib.Data.List.Pairwise
import FtMalloc.Lib.Dialogue
import FtMalloc.Run.Client

/-!
# The heap as one client knows it

What `malloc`, `free` and `realloc` promise a client, with no word on how they are made: the
client's own blocks with their bytes, and the calls it has made. A new block is apart from the
client's others and has anything in it; `realloc` keeps the bytes that fit; every request may be
refused, and a refused one changes nothing.

Nothing here says that the client is alone, so that the promise can be kept to many clients at
once.

Results:
* `Client.meets_malloc`, `Client.meets_free`, `Client.meets_realloc`: what a client has to show for
  a call.
* `Client.meets_store`, `Client.meets_fetch`, `Client.meets_memset`: writing to a block, reading
  from it, filling it.
-/

namespace FtMalloc

open Lib Dialogue

/-- A block and what is in it: all that its owner knows of it. -/
structure Block where
  ptr : Nat
  bytes : List Byte
  deriving DecidableEq

/-- What a client does: a call (a write counts as one), or a read of its memory. -/
inductive Act
  | op (op : Op)
  | read (addr : Nat)

/-- What it gets for an action: the result of the call, or the byte. -/
abbrev Act.Answer : Act → Type
  | op _ => Nat
  | read _ => Byte

/-- A client program: it asks, and goes on by the answer. -/
abbrev Client (α : Type) := Dialogue Act Act.Answer α

namespace Client

/-- `malloc(size)`. -/
def malloc (size : Nat) : Client Nat := call (Act.op (.malloc size))

/-- `free(ptr)`. -/
def free (ptr : Nat) : Client Unit := do
  let _ ← call (Act.op (.free ptr))
  pure ()

/-- `realloc(ptr, size)`. -/
def realloc (ptr size : Nat) : Client Nat := call (Act.op (.realloc ptr size))

/-- `*addr = byte`. -/
def store (addr : Nat) (byte : Byte) : Client Unit := do
  let _ ← call (Act.op (.write addr byte))
  pure ()

/-- `*addr`. -/
def fetch (addr : Nat) : Client Byte := call (Act.read addr)

/-- `memset(ptr, byte, n)`. -/
def memset (ptr : Nat) (byte : Byte) (n : Nat) : Client Unit :=
  loop (fun j _ => store (ptr + j) byte) 0 n ()

end Client

/-! ## The contract -/

namespace Block

/-- The address is one of the block's. -/
def Has (b : Block) (a : Nat) : Prop := b.ptr ≤ a ∧ a < b.ptr + b.bytes.length

/-- The blocks are different and do not overlap, a block of no bytes included. -/
def Apart (b c : Block) : Prop :=
  b.ptr ≠ c.ptr ∧ (b.ptr + b.bytes.length ≤ c.ptr ∨ c.ptr + c.bytes.length ≤ b.ptr)

/-- The block after a write to the address `a`. -/
def write (a : Nat) (c : Byte) (b : Block) : Block :=
  if b.ptr ≤ a then ⟨b.ptr, b.bytes.set (a - b.ptr) c⟩ else b

@[simp] theorem write_ptr (a : Nat) (c : Byte) (b : Block) : (b.write a c).ptr = b.ptr := by
  unfold write
  split <;> rfl

@[simp] theorem write_length (a : Nat) (c : Byte) (b : Block) :
    (b.write a c).bytes.length = b.bytes.length := by
  unfold write
  split
  · exact List.length_set
  · rfl

theorem write_out {a : Nat} {c : Byte} {b : Block} (h : ¬b.Has a) : b.write a c = b := by
  unfold write
  split
  · unfold Has at h
    rw [List.set_eq_of_length_le (by omega)]
  · rfl

end Block

/-- The blocks without the one at `p`. -/
def Block.drop (bs : List Block) (p : Nat) : List Block := bs.filter fun b => b.ptr ≠ p

/-- What a client knows: its blocks, which are apart, and its calls with their results. -/
structure Private where
  blocks : List Block
  trace : List (Op × Nat)
  separate : blocks.Pairwise Block.Apart

/-- The request was refused: it asked for something and got NULL, the case the test counts as an
error. -/
def Op.refused : Op → Nat → Bool
  | malloc _, q => q = null
  | realloc _ _, q => q = null
  | _, _ => false

namespace Private

/-- The contents `bytes` at the address `q` are a block of `n` bytes apart from the blocks `old`. -/
def Grant (old : List Block) (n q : Nat) (bytes : List Byte) : Prop :=
  q ≠ null ∧ bytes.length = n ∧ ∀ b ∈ old, b.Apart ⟨q, bytes⟩

/-- The blocks after a call that returned `q`. -/
inductive Call (h : List Block) : Op → Nat → List Block → Prop
  | malloc {n q : Nat} {bytes : List Byte} :
      Grant h n q bytes → Call h (.malloc n) q (⟨q, bytes⟩ :: h)
  | refused {op : Op} : op.refused null → Call h op null h
  | free {p : Nat} : Call h (.free p) null (Block.drop h p)
  | renew {n q : Nat} {bytes : List Byte} :
      Grant h n q bytes → Call h (.realloc null n) q (⟨q, bytes⟩ :: h)
  | resize {b : Block} {n q : Nat} {bytes : List Byte} : b ∈ h → b.ptr ≠ null →
      Grant (Block.drop h b.ptr) n q bytes → bytes.take b.bytes.length = b.bytes.take n →
      Call h (.realloc b.ptr n) q (⟨q, bytes⟩ :: Block.drop h b.ptr)
  | write {a : Nat} {c : Byte} : Call h (.write a c) null (h.map (Block.write a c))

/-- What a client may do: ask for a size from 1 to `PTRDIFF_MAX`, name pointers of its own, and
touch bytes of its own blocks. -/
def Pre : Act → Private → Prop
  | .op (.malloc n), _ => 1 ≤ n ∧ n ≤ ptrdiffMax
  | .op (.free p), h => p = null ∨ ∃ b ∈ h.blocks, b.ptr = p
  | .op (.realloc p n), h =>
    (p = null ∨ ∃ b ∈ h.blocks, b.ptr = p) ∧ 1 ≤ n ∧ n ≤ ptrdiffMax
  | .op (.write a _), h => ∃ b ∈ h.blocks, b.Has a
  | .read a, h => ∃ b ∈ h.blocks, b.Has a

/-- What it may get, and what it knows then: any fresh block or NULL from a call, and the byte that
is in its block from a read. -/
inductive Post : (e : Act) → Private → e.Answer → Private → Prop
  | op {op : Op} {q : Nat} {h h' : Private} : Call h.blocks op q h'.blocks →
      h'.trace = h.trace ++ [(op, q)] → Post (.op op) h q h'
  | read {a : Nat} {c : Byte} {h : Private} {b : Block} : b ∈ h.blocks → b.ptr ≤ a →
      b.bytes[a - b.ptr]? = some c → Post (.read a) h c h

/-- The contract between a client and the allocator, in terms of the client's own blocks. -/
def contract : Contract Act Act.Answer Private := ⟨Pre, Post⟩

/-- Before the first call the client has nothing. -/
def empty : Private := ⟨[], [], List.Pairwise.nil⟩

/-- How many of its requests were refused, from the beginning. -/
def refusals (h : Private) : Nat := h.trace.countP fun e => e.1.refused e.2

end Private

/-- The client keeps to the contract and ends in `Q`, whatever the answers; it is proved right here,
without the heap. -/
abbrev Client.Meets {α : Type} (x : Client α) (Q : α → Private → Prop) (h : Private) : Prop :=
  wp Private.contract x Q h

/-! ## Rules for clients -/

section Rules

variable {h h' : Private} {bs : List Block} {b c : Block} {p q n j a : Nat} {v : Byte} {op : Op}
  {bytes : List Byte}

instance : Std.Symm Block.Apart := ⟨fun _ _ h => ⟨h.1.symm, h.2.symm⟩⟩

theorem Block.mem_drop : b ∈ Block.drop bs p ↔ b ∈ bs ∧ b.ptr ≠ p := by
  unfold Block.drop
  rw [List.mem_filter, decide_eq_true_eq]

@[simp] theorem Block.drop_singleton : Block.drop [b] b.ptr = [] := by
  simp [Block.drop]

/-- The oldest block goes alone, as no other has its address. -/
theorem Block.drop_snoc (hsep : (bs ++ [b]).Pairwise Block.Apart) :
    Block.drop (bs ++ [b]) b.ptr = bs := by
  have hrest : ∀ c ∈ bs, c.ptr ≠ b.ptr := fun c hc =>
    ((List.pairwise_append.mp hsep).2.2 c hc b List.mem_cons_self).1
  unfold Block.drop
  rw [List.filter_append, List.filter_eq_self.mpr fun c hc => decide_eq_true (hrest c hc)]
  simp

/-- Two blocks with a byte in common are one, since different ones are apart. -/
theorem Private.same (hb : b ∈ h.blocks) (hc : c ∈ h.blocks) (h1 : b.Has a) (h2 : c.Has a) :
    b = c := by
  by_contra hne
  have hap := h.separate.forall hb hc hne
  unfold Block.Has at h1 h2
  unfold Block.Apart at hap
  omega

/-- Two blocks at one address are one, since blocks are apart. -/
theorem Private.same_ptr (hb : b ∈ h.blocks) (hc : c ∈ h.blocks) (hp : b.ptr = c.ptr) : b = c := by
  by_contra hne
  exact (h.separate.forall hb hc hne).1 hp

/-- A write to the first block leaves the others alone, as they do not overlap it. -/
theorem Private.write_head (hb : h.blocks = b :: bs) (ha : b.Has a) :
    h.blocks.map (Block.write a v) = b.write a v :: bs := by
  have hsep := h.separate
  rw [hb] at hsep ⊢
  have hrest : ∀ c ∈ bs, c.write a v = c := by
    intro c hc
    refine Block.write_out fun h2 => ?_
    have hap := (List.pairwise_cons.mp hsep).1 c hc
    unfold Block.Has at ha h2
    unfold Block.Apart at hap
    omega
  exact congrArg _ ((List.map_congr_left hrest).trans (List.map_id' _))

@[simp] theorem Private.refusals_snoc (ht : h'.trace = h.trace ++ [(op, q)]) :
    h'.refusals = h.refusals + if op.refused q then 1 else 0 := by
  unfold Private.refusals
  rw [ht, List.countP_append, List.countP_singleton]

variable {Q : Nat → Private → Prop} {R : Unit → Private → Prop}

theorem Client.meets_malloc (h1 : 1 ≤ n) (h2 : n ≤ ptrdiffMax)
    (hnull : ∀ h', h'.blocks = h.blocks → h'.refusals = h.refusals + 1 → Q null h')
    (hgrant : ∀ q bytes h', q ≠ null → bytes.length = n → h'.blocks = ⟨q, bytes⟩ :: h.blocks →
      h'.refusals = h.refusals → Q q h') : (Client.malloc n).Meets Q h := by
  refine ⟨⟨h1, h2⟩, fun q h' hpost => ?_⟩
  cases hpost with
  | op hcall htrace =>
    have hcount := Private.refusals_snoc htrace
    generalize hbs : h'.blocks = bs at hcall
    cases hcall with
    | malloc hg => exact hgrant _ _ _ hg.1 hg.2.1 hbs (by simpa [Op.refused, hg.1] using hcount)
    | refused => exact hnull _ hbs (by simpa [Op.refused] using hcount)

theorem Client.meets_free (hp : p = null ∨ ∃ b ∈ h.blocks, b.ptr = p)
    (hfree : ∀ h', h'.blocks = Block.drop h.blocks p → h'.refusals = h.refusals → R () h') :
    (Client.free p).Meets R h := by
  refine ⟨hp, fun q h' hpost => ?_⟩
  cases hpost with
  | op hcall htrace =>
    have hcount := Private.refusals_snoc htrace
    generalize hbs : h'.blocks = bs at hcall
    cases hcall with
    | refused hr => cases hr
    | free => exact hfree _ hbs (by simpa [Op.refused] using hcount)

/-- Resizing a block: it is refused and nothing changes, or a block of the new size begins with the
old bytes. -/
theorem Client.meets_realloc (hb : b ∈ h.blocks) (hp : b.ptr ≠ null) (h1 : 1 ≤ n)
    (h2 : n ≤ ptrdiffMax)
    (hnull : ∀ h', h'.blocks = h.blocks → h'.refusals = h.refusals + 1 → Q null h')
    (hgrant : ∀ q bytes h', q ≠ null → bytes.length = n →
      bytes.take b.bytes.length = b.bytes.take n →
      h'.blocks = ⟨q, bytes⟩ :: Block.drop h.blocks b.ptr → h'.refusals = h.refusals → Q q h') :
    (Client.realloc b.ptr n).Meets Q h := by
  refine ⟨⟨Or.inr ⟨b, hb, rfl⟩, h1, h2⟩, fun q h' hpost => ?_⟩
  cases hpost with
  | op hcall htrace =>
    have hcount := Private.refusals_snoc htrace
    generalize hbs : h'.blocks = bs at hcall
    generalize hop : Op.realloc b.ptr n = op at hcall
    cases hcall with
    | refused =>
      subst hop
      exact hnull _ hbs (by simpa [Op.refused] using hcount)
    | renew => exact absurd (Op.realloc.inj hop).1 hp
    | resize hb' hp' hg htake =>
      obtain ⟨hptr, rfl⟩ := Op.realloc.inj hop
      obtain rfl := Private.same_ptr hb hb' hptr
      exact hgrant _ _ _ hg.1 hg.2.1 htake hbs (by simpa [Op.refused, hg.1] using hcount)
    | malloc => cases hop
    | free => cases hop
    | write => cases hop

theorem Client.meets_store (hb : h.blocks = b :: bs) (ha : b.Has a)
    (hstore : ∀ h', h'.blocks = b.write a v :: bs → h'.refusals = h.refusals → R () h') :
    (Client.store a v).Meets R h := by
  refine ⟨⟨b, hb ▸ List.mem_cons_self, ha⟩, fun q h' hpost => ?_⟩
  cases hpost with
  | op hcall htrace =>
    have hcount := Private.refusals_snoc htrace
    generalize hbs : h'.blocks = bs' at hcall
    cases hcall with
    | refused hr => cases hr
    | write =>
      exact hstore _ (hbs.trans (Private.write_head hb ha)) (by simpa [Op.refused] using hcount)

theorem Client.meets_fetch {Q : Byte → Private → Prop} (hb : b ∈ h.blocks)
    (hv : b.bytes[j]? = some v) (hfetch : Q v h) : (Client.fetch (b.ptr + j)).Meets Q h := by
  have hlt : j < b.bytes.length := (List.getElem?_eq_some_iff.mp hv).1
  have hhas : b.Has (b.ptr + j) := by
    unfold Block.Has
    omega
  refine ⟨⟨b, hb, hhas⟩, fun v' h' hpost => ?_⟩
  cases hpost with
  | read hc hle hv' =>
    have hlt' := (List.getElem?_eq_some_iff.mp hv').1
    obtain rfl := Private.same hb hc hhas ⟨hle, by omega⟩
    rw [Nat.add_sub_cancel_left, hv] at hv'
    cases hv'
    exact hfetch

/-- Filling the newest block, by the rule for loops with what is filled so far as the invariant. -/
theorem Client.meets_memset (hb : h.blocks = ⟨p, bytes⟩ :: bs)
    (hset : ∀ h', h'.blocks = ⟨p, List.replicate bytes.length v⟩ :: bs →
      h'.refusals = h.refusals → R () h') :
    (Client.memset p v bytes.length).Meets R h := by
  refine wp_mono (wp_loop (fun j _ h' => h'.blocks = ⟨p, List.replicate j v ++ bytes.drop j⟩ :: bs ∧
    h'.refusals = h.refusals) ⟨by simpa using hb, rfl⟩ ?_) fun _ h' hI => hset h' ?_ hI.2
  · rintro j - h₁ - hj ⟨hb₁, hr₁⟩
    have hdrop := List.drop_eq_getElem_cons (show j < bytes.length by omega)
    refine Client.meets_store hb₁ ⟨Nat.le_add_right _ _, ?_⟩ fun h' hb' hr' => ⟨?_, hr'.trans hr₁⟩
    · simp only [List.length_append, List.length_replicate, List.length_drop]
      omega
    · rw [hb', Block.write, if_pos (Nat.le_add_right _ _), Nat.add_sub_cancel_left, hdrop,
        List.set_append_right _ _ (by simp), List.length_replicate, Nat.sub_self,
        List.set_cons_zero, List.replicate_succ', List.append_assoc]
      rfl
  · simpa using hI.1

end Rules

end FtMalloc
