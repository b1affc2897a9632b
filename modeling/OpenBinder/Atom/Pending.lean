import OpenBinder.Lib.Run
import Mathlib.Algebra.Group.Nat.Defs

/-!
# Allocations of atoms that are pending

The memory of an atom has a `base_data` in front of it. Between `operator new` and the constructor
the `base_data` is in a chain of its thread, by which the constructor finds the one that is the
atom's. The pointer to the next of the chain has its low bit set, and is in the word that holds the
atom afterwards.

* `operatorNew`, `construct`, `operatorDelete`: what they do to the memory and the thread slot.
* `Allocations`: the blocks that are pending, newest first, and those that have an atom.
* `step`: a call of the thread. The allocator and the caller decide the addresses.
-/

namespace OpenBinder.SAtom

open Lib

/-- An address, or `uint32_t`. -/
abbrev Word := BitVec 32

def initialPrimaryValue : Word := 0x10000000#32

def sizeofBaseData : Word := 16

/-- `base_data`; `word` is the union of `atom`, `next` and `pending`. -/
structure BaseData where
  strongCount : Word
  weakCount : Word
  word : Word
  size : Word
deriving DecidableEq

/-- The thread slot, the `base_data` of every block that is allocated, and `m_base` of every atom
that is constructed. -/
structure Memory where
  slot : Word
  heap : Word → Option BaseData
  base : Word → Option Word

namespace Memory

/-- The low bit of a pointer that is in the chain. -/
def tag (p : Word) : Word := p ||| 1

/-- `pending & ~1`. -/
def untag (w : Word) : Word := w &&& ~~~1

def setHeap (m : Memory) (p : Word) (d : Option BaseData) : Memory :=
  { m with heap := Function.update m.heap p d }

/-- `prev->next = next`; `none` where there is no `base_data`. -/
def setNext (m : Memory) (p next : Word) : Option Memory :=
  (m.heap p).map fun d => m.setHeap p (some { d with word := next })

/-- `operator new`, with what `::operator new` returns. A block that is too small for its
`base_data` is written behind. -/
def operatorNew (m : Memory) (size ptr : Word) : Option Memory :=
  if ptr = 0 then some m
  else if (size + sizeofBaseData).toNat < sizeofBaseData.toNat then none
  else
    let next := if m.slot ≠ 0 then tag m.slot else 0
    some { m.setHeap ptr (some ⟨initialPrimaryValue, 0, next, size + sizeofBaseData⟩) with
      slot := ptr }

/-- The loop of the constructor: the block that `this` is in, and the one before it. -/
def findBlock (m : Memory) (this : Word) : ℕ → Word → Word → Option (Word × Word)
  | 0, _, _ => none
  | fuel + 1, pos, prev =>
    if pos = 0 then some (pos, prev)
    else
      (m.heap pos).bind fun d =>
        if this < pos ∨ pos + d.size ≤ this then findBlock m this fuel (untag d.word) pos
        else some (pos, prev)

/-- A block out of the chain, by the one before it and its `next`. -/
def cut (m : Memory) (prev next : Word) : Option Memory :=
  if prev = 0 then some { m with slot := untag next } else m.setNext prev next

/-- `SAtom::SAtom`. -/
def construct (m : Memory) (this : Word) : Option Memory :=
  (findBlock m this (2 ^ 32) m.slot 0).bind fun found =>
    (m.heap found.1).bind fun d =>
      (m.cut found.2 d.word).map fun m =>
        { m.setHeap found.1 (some { d with word := this, size := 0 }) with
          base := Function.update m.base this (some found.1) }

/-- The loop of `unlink`. The pointer that it goes on with has its low bit set. -/
def unlinkFrom (m : Memory) (this : Word) : ℕ → Word → Option Memory
  | 0, _ => none
  | fuel + 1, pos =>
    (m.heap pos).bind fun d =>
      if d.word = 0 then some m
      else
        let after := untag d.word
        if after = this then (m.heap after).bind fun a => m.setNext pos a.word
        else unlinkFrom m this fuel d.word

/-- `base_data::unlink`. -/
def unlink (m : Memory) (this : Word) : Option Memory :=
  if m.slot = this then (m.heap this).map fun d => { m with slot := untag d.word }
  else unlinkFrom m this (2 ^ 32) m.slot

def deleteImpl (m : Memory) (atom size : Word) : Option Memory :=
  (m.base atom).bind fun base =>
    (m.heap base).bind fun d =>
      if d.weakCount = 0 then some (m.setHeap base none)
      else if d.strongCount ≠ 0 ∧ d.strongCount ≠ initialPrimaryValue then none
      else some (m.setHeap base (some { d with size := size }))

def operatorDelete (m : Memory) (ptr size : Word) : Option Memory :=
  if ptr = 0 then some m
  else
    let data := ptr - sizeofBaseData
    (m.heap data).bind fun d =>
      if d.word ≠ 0 then m.deleteImpl d.word size
      else (m.unlink data).map fun m => m.setHeap data none

end Memory

/-! ### What is allocated -/

/-- A block of the allocator, with its `base_data`. -/
structure Block where
  addr : Word
  size : Word
deriving DecidableEq

/-- An atom at an address is in the block, behind its `base_data`. -/
def Block.Contains (b : Block) (p : Word) : Prop :=
  b.addr.toNat + sizeofBaseData.toNat ≤ p.toNat ∧ p.toNat < b.addr.toNat + b.size.toNat

instance (b : Block) (p : Word) : Decidable (b.Contains p) := by
  unfold Block.Contains; infer_instance

/-- Two blocks have no byte in common. -/
def Block.Apart (b b' : Block) : Prop :=
  b.addr.toNat + b.size.toNat ≤ b'.addr.toNat ∨ b'.addr.toNat + b'.size.toNat ≤ b.addr.toNat

instance (b b' : Block) : Decidable (b.Apart b') := by
  unfold Block.Apart; infer_instance

/-- **The allocations of a thread**: the blocks without an atom, newest first, and those that have
one. -/
structure Allocations where
  pending : List Block
  attached : List (Block × Word)

namespace Allocations

/-- All blocks. -/
def blocks (g : Allocations) : List Block := g.pending ++ g.attached.map Prod.fst

/-- A new block of the allocator: not at the end of memory, at an even address, and apart from all
others. -/
def IsNew (g : Allocations) (b : Block) : Prop :=
  b.addr &&& 1 = 0 ∧ b.addr.toNat + b.size.toNat < 2 ^ 32 ∧ ∀ b' ∈ g.blocks, b.Apart b'

instance (g : Allocations) (b : Block) : Decidable (g.IsNew b) := by
  unfold IsNew; infer_instance

def push (g : Allocations) (b : Block) : Allocations := { g with pending := b :: g.pending }

/-- A pending block gets its atom. -/
def attach (g : Allocations) (b : Block) (atom : Word) : Allocations where
  pending := g.pending.erase b
  attached := (b, atom) :: g.attached

def remove (g : Allocations) (b : Block) : Allocations :=
  { g with pending := g.pending.erase b }

end Allocations

/-! ### The calls of a thread -/

/-- The memory, if it is sound, and what is allocated in it. -/
structure Thread where
  memory : Option Memory
  allocations : Allocations

/-- A call: `operator new`, with what the allocator returns, the constructor of an atom, and
`operator delete`. -/
inductive Call where
  | new (size ptr : Word)
  | construct (this : Word)
  | delete (ptr size : Word)

/-- A call that the allocator and the caller make: a new block is one, an atom is constructed
within a pending block, and a block is deleted that is pending. -/
def step (s : Thread) : Call → Option Thread
  | .new size ptr =>
    s.memory.bind fun m =>
      let b : Block := ⟨ptr, size + sizeofBaseData⟩
      if ptr = 0 then some { s with memory := m.operatorNew size ptr }
      else if s.allocations.IsNew b then
        some ⟨m.operatorNew size ptr, s.allocations.push b⟩
      else none
  | .construct this =>
    s.memory.bind fun m =>
      (s.allocations.pending.find? fun b => b.Contains this).map fun b =>
        ⟨m.construct this, s.allocations.attach b this⟩
  | .delete ptr size =>
    s.memory.bind fun m =>
      (s.allocations.pending.find? fun b => b.addr + sizeofBaseData = ptr).map fun b =>
        ⟨m.operatorDelete ptr size, s.allocations.remove b⟩

/-- A thread that has allocated nothing. -/
def Thread.start : Thread := ⟨some ⟨0, fun _ => none, fun _ => none⟩, ⟨[], []⟩⟩

/-- **The calls that do not go wrong**: a size to which that of the `base_data` can be added, and
the deletion of the oldest of one or two pending blocks. -/
def Observes (s : Thread) : Call → Prop
  | .new size ptr => ptr = 0 ∨ size.toNat + sizeofBaseData.toNat < 2 ^ 32
  | .construct _ => True
  | .delete ptr _ => s.allocations.pending.length ≤ 2 ∧
      ∀ b ∈ s.allocations.pending.getLast?, b.addr + sizeofBaseData = ptr

end OpenBinder.SAtom
