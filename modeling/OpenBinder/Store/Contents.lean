import OpenBinder.Lib.Scatter
import OpenBinder.Store.MemoryStore

/-!
# A store as a byte array

What a store is for: an array of bytes that grows when it is written past its end, with the
byte last written at every position. Whether it can grow is up to the memory there is.

* `Contents.apply`: every call, on the array.
* `room`: the memory a store can have.
* `Observes`: the calls that a memory store gets right.
-/

namespace OpenBinder

open Lib

/-- An array: its size, and the byte last written at a position, also behind the end. -/
structure Contents where
  size : ℕ
  byte : ℕ → Option Byte

namespace Contents

open BMemoryStore (Action Result Block limit)

/-- The array of a new store. -/
def empty : Contents := ⟨0, fun _ => none⟩

/-- The array with bytes put at a position; it grows if they end behind its end. -/
def put (a : Contents) (pos : ℕ) (bytes : Block) : Contents where
  size := max a.size (pos + bytes.length)
  byte := fun i => if pos ≤ i ∧ i < pos + bytes.length then (bytes[i - pos]?).join else a.byte i

/-- The bytes from a position to the end. -/
def slice (a : Contents) (pos : ℕ) : Block :=
  (List.range (a.size - pos)).map fun i => a.byte (pos + i)

/-- Elements written one after the other, as long as there is room for them: how many bytes,
and the array. -/
def writeLoop (room : ℕ → Bool) : List (List Byte) → ℕ → ℕ → Contents → ℕ × Contents
  | [], _, total, a => (total, a)
  | bytes :: vector, pos, total, a =>
    if pos + bytes.length ≤ a.size ∨ pos + bytes.length ≤ limit ∧ room (pos + bytes.length) then
      writeLoop room vector (pos + bytes.length) (total + bytes.length)
        (a.put pos (bytes.map some))
    else (total, a)

/-- **A call on the array**, with room for so many bytes. -/
def apply (a : Contents) (room : ℕ → Bool) (readOnly : Bool) : Action → Result × Contents
  | .read pos vector =>
    let parts := fill vector (a.slice pos)
    (.read (parts.map List.length).sum parts, a)
  | .write pos vector _ =>
    if readOnly then (.permissionDenied, a)
    else
      let r := writeLoop room vector pos 0 a
      (.count r.1, r.2)
  | .setSize size _ =>
    if readOnly then (.permissionDenied, a)
    else if size ≤ limit ∧ (size ≤ a.size ∨ room size) then (.status true, { a with size := size })
    else (.status false, a)
  | .copy bytes _ =>
    if bytes.length ≤ a.size ∨ room bytes.length then
      (.status true, { a.put 0 bytes with size := bytes.length })
    else (.status false, a)
  | .reset => (.status true, empty)
  | .setBlockSize _ => (.status true, a)

end Contents

namespace BMemoryStore

/-- What `m_data` points to. -/
def block (st : BMemoryStore) : Block := st.data.getD []

/-- The size of the allocation. -/
def capacity (st : BMemoryStore) : ℕ := st.block.length

/-- A size rounded up to whole blocks. -/
def roundUp (blockSize size : ℕ) : ℕ := (size + (blockSize - 1)) / blockSize * blockSize

/-- **The memory there is** for more than the size of a store: none behind the buffer of a
caller; on the heap the block it has and what `realloc` gives. -/
def room (st : BMemoryStore) (alloc : ℕ → Bool) (size : ℕ) : Bool :=
  match st.core with
  | .caller => false
  | .malloc blockSize _ => decide (size ≤ st.capacity) || alloc (roundUp blockSize size)

/-- What `realloc` does in a call. -/
def Action.alloc : Action → ℕ → Bool
  | .write _ _ alloc | .setSize _ alloc | .copy _ alloc => alloc
  | _ => fun _ => false

/-- Offsets are not negative, lengths and sizes are of type `size_t`, and the block size is
not zero. -/
def Action.Valid : Action → Prop
  | .read pos vector => pos < 2 ^ 63 ∧ ∀ len ∈ vector, len < 2 ^ 32
  | .write pos vector _ => pos < 2 ^ 63 ∧ ∀ bytes ∈ vector, bytes.length < 2 ^ 32
  | .setSize size _ => size < 2 ^ 63
  | .copy bytes _ => bytes.length < 2 ^ 32
  | .reset => True
  | .setBlockSize newsize => 0 < newsize ∧ newsize < 2 ^ 32

instance : (a : Action) → Decidable a.Valid
  | .read pos vector => inferInstanceAs (Decidable (pos < 2 ^ 63 ∧ ∀ len ∈ vector, len < 2 ^ 32))
  | .write pos vector _ =>
    inferInstanceAs (Decidable (pos < 2 ^ 63 ∧ ∀ bytes ∈ vector, bytes.length < 2 ^ 32))
  | .setSize size _ => inferInstanceAs (Decidable (size < 2 ^ 63))
  | .copy bytes _ => inferInstanceAs (Decidable (bytes.length < 2 ^ 32))
  | .reset => .isTrue trivial
  | .setBlockSize newsize => inferInstanceAs (Decidable (0 < newsize ∧ newsize < 2 ^ 32))

/-- A store, and the array that it is to be. -/
structure State where
  store : BMemoryStore
  contents : Contents

/-- One call, on both. -/
def step (s : State) (a : Action) : Option State :=
  if a.Valid then
    some ⟨(s.store.perform a).2,
      (s.contents.apply (s.store.room a.alloc) s.store.readOnly a).2⟩
  else none

/-- The store holds the array: its size, and what was last written. -/
structure Agrees (st : BMemoryStore) (a : Contents) : Prop where
  size : a.size = st.length
  byte : ∀ i, a.byte i = (st.block[i]?).join

/-- **A call is that on the array**: no byte outside of the allocation is touched, the bytes
and the count are the same, and so is the array afterwards. `SetSize` reports success only
when it has done it. -/
structure Refines (s : State) (a : Action) : Prop where
  inside : (s.store.perform a).1 ≠ .fault
  result : (∀ size alloc, a ≠ .setSize size alloc) → (s.store.perform a).1 =
    (s.contents.apply (s.store.room a.alloc) s.store.readOnly a).1
  done : (s.store.perform a).1 = .status true →
    (s.contents.apply (s.store.room a.alloc) s.store.readOnly a).1 = .status true
  agrees : Agrees (s.store.perform a).2
    (s.contents.apply (s.store.room a.alloc) s.store.readOnly a).2

/-! ### What does not go wrong -/

/-- Whether a request for memory is understood: the heap size is not one that was freed, and
the size in whole blocks does not wrap around. -/
def Fits (st : BMemoryStore) (size : ℕ) : Prop :=
  match st.core with
  | .caller => True
  | .malloc blockSize mallocSize =>
    (0 < size → size ≤ mallocSize → st.data.isSome) ∧
      (mallocSize < size → size + (blockSize - 1) < 2 ^ 32)

/-- Whether the elements that `WriteAtV` comes to end within the store or within 2 GB, the
memory they need is understood, and the count fits into an `ssize_t`. -/
def WriteFits (alloc : ℕ → Bool) : List (List Byte) → ℕ → ℕ → BMemoryStore → Prop
  | [], _, _, _ => True
  | bytes :: vector, pos, total, st =>
    (pos + bytes.length ≤ st.length ∨ pos + bytes.length ≤ limit ∧ st.Fits (pos + bytes.length)) ∧
      ((st.extend (pos + bytes.length : ℕ) alloc).1 = true → total + bytes.length ≤ limit ∧
        ∀ st', (st.extend (pos + bytes.length : ℕ) alloc).2.copyIn pos (bytes.map some) = some st' →
          WriteFits alloc vector (pos + bytes.length) (total + bytes.length) st')

/-- The calls that do not go wrong. -/
def Observes (s : State) (a : Action) : Prop :=
  match a with
  | .read pos vector => min vector.sum (s.store.length - pos) ≤ limit
  | .write pos vector alloc => s.store.readOnly = false → WriteFits alloc vector pos 0 s.store
  | .setSize size _ => s.store.readOnly = false → size ≤ limit → s.store.Fits size
  | .copy bytes _ => if bytes = [] then s.store.length = 0 else s.store.Fits bytes.length
  | .reset | .setBlockSize _ => True

end BMemoryStore

end OpenBinder
