import OpenBinder.Lib.Overwrite
import OpenBinder.Lib.Word

/-!
# Memory stores

A `BMemoryStore` is a length and a pointer to memory; whether there is enough of it the virtual
`MoreCore` decides. The store itself works on the memory of its caller, a `BMallocStore` on a
block of the heap that grows by whole blocks.

* `write`, `read`: `WriteAtV` and `ReadAtV`, element by element.
* `perform`: every call on a store.
-/

namespace OpenBinder

open Lib

namespace BMemoryStore

/-- The bytes of an allocation; `none` is a byte that nothing was written to. -/
abbrev Block := List (Option Byte)

/-- Where memory comes from: the caller gave it, or it is on the heap, with `m_blockSize` and
`m_mallocSize`. -/
inductive Core where
  | caller
  | malloc (blockSize mallocSize : ℕ)
  deriving DecidableEq

end BMemoryStore

/-- A `BMemoryStore`: `m_length`, `m_data` (`none` is NULL) with what it points to, and
`m_readOnly`. -/
structure BMemoryStore where
  length : ℕ
  data : Option BMemoryStore.Block
  readOnly : Bool
  core : BMemoryStore.Core

namespace BMemoryStore

/-- A new `BMallocStore`. -/
def newMalloc : BMemoryStore := ⟨0, none, false, .malloc 256 0⟩

/-- A `BMemoryStore` on memory of the caller, which may be constant. -/
def onBuffer (buffer : List Byte) (readOnly : Bool) : BMemoryStore :=
  ⟨buffer.length, some (buffer.map some), readOnly, .caller⟩

/-- What `realloc` leaves of a block that it moves. -/
def resize (old : Option Block) (n : ℕ) : Block :=
  (old.getD []).take n ++ List.replicate (n - (old.getD []).length) none

/-- The `newsize` of `BMallocStore::MoreCore`, a `size_t`. -/
def newsize (blockSize size : ℕ) : ℕ := (size + (blockSize - 1)) % 2 ^ 32 / blockSize * blockSize

/-- `AssertSpace`, with `MoreCore`: whether it returns `B_OK`, and the store. `alloc` tells for
every size whether `realloc` finds so much memory; for no bytes it frees the old block. -/
def assertSpace (st : BMemoryStore) (newSize : ℕ) (alloc : ℕ → Bool) : Bool × BMemoryStore :=
  match st.core with
  | .caller => (decide (newSize ≤ st.length) && st.data.isSome, st)
  | .malloc blockSize mallocSize =>
    if newSize ≤ mallocSize then (st.data.isSome, st)
    else
      let n := newsize blockSize newSize
      if n = 0 then
        if alloc n then (true, { st with data := some [], core := .malloc blockSize n })
        else (false, { st with data := st.data.map fun _ => [] })
      else if alloc n then
        (true, { st with data := some (resize st.data n), core := .malloc blockSize n })
      else (false, st)

/-- The sum of two `off_t`. -/
def offset (n : ℤ) : ℤ := Int.bmod n (2 ^ 64)

/-- `memcpy` to `m_data + pos`; `none` if a byte goes outside of the allocation. -/
def copyIn (st : BMemoryStore) (pos : ℤ) (bytes : Block) : Option BMemoryStore :=
  if bytes = [] then some st
  else
    match st.data with
    | none => none
    | some block =>
      if 0 ≤ pos ∧ pos.toNat + bytes.length ≤ block.length then
        some { st with data := some (overwrite block pos.toNat bytes) }
      else none

/-- `memcpy` of `size` bytes from `m_data + pos`. -/
def copyOut (st : BMemoryStore) (pos : ℤ) (size : ℕ) : Option Block :=
  if size = 0 then some []
  else
    match st.data with
    | none => none
    | some block =>
      if 0 ≤ pos ∧ pos.toNat + size ≤ block.length then some ((block.drop pos.toNat).take size)
      else none

/-- What a call returns; `fault` is an access outside of the allocation. -/
inductive Result where
  | fault
  | permissionDenied
  | count (n : ℤ)
  | read (n : ℤ) (parts : List Block)
  | status (ok : Bool)
  deriving DecidableEq

/-- The 2 GB that a store may grow to. -/
def limit : ℕ := 0x7fffffff

/-- The growth test of `WriteAtV` for bytes that end at `last`: whether it goes on, and the
store. -/
def extend (st : BMemoryStore) (last : ℤ) (alloc : ℕ → Bool) : Bool × BMemoryStore :=
  if (st.length : ℤ) < last then
    if last ≤ limit then
      let r := st.assertSpace last.toNat alloc
      if r.1 then (true, { r.2 with length := last.toNat }) else (false, r.2)
    else (true, { st with length := last.toNat % 2 ^ 32 })
  else (true, st)

/-- The loop of `WriteAtV`. -/
def writeLoop (alloc : ℕ → Bool) : List (List Byte) → ℤ → ℕ → BMemoryStore → Result × BMemoryStore
  | [], _, totalSize, st => (.count (ssize totalSize), st)
  | bytes :: vector, pos, totalSize, st =>
    let r := st.extend (offset (pos + bytes.length)) alloc
    if r.1 then
      match r.2.copyIn pos (bytes.map some) with
      | none => (.fault, r.2)
      | some st => writeLoop alloc vector (offset (pos + bytes.length)) (totalSize + bytes.length) st
    else (.count (ssize totalSize), r.2)

/-- `WriteAtV`. -/
def write (st : BMemoryStore) (pos : ℕ) (vector : List (List Byte)) (alloc : ℕ → Bool) :
    Result × BMemoryStore :=
  if st.readOnly then (.permissionDenied, st) else writeLoop alloc vector pos 0 st

/-- The loop of `ReadAtV`: the lengths of the elements that are left, and what is read
already. -/
def readLoop (st : BMemoryStore) : List ℕ → ℤ → ℕ → List Block → Result
  | [], _, totalSize, parts => .read (ssize totalSize) parts
  | len :: vector, pos, totalSize, parts =>
    if (st.length : ℤ) ≤ pos then .read (ssize totalSize) parts
    else
      let size := if (st.length : ℤ) < offset (pos + len) then (st.length - pos).toNat else len
      match st.copyOut pos size with
      | none => .fault
      | some part =>
        readLoop st vector (offset (pos + size)) (totalSize + size) (parts ++ [part])

/-- `ReadAtV`. -/
def read (st : BMemoryStore) (pos : ℕ) (vector : List ℕ) : Result := st.readLoop vector pos 0 []

def setSize (st : BMemoryStore) (size : ℕ) (alloc : ℕ → Bool) : Result × BMemoryStore :=
  if st.readOnly then (.permissionDenied, st)
  else if size ≤ limit then
    let r := st.assertSpace size alloc
    if r.1 then (.status true, { r.2 with length := size }) else (.status false, r.2)
  else (.status false, st)

/-- `Copy` from a store that shows the given bytes; no bytes is no buffer, or no size. -/
def copy (st : BMemoryStore) (bytes : Block) (alloc : ℕ → Bool) : Result × BMemoryStore :=
  if bytes = [] then (.status true, st)
  else
    let r := st.assertSpace bytes.length alloc
    if r.1 then
      match ({ r.2 with length := bytes.length } : BMemoryStore).copyIn 0 bytes with
      | none => (.fault, r.2)
      | some st => (.status true, st)
    else (.status false, r.2)

def reset (st : BMemoryStore) : BMemoryStore := { st with data := none, length := 0 }

def setBlockSize (st : BMemoryStore) (newsize : ℕ) : BMemoryStore :=
  match st.core with
  | .caller => st
  | .malloc _ mallocSize => { st with core := .malloc newsize mallocSize }

/-- A call on a store, with what `realloc` does in it. -/
inductive Action where
  | read (pos : ℕ) (vector : List ℕ)
  | write (pos : ℕ) (vector : List (List Byte)) (alloc : ℕ → Bool)
  | setSize (size : ℕ) (alloc : ℕ → Bool)
  | copy (bytes : Block) (alloc : ℕ → Bool)
  | reset
  | setBlockSize (newsize : ℕ)

/-- The result of a call, and the store after it. -/
def perform (st : BMemoryStore) : Action → Result × BMemoryStore
  | .read pos vector => (st.read pos vector, st)
  | .write pos vector alloc => st.write pos vector alloc
  | .setSize size alloc => st.setSize size alloc
  | .copy bytes alloc => st.copy bytes alloc
  | .reset => (.status true, st.reset)
  | .setBlockSize newsize => (.status true, st.setBlockSize newsize)

end BMemoryStore

end OpenBinder
