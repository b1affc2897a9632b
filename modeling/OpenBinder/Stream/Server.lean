import OpenBinder.Parcel.Storage

/-!
# The servers of streams and storages

`BnByteInput`, `BnByteOutput` and `BnStorage` take a transaction apart and call the object that
they are, which is any byte stream or storage. What such an object is asked for and what it
answers is here; how it keeps its bytes is up to it.

* `IByteInput`, `IByteOutput`, `IStorage`: the objects. A vector is one run of bytes to them.
* `Request.transact`: the branches of the three `Transact`, with where the object was told to
  read to and to write from.
-/

namespace OpenBinder

open Lib

/-- `B_BINDER_UNKNOWN_TRANSACT`. -/
def unknownTransact : BitVec 32 := 0x80004a04#32

/-- `B_BINDER_BAD_TRANSACT`. -/
def badTransact : BitVec 32 := 0x80004a05#32

/-- A code that is an error. -/
abbrev ErrorCode := {code : BitVec 32 // code.toInt < 0}

/-- What reading gives. -/
inductive ReadResult where
  | error (code : ErrorCode)
  | bytes (data : List Byte)

/-- The `ssize_t` that is returned. -/
def ReadResult.amt : ReadResult → BitVec 32
  | error code => code.1
  | bytes data => BitVec.ofNat 32 data.length

/-- What is in the buffer. -/
def ReadResult.data : ReadResult → List Byte
  | error _ => []
  | bytes data => data

/-- A stream that bytes are read from, at most as many as there is room for. -/
structure IByteInput (σ : Type) where
  readV : σ → ℕ → BitVec 32 → ReadResult × σ
  readV_le : ∀ s n flags, (readV s n flags).1.data.length ≤ n

/-- A stream that bytes are written to. -/
structure IByteOutput (σ : Type) where
  writeV : σ → List Byte → BitVec 32 → BitVec 32 × σ
  sync : σ → BitVec 32 × σ

/-- Bytes at positions. -/
structure IStorage (σ : Type) where
  size : σ → BitVec 64
  setSize : σ → BitVec 64 → BitVec 32 × σ
  readAtV : σ → BitVec 64 → ℕ → ReadResult × σ
  readAtV_le : ∀ s position n, (readAtV s position n).1.data.length ≤ n
  writeAtV : σ → BitVec 64 → List Byte → BitVec 32 × σ
  sync : σ → BitVec 32 × σ

/-- A parcel that is replied: where it has its bytes, and which they are. -/
structure Reply where
  storage : Storage
  bytes : List Byte

/-- `SParcel::Copy` of a word. -/
def Reply.copy (reply : Reply) (word : BitVec 32) (malloc : Bool) : Reply :=
  let (found, p) := reply.storage.alloc 4 malloc
  if found then ⟨p.touch 0 4, wordBytes word⟩ else ⟨p, []⟩

/-- The buffer that the object was given. -/
inductive Given where
  | destination (range : Range)
  | source (range : Range)

def Given.range : Given → Range
  | destination range => range
  | source range => range

/-- What comes of a transaction: the status, the reply, what the object was given if it was
called, and the object afterwards. -/
structure Served (σ : Type) where
  status : BitVec 32
  reply : Option Reply
  given : Option Given
  object : σ

/-- What a server finds around it: whether `malloc` gives it a block, and what is in memory
behind the bytes that were received. -/
structure Around where
  malloc : Bool
  behind : List Byte

/-- The word at an offset. -/
def wordFrom (bytes : List Byte) (offset : ℕ) : BitVec 32 := wordOf ((bytes.drop offset).take 4)

/-- The `off_t` at the front. -/
def positionOf (bytes : List Byte) : BitVec 64 := wordFrom bytes 4 ++ wordFrom bytes 0

section Transact

variable {σ : Type}

/-- The bytes of a read, with their count in front, in the block that was made for them. -/
def Reply.answer (p : Storage) (answer : ReadResult) (malloc : Bool) : Reply :=
  let amt := answer.amt
  ⟨((p.touch 0 4).reAlloc (if 0 ≤ amt.toInt then ssize (amt.toInt + 4) else 4) malloc).2,
    wordBytes amt ++ answer.data⟩

/-- `BnByteInput::Transact`. The data is `none` where `Data()` is `NULL`. -/
def BnByteInput.transact (input : IByteInput σ) (s : σ) (data : Option (List Byte))
    (reply : Option Reply) (around : Around) : Served σ :=
  let bytes := data.getD []
  if 4 ≤ bytes.length then
    let size := (wordFrom bytes 0).toInt
    let flags := if 8 ≤ bytes.length then wordFrom bytes 4 else 0
    match reply with
    | none => ⟨0, reply, none, s⟩
    | some r =>
      if 0 < size then
        let (found, p) := r.storage.alloc (ssize (size + 4)) around.malloc
        if found then
          let (answer, s') := input.readV s size.toNat flags
          ⟨0, some (.answer p answer around.malloc), some (.destination ⟨p.data.size, 4, size⟩), s'⟩
        else ⟨0, some ⟨p, []⟩, none, s⟩
      else ⟨0, reply, none, s⟩
  else ⟨badTransact, reply, none, s⟩

/-- `BnByteOutput::Transact` of a `B_WRITE_TRANSACTION`. -/
def BnByteOutput.transactWrite (output : IByteOutput σ) (s : σ) (data : Option (List Byte))
    (reply : Option Reply) (around : Around) : Served σ :=
  match data with
  | some (b :: bytes) =>
    let (result, s') := output.writeV s (b :: bytes) 0
    let length : ℤ := (b :: bytes).length
    ⟨0, reply.map (·.copy result around.malloc), some (.source ⟨length, 0, length⟩), s'⟩
  | _ => ⟨0, reply.map (·.copy badTransact around.malloc), none, s⟩

/-- `BnByteOutput::Transact` of a `B_WRITE_FLAGS_TRANSACTION`. -/
def BnByteOutput.transactWriteFlags (output : IByteOutput σ) (s : σ) (data : Option (List Byte))
    (reply : Option Reply) (around : Around) : Served σ :=
  let bytes := data.getD []
  if 4 ≤ bytes.length then
    let (result, s') := output.writeV s (bytes.drop 4) (wordFrom bytes 0)
    ⟨0, reply.map (·.copy result around.malloc),
      some (.source ⟨bytes.length, 4, bytes.length - 4⟩), s'⟩
  else ⟨0, reply.map (·.copy badTransact around.malloc), none, s⟩

/-- `BnStorage::Transact` of a `B_READ_AT_TRANSACTION`. -/
def BnStorage.transactReadAt (storage : IStorage σ) (s : σ) (data : Option (List Byte))
    (reply : Option Reply) (around : Around) : Served σ :=
  let bytes := data.getD []
  if 12 ≤ bytes.length then
    let size := (wordFrom bytes 8).toNat
    match reply with
    | none => ⟨BitVec.ofInt 32 noMemory, reply, none, s⟩
    | some r =>
      let (found, p) := r.storage.alloc (ssize (size + 4)) around.malloc
      if found then
        if 0 < size then
          let (answer, s') := storage.readAtV s (positionOf bytes) size
          ⟨if 0 ≤ answer.amt.toInt then 0 else answer.amt, some (.answer p answer around.malloc),
            some (.destination ⟨p.data.size, 4, size⟩), s'⟩
        else ⟨0, some (.answer p (.bytes []) around.malloc), none, s⟩
      else ⟨BitVec.ofInt 32 noMemory, some ⟨p, []⟩, none, s⟩
  else ⟨badTransact, reply, none, s⟩

/-- `BnStorage::Transact` of a `B_WRITE_AT_TRANSACTION`. The length that is left is short by the
size of a pointer, not by that of what is in front of the bytes. -/
def BnStorage.transactWriteAt (storage : IStorage σ) (s : σ) (data : Option (List Byte))
    (reply : Option Reply) (around : Around) : Served σ :=
  let bytes := data.getD []
  let (result, given, s') :=
    if 8 ≤ bytes.length then
      let (result, s') := storage.writeAtV s (positionOf bytes)
        (((bytes ++ around.behind).drop 8).take (bytes.length - 4))
      (result, some (.source ⟨bytes.length, 8, bytes.length - 4⟩), s')
    else (badTransact, none, s)
  ⟨if 0 ≤ result.toInt then 0 else result, reply.map (·.copy result around.malloc), given, s'⟩

/-- A transaction, by its code, with the object that it is for. -/
inductive Request (σ : Type) where
  | read (input : IByteInput σ)
  | write (output : IByteOutput σ)
  | writeFlags (output : IByteOutput σ)
  | readAt (storage : IStorage σ)
  | writeAt (storage : IStorage σ)

/-- The transaction. -/
def Request.transact : Request σ → σ → Option (List Byte) → Option Reply → Around → Served σ
  | read input => BnByteInput.transact input
  | write output => BnByteOutput.transactWrite output
  | writeFlags output => BnByteOutput.transactWriteFlags output
  | readAt storage => BnStorage.transactReadAt storage
  | writeAt storage => BnStorage.transactWriteAt storage

end Transact

end OpenBinder
