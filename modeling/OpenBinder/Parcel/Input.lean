import OpenBinder.Parcel.Storage

/-!
# Reading from a stream

A parcel with an `IByteInput` behind it. Its block is a buffer: what is not in it is read from the
input, in place of the bytes that were there or, when it is not smaller than the block, straight
to the caller.

The input delivers as many bytes of each `Read` as it likes, at least one unless it is at its end;
the answers to come are part of the state. Bytes that are taken from outside of the block are a
fault, after which nothing is said.

A parcel that has all of a byte string in memory is one whose block is that string, and that
has nothing behind it.
-/

namespace OpenBinder

open Lib

/-- A parcel with `m_in`. `bytes` are the first `m_length` bytes of `m_data`, and `rest` are those
that the input still has. -/
structure InParcel where
  avail : ℤ
  base : ℤ
  pos : ℤ
  bytes : List Byte
  rest : List Byte
  delivers : ℕ → ℕ
  fault : Bool

/-- What a call returns, and the bytes that it stored for the caller. -/
abbrev Answer := ℤ × List Byte

namespace InParcel

/-- `SParcel(output, input, seek, bufferSize)`, with its buffer. -/
def start (bufferSize : BitVec 32) (input : List Byte) (delivers : ℕ → ℕ) : InParcel :=
  ⟨if bufferSize.toInt < 0 then 32 else bufferSize.toInt, 0, 0, [], input, delivers, false⟩

/-- `SParcel(data, len, ...)`. -/
def ofData (data : List Byte) : InParcel := ⟨data.length, 0, 0, data, [], fun _ => 0, false⟩

def position (s : InParcel) : ℤ := s.base + s.pos

/-- How many bytes the input delivers when `len` are asked for. -/
def delivered (len : ℕ) (s : InParcel) : ℕ := min (max 1 (s.delivers 0)) (min len s.rest.length)

/-- `SParcel::ReadBuffer`. It is never an error. -/
def readBuffer (len : ℕ) (s : InParcel) : List Byte × InParcel :=
  (s.rest.take (s.delivered len),
    { s with rest := s.rest.drop (s.delivered len), delivers := fun k => s.delivers (k + 1) })

/-- Bytes of the block from the position on. -/
def peek (amount : ℕ) (s : InParcel) : List Byte := (s.bytes.drop s.pos.toNat).take amount

/-- The parcel after `amount` bytes from the position on were looked at. -/
def look (amount : ℕ) (s : InParcel) : InParcel :=
  { s with fault := s.fault || decide (s.pos < 0 ∨ (s.bytes.length : ℤ) < s.pos + amount) }

/-- The end of `SParcel::Read`, which has `total` and wants `amount` more bytes. -/
def readMore (total : List Byte) (amount : ℕ) (s : InParcel) : Answer × InParcel :=
  if ssize amount ≥ s.avail then
    let (read, s) := s.readBuffer amount
    (((total.length + read.length : ℕ), total ++ read), { s with base := s.base + read.length })
  else
    let (chunk, s) := s.readBuffer s.avail.toNat
    let s := { s with bytes := chunk, base := s.base + s.pos }
    let amount := if chunk.length < ssize amount then chunk.length else amount
    (((total.length + amount : ℕ), total ++ chunk.take amount),
      { s with pos := amount, fault := s.fault || decide (chunk.length < amount) })

def read (amount : ℕ) (s : InParcel) : Answer × InParcel :=
  if ssize (s.pos + amount) ≤ s.bytes.length then
    ((ssize amount, s.peek amount), { s.look amount with pos := ssize (s.pos + amount) })
  else if s.pos < s.bytes.length then
    let total := s.bytes.drop s.pos.toNat
    readMore total (amount - total.length)
      { s with pos := s.bytes.length, fault := s.fault || decide (s.pos < 0) }
  else readMore [] amount s

/-- The loop of `SParcel::Drain`, with the count of bytes so far. -/
def drainLoop (amount : ℤ) : ℕ → ℤ → InParcel → ℤ × InParcel
  | 0, sofar, s => (sofar, s)
  | fuel + 1, sofar, s =>
    if sofar < amount then
      let base := s.base + s.bytes.length
      let (chunk, s) := s.readBuffer s.avail.toNat
      let s := { s with base := base, bytes := chunk }
      if chunk.length = 0 then (sofar, s) else drainLoop amount fuel (sofar + chunk.length) s
    else (sofar, s)

/-- `SParcel::Drain`. Every turn of its loop takes a byte of the input or is the last. -/
def drain (amount : ℕ) (s : InParcel) : Answer × InParcel :=
  if ssize (s.pos + amount) ≤ s.bytes.length then
    ((ssize amount, []), { s with pos := ssize (s.pos + amount) })
  else
    let (sofar, s) := drainLoop (ssize amount) (s.rest.length + 1) (s.bytes.length - s.pos) s
    if sofar ≥ ssize amount then ((ssize amount, []), { s with pos := sofar - ssize amount })
    else ((sofar, []), { s with pos := s.bytes.length })

def readPadded (amount : ℕ) (s : InParcel) : Answer × InParcel :=
  let padded := valueDataAlign amount
  if ssize (s.pos + padded) ≤ s.bytes.length then
    ((ssize padded, s.peek amount), { s.look amount with pos := ssize (s.pos + padded) })
  else
    let ((amt, bytes), s) := s.read amount
    if amt = ssize amount then
      if amount ≠ padded then
        let ((amt, _), s) := s.drain (padded - amount)
        ((if amt = (padded - amount : ℕ) then ssize padded else if amt < 0 then amt else badData,
          bytes), s)
      else ((amt, bytes), s)
    else ((if amt < 0 then amt else badData, bytes), s)

/-- `SParcel::ReadSmallData`. Its fast path is that of `Read`. -/
def readSmallData (s : InParcel) : Answer × InParcel := s.read 8

/-- What `SkipValue` has to skip after a header, if the value is not in it. -/
def valueLength (header : List Byte) : Option ℕ :=
  if unpackTypeLength (wordOf (header.take 4)) ≤ typeLengthMax then none
  else some (valueDataAlign (wordOf (header.drop 4)).toNat)

/-- The part of `SParcel::SkipValue` after the header. -/
def skipData (header : List Byte) (s : InParcel) : Answer × InParcel :=
  match valueLength header with
  | none => ((0, []), s)
  | some length => s.drain length

def skipValue (s : InParcel) : Answer × InParcel :=
  if ssize (s.pos + 8) ≤ s.bytes.length then
    skipData (s.peek 8) { s.look 8 with pos := ssize (s.pos + 8) }
  else
    let ((amt, header), s) := s.read 8
    if amt = 8 then skipData header s
    else ((if amt < 0 then amt else -1, []), s)

/-- A typed read: the bytes of its result that are stored. -/
def readFixed (size : ℕ) (s : InParcel) : Answer × InParcel :=
  if ssize (s.pos + size) ≤ s.bytes.length then
    ((0, s.peek size), { s.look size with pos := ssize (s.pos + size) })
  else
    let ((_, bytes), s) := s.read size
    ((0, bytes), s)

/-- `SParcel::ReadBool`. A byte that is read from the input is not looked at. -/
def readBool (s : InParcel) : Answer × InParcel :=
  if ssize (s.pos + 1) ≤ s.bytes.length then
    ((0, (s.peek 1).map fun it => if it ≠ 0 then 1 else 0),
      { s.look 1 with pos := ssize (s.pos + 1) })
  else
    let ((_, bytes), s) := s.read 1
    ((0, bytes), s)

def readInt8 : InParcel → Answer × InParcel := readFixed 1

def readInt16 : InParcel → Answer × InParcel := readFixed 2

def readInt32 : InParcel → Answer × InParcel := readFixed 4

def readInt64 : InParcel → Answer × InParcel := readFixed 8

def readFloat : InParcel → Answer × InParcel := readFixed 4

def readDouble : InParcel → Answer × InParcel := readFixed 8

end InParcel

/-! ### Calls -/

/-- The calls. -/
inductive InCall where
  | read (amount : BitVec 32)
  | readPadded (amount : BitVec 32)
  | drain (amount : BitVec 32)
  | readSmallData
  | skipValue
  | readBool
  | readInt8
  | readInt16
  | readInt32
  | readInt64
  | readFloat
  | readDouble

namespace InParcel

/-- A call. -/
def result (s : InParcel) : InCall → Answer × InParcel
  | .read amount => s.read amount.toNat
  | .readPadded amount => s.readPadded amount.toNat
  | .drain amount => s.drain amount.toNat
  | .readSmallData => s.readSmallData
  | .skipValue => s.skipValue
  | .readBool => s.readBool
  | .readInt8 => s.readInt8
  | .readInt16 => s.readInt16
  | .readInt32 => s.readInt32
  | .readInt64 => s.readInt64
  | .readFloat => s.readFloat
  | .readDouble => s.readDouble

end InParcel

/-- A byte string, on a machine where its length is a `ssize_t`. -/
abbrev Content := { bytes : List Byte // bytes.length < 2 ^ 31 }

/-- A parcel with an input, one that has the same bytes in memory, and their last answers. -/
structure Reading where
  buffered : InParcel
  memory : InParcel
  answers : Answer × Answer

namespace Reading

/-- The two parcels before the first call. -/
def start (bufferSize : BitVec 32) (content : Content) (delivers : ℕ → ℕ) : Reading :=
  ⟨InParcel.start bufferSize content.1 delivers, InParcel.ofData content.1, ((0, []), (0, []))⟩

/-- One call, made to both. -/
def step (s : Reading) (c : InCall) : Option Reading :=
  some ⟨(s.buffered.result c).2, (s.memory.result c).2,
    ((s.buffered.result c).1, (s.memory.result c).1)⟩

/-- **The parcels look alike**: they gave the same answer and are at the same position, and
neither read outside of its block. -/
structure Sound (s : Reading) : Prop where
  answers : s.answers.1 = s.answers.2
  position : s.buffered.position = s.memory.position
  buffered : s.buffered.fault = false
  memory : s.memory.fault = false

end Reading

end OpenBinder
