import OpenBinder.Parcel.Storage

/-!
# Writing to a stream

A parcel with an `IByteOutput` behind it. Its block is a buffer: what does not fit is preceded by
a `Flush`, and what is not smaller than the buffer goes to the output without it.

The output takes as many bytes of each `Write` as it likes, and `malloc` gives a block or not;
the answers to come are part of the state. Bytes that are put outside of the block are a fault,
after which nothing is said.
-/

namespace OpenBinder

open Lib

/-- Bytes of the caller, on a machine with 32-bit sizes. -/
abbrev Buffer := { bytes : List Byte // bytes.length < 2 ^ 32 }

/-- A parcel with `m_out`. `bytes` are the first `m_length` bytes of `m_data`, and `sent` are
those that the output has. -/
structure OutParcel where
  data : Block
  avail : ℤ
  base : ℤ
  pos : ℤ
  bytes : List Byte
  sent : List Byte
  accepts : ℕ → ℕ
  mallocs : ℕ → Bool
  fault : Bool

namespace OutParcel

/-- `SParcel(output, input, seek, bufferSize)`, with its buffer. -/
def start (bufferSize : BitVec 32) (accepts : ℕ → ℕ) (mallocs : ℕ → Bool) : OutParcel :=
  let bufferSize := if bufferSize.toInt < 0 then 32 else bufferSize.toInt
  ⟨if bufferSize = 0 then .null else if bufferSize ≤ 32 then .inline else .outside bufferSize,
    bufferSize, 0, 0, [], [], accepts, mallocs, false⟩

def position (s : OutParcel) : ℤ := s.base + s.pos

def writeBuffer (buffer : List Byte) (s : OutParcel) : ℕ × OutParcel :=
  let n := min (s.accepts 0) buffer.length
  (n, { s with sent := s.sent ++ buffer.take n, accepts := fun k => s.accepts (k + 1) })

def flush (s : OutParcel) : ℕ × OutParcel :=
  let length := s.bytes.length
  let (written, s) := s.writeBuffer s.bytes
  if written < length then
    (written, { s with
      bytes := s.bytes.drop written
      base := s.base + written
      pos := (s.bytes.drop written).length })
  else (written, { s with base := s.base + written, bytes := [], pos := 0 })

/-- Bytes copied to the position, which moves past them. -/
def put (s : OutParcel) (buffer : List Byte) : OutParcel :=
  { s with
    bytes := s.bytes.take s.pos.toNat ++ buffer ++ s.bytes.drop (s.pos.toNat + buffer.length)
    pos := s.pos + buffer.length
    fault := s.fault || decide (s.pos + buffer.length > s.data.size) }

/-- `SParcel::ReAlloc` to more than there is, whose callers put `m_length` back. -/
def reAlloc (len : ℤ) (s : OutParcel) : Bool × OutParcel :=
  if len ≤ 32 then (s.data ≠ .null, { s with avail := len })
  else
    let s' := { s with mallocs := fun k => s.mallocs (k + 1) }
    if s.mallocs 0 then (true, { s' with data := .outside len, avail := len }) else (false, s')

/-- What `Write` asks `ReAlloc` for. -/
def grown (avail need : ℤ) : ℤ :=
  if need > (ssize (avail * 3)).tdiv 2 then need else (ssize (avail * 3)).tdiv 2

/-- The end of `SParcel::Write`, which places the bytes that remain in the buffer. -/
def writeRest (total : ℕ) (buffer : List Byte) (s : OutParcel) : ℤ × OutParcel :=
  let need := ssize (buffer.length + s.pos)
  let (found, s) := if need > s.avail then s.reAlloc (grown s.avail need) else (true, s)
  let buffer := if found then buffer else buffer.take (s.avail - s.pos).toNat
  if !found && buffer.isEmpty then (noMemory, s) else ((total + buffer.length : ℕ), s.put buffer)

def write (buffer : List Byte) (s : OutParcel) : ℤ × OutParcel :=
  if ssize (s.pos + buffer.length) ≤ s.avail then (buffer.length, s.put buffer)
  else
    let total := if s.pos < s.bytes.length then s.bytes.length - s.pos.toNat else 0
    let s := if s.pos < s.bytes.length then s.put (buffer.take total) else s
    let buffer := buffer.drop total
    let s := s.flush.2
    if s.pos = 0 ∧ ssize buffer.length ≥ s.avail then
      let (written, s) := s.writeBuffer buffer
      ((total + written : ℕ), s)
    else writeRest total buffer s

/-- The bytes of padding. -/
def padding (amount : ℕ) : List Byte := List.replicate (valueDataAlign amount - amount) 0

/-- `SParcel::WritePadded`: the padding is masked in the block, or written after the bytes. -/
def writePadded (buffer : List Byte) (s : OutParcel) : ℤ × OutParcel :=
  let padded := valueDataAlign buffer.length
  if ssize (s.pos + padded) ≤ s.avail then (padded, s.put (buffer ++ padding buffer.length))
  else
    let (written, s) := s.write buffer
    if written = ssize buffer.length then
      if padded ≠ buffer.length then
        let (written, s) := s.write (padding buffer.length)
        (if written = (padding buffer.length).length then padded else if written < 0 then written else -1,
          s)
      else (written, s)
    else (if written < 0 then written else -1, s)

/-- The bytes of a header. -/
def header (packedType packedData : BitVec 32) : List Byte :=
  wordBytes packedType ++ wordBytes packedData

/-- `SParcel::WriteSmallData`. Its fast path is that of `Write`. -/
def writeSmallData (packedType packedData : BitVec 32) (s : OutParcel) : ℤ × OutParcel :=
  s.write (header packedType packedData)

def writeLargeData (packedType length : BitVec 32) (data : Option (List Byte)) (s : OutParcel) :
    ℤ × OutParcel :=
  let (result, s) := s.writeSmallData packedType length
  if result = 8 then
    match data with
    | none => (result, s)
    | some data =>
      let (result, s) := s.writePadded data
      if result ≥ 0 then (result + 8, s) else (result, s)
  else (if result ≥ 0 then badData else result, s)

end OutParcel

/-! ### Calls -/

/-- The calls. -/
inductive OutCall where
  | write (buffer : Buffer)
  | writePadded (buffer : Buffer)
  | writeSmallData (packedType packedData : BitVec 32)
  | writeLargeData (packedType : BitVec 32) (data : Buffer)
  | writeLargeHeader (packedType length : BitVec 32)
  | flush

/-- A parcel, and the bytes that the calls reported as written. -/
structure Writing where
  parcel : OutParcel
  reported : List Byte

namespace Writing

/-- The bytes that a call has to write. -/
def bytes : OutCall → List Byte
  | .write buffer => buffer
  | .writePadded buffer => buffer.1 ++ OutParcel.padding buffer.1.length
  | .writeSmallData packedType packedData => OutParcel.header packedType packedData
  | .writeLargeData packedType data =>
    OutParcel.header packedType (BitVec.ofNat 32 data.1.length) ++
      (data.1 ++ OutParcel.padding data.1.length)
  | .writeLargeHeader packedType length => OutParcel.header packedType length
  | .flush => []

/-- A call: its result and the parcel. -/
def result (s : OutParcel) : OutCall → ℤ × OutParcel
  | .write buffer => s.write buffer.1
  | .writePadded buffer => s.writePadded buffer.1
  | .writeSmallData packedType packedData => s.writeSmallData packedType packedData
  | .writeLargeData packedType data =>
    s.writeLargeData packedType (BitVec.ofNat 32 data.1.length) (some data.1)
  | .writeLargeHeader packedType length => s.writeLargeData packedType length none
  | .flush => (s.flush.1, s.flush.2)

/-- One call. A result that is not an error is the number of bytes written. -/
def step (s : Writing) (c : OutCall) : Option Writing :=
  some ⟨(result s.parcel c).2, s.reported ++ (bytes c).take (result s.parcel c).1.toNat⟩

/-- **Nothing is lost or reordered**: the output and the buffer have the reported bytes, and the
position is their number. -/
structure Sound (s : Writing) : Prop where
  bytes : s.parcel.sent ++ s.parcel.bytes = s.reported
  position : s.parcel.position = s.reported.length
  fault : s.parcel.fault = false

end Writing

end OpenBinder
