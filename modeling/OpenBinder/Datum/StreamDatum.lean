import OpenBinder.Lib.Scatter
import OpenBinder.Vector.FromValue

/-!
# Datums with streams

A `BStreamDatum` is bytes with a type. A class below it says what can be stored, and gives the memory
that is read and written; here an operation is told what these virtuals answer. Streams are opened on
a datum, and every operation tells which calls of `ReportChangeLocked` it makes.

* `readLocked`, `writeLocked`: the loops over the vectors of a caller.
* `setValueTypeLocked`, `setSizeLocked`, `setValueLocked`: what changes a datum as a whole.
* `restrictMode`, `initAtom`: how a stream is opened.
* `Stream.perform`: every operation on a stream, and `exposes` which of them `Inspect` gives out.
-/

namespace OpenBinder

open Lib

/-- `B_OUT_OF_RANGE`, `-ERANGE`. -/
def outOfRange : ℤ := -34

/-- `B_PERMISSION_DENIED`, `-EPERM`. -/
def permissionDenied : ℤ := -1

def ssizeMax : ℕ := 2 ^ 31 - 1

def writeEnd : BitVec 32 := 0x00010000#32

namespace IDatum

def readOnly : BitVec 32 := 0x0000#32
def writeOnly : BitVec 32 := 0x0001#32
def readWrite : BitVec 32 := 0x0002#32
def readWriteMask : BitVec 32 := 0x0003#32
def eraseDatum : BitVec 32 := 0x0200#32
def openAtEnd : BitVec 32 := 0x0400#32

end IDatum

/-- The contents of a datum, and `ValueTypeLocked`. -/
structure BStreamDatum where
  type : BitVec 32
  bytes : List Byte
  deriving DecidableEq

namespace BStreamDatum

def typeChanged : BitVec 32 := 0x0001#32
def sizeChanged : BitVec 32 := 0x0002#32
def dataChanged : BitVec 32 := 0x0004#32

/-- An editor that changes are made for. -/
abbrev Editor := Option ℕ

/-- A call of `ReportChangeLocked`. -/
structure Report where
  editor : Editor
  changes : BitVec 32
  start : ℤ
  length : ℤ
  deriving DecidableEq

/-! ### The virtuals -/

/-- A status that is not `B_OK`. -/
abbrev Failure := { err : ℤ // err ≠ 0 }

/-- What `StoreSizeLocked` does: it fails, or stores a size, or less where it has no room for more. -/
abbrev StoreSize := Except Failure ℕ

/-- What `StoreValueTypeLocked` does. -/
abbrev StoreType := Option Failure

/-- What `StartReadingLocked` returns: `NULL`, or memory with so many bytes of what is asked for. -/
abbrev StartReading := Option ℕ

/-- The memory `StartWritingLocked` gives: for how many bytes of what is asked for, what is in it
where nothing was before, and whether `FinishWritingLocked` can store it. -/
structure Room where
  size : ℕ
  byte : ℕ → Byte
  stores : Bool

/-- What `StartWritingLocked` returns. -/
abbrev StartWriting := Option Room

variable (d : BStreamDatum)

def sizeLocked : ℤ := d.bytes.length

/-- The byte at a position; nothing is in front of the datum or behind it. -/
def byteAt (i : ℤ) : Option Byte := if 0 ≤ i then d.bytes[i.toNat]? else none

def storeValueTypeLocked (storeType : StoreType) (type : BitVec 32) : ℤ × BStreamDatum :=
  match storeType with
  | some err => (err.1, d)
  | none => (0, { d with type })

/-- `StoreSizeLocked`. What is new is zero, and no datum has a negative size. -/
def storeSizeLocked (storeSize : StoreSize) (size : ℤ) : ℤ × BStreamDatum :=
  match storeSize with
  | .error err => (err.1, d)
  | .ok n =>
    if size < 0 then (outOfRange, d)
    else
      let n := min n size.toNat
      (0, { d with bytes := d.bytes.take n ++ List.replicate (n - d.bytes.length) 0 })

/-! ### Vectors -/

/-- The loop of `sum_iovec`. -/
def sumLoop (total : ℤ) : List ℕ → ℤ
  | [] => total
  | len :: vector =>
    if len > ssizeMax then outOfRange
    else if ssize (total + len) < 0 then outOfRange
    else sumLoop (ssize (total + len)) vector

def sumIovec (vector : List ℕ) : ℤ := sumLoop 0 vector

/-- What a call of `ReadLocked` returns, and what it has put into the elements of the vector. -/
structure Read where
  amt : ℤ
  parts : List (List (Option Byte))
  deriving DecidableEq

/-- The loop of `ReadLocked`, from the position `pos` on. `remain` stays as it is. -/
def readLoop (remain : ℤ) : List ℕ → ℤ → List (List (Option Byte))
  | [], _ => []
  | len :: vector, pos =>
    if (len : ℤ) ≤ remain then
      ((List.range len).map fun i : ℕ => d.byteAt (pos + i)) :: readLoop remain vector (pos + len)
    else
      ((List.range remain.toNat).map fun i : ℕ => d.byteAt (pos + i)) :: vector.map fun _ => []

/-- `ReadLocked`, into elements of the given lengths. -/
def readLocked (position : ℤ) (vector : List ℕ) (start : StartReading) : Read :=
  let total := sumIovec vector
  if total < 0 then ⟨total, vector.map fun _ => []⟩
  else
    match start with
    | none => ⟨0, vector.map fun _ => []⟩
    | some n =>
      let total := min (n : ℤ) total
      ⟨total, d.readLoop total vector position⟩

/-- The loop of `WriteLocked`: what it puts into the memory, one byte after the other. -/
def writeLoop (remain : ℤ) : List (List Byte) → List Byte
  | [] => []
  | bytes :: vector =>
    if (bytes.length : ℤ) ≤ remain then bytes ++ writeLoop remain vector
    else bytes.take remain.toNat

/-- What a call of `WriteLocked` returns, what it has put into the memory, and the datum. -/
structure Written where
  amt : ℤ
  bytes : List Byte
  datum : BStreamDatum

/-- The datum after `FinishWritingLocked`: bytes are put over those from a position on. It ends
behind them where it was shorter, and with `B_WRITE_END`. -/
def finishWriting (position total : ℤ) (flags : BitVec 32) (byte : ℕ → Byte) (bytes : List Byte) :
    BStreamDatum :=
  let wlen := position + total
  let writeLen := if d.sizeLocked > wlen ∧ flags &&& writeEnd = 0 then d.sizeLocked else wlen
  { d with bytes := (List.range writeLen.toNat).map fun i : ℕ =>
      if position ≤ i ∧ i < position + bytes.length then bytes.getD (i - position).toNat 0
      else d.bytes.getD i (byte i) }

def writeLocked (position : ℤ) (vector : List (List Byte)) (flags : BitVec 32)
    (start : StartWriting) : Written :=
  let total := sumIovec (vector.map List.length)
  if total < 0 then ⟨total, [], d⟩
  else
    match start with
    | none => ⟨noMemory, [], d⟩
    | some room =>
      let total := min (room.size : ℤ) total
      let bytes := writeLoop total vector
      ⟨total, bytes, if room.stores then d.finishWriting position total flags room.byte bytes else d⟩

/-- `write_wrapper_l`, for a stream with an editor or for none. -/
def writeWrapper (editor : Editor) (position : ℤ) (vector : List (List Byte)) (flags : BitVec 32)
    (start : StartWriting) : Written × List Report :=
  let w := d.writeLocked position vector flags start
  if w.amt > 0 then
    let changes := dataChanged |||
      if d.sizeLocked ≠ w.datum.sizeLocked then sizeChanged else 0
    (w, [⟨editor, changes, position, w.amt⟩])
  else (w, [])

/-! ### The datum as a whole -/

/-- `SetValueTypeLocked`: the status, the datum, and the reports. -/
def setValueTypeLocked (storeType : StoreType) (valueType : BitVec 32) :
    ℤ × BStreamDatum × List Report :=
  if d.type ≠ valueType then
    let (err, d') := d.storeValueTypeLocked storeType valueType
    (err, d', if err = 0 then [⟨none, typeChanged, -1, -1⟩] else [])
  else (0, d, [])

def setSizeLocked (storeSize : StoreSize) (size : ℤ) : ℤ × BStreamDatum × List Report :=
  let oldSize := d.sizeLocked
  if oldSize ≠ size then
    let (err, d') := d.storeSizeLocked storeSize size
    if err = 0 then
      let size := d'.sizeLocked
      if oldSize ≠ size then
        (err, d', [if size > oldSize then ⟨none, sizeChanged ||| dataChanged, oldSize, size - oldSize⟩
          else ⟨none, sizeChanged ||| dataChanged, size, oldSize - size⟩])
      else (err, d', [])
    else (err, d', [])
  else (0, d, [])

/-- The answers of the virtuals while a value is stored: `ValueLocked`, and those of
`StoreValueLocked`. -/
structure StoreValue where
  value : SValue
  size : StoreSize
  writing : StartWriting
  type : StoreType

def storeValueLocked (store : StoreValue) (value : SValue) : ℤ × BStreamDatum × List Report :=
  match value.bytes with
  | none => (badType, d, [])
  | some bytes =>
    let (err, d1) := d.storeSizeLocked store.size bytes.length
    if err = 0 then
      let (w, reports) := d1.writeWrapper none 0 [bytes] 0 store.writing
      if w.amt ≥ 0 then (0, (w.datum.storeValueTypeLocked store.type (unpackTypeCode value.mType)).2, reports)
      else (w.amt, w.datum, reports)
    else (err, d1, [])

def setValueLocked (store : StoreValue) (value : SValue) : ℤ × BStreamDatum × List Report :=
  if store.value.compare value ≠ .eq then
    let oldType := d.type
    let oldSize := d.sizeLocked
    let (err, d', reports) := d.storeValueLocked store value
    if err = 0 then
      let changes := dataChanged ||| (if oldType ≠ unpackTypeCode value.mType then typeChanged else 0) |||
        (if oldSize ≠ value.length then sizeChanged else 0)
      let length := if oldSize ≥ value.length then oldSize else value.length
      (err, d', reports ++ [⟨none, changes, 0, length⟩])
    else (err, d', reports)
  else (0, d, [])

/-! ### Streams -/

/-- What `RestrictMode` gives for a mode that is not allowed. -/
def refusedMode : BitVec 32 := 0xfffffff#32

def restrictMode (requested limit : BitVec 32) : BitVec 32 :=
  let limit := limit &&& IDatum.readWriteMask
  let newMode := requested &&& IDatum.readWriteMask
  let result := fun newMode => (requested &&& ~~~IDatum.readWriteMask) ||| newMode
  if limit = IDatum.readOnly then
    if newMode = IDatum.writeOnly then refusedMode
    else if newMode = IDatum.readWrite then result IDatum.readOnly
    else result newMode
  else if limit = IDatum.writeOnly then
    if newMode = IDatum.readOnly then refusedMode
    else if newMode = IDatum.readWrite then result IDatum.writeOnly
    else result newMode
  else result newMode

/-- A stream: `m_mode`, `m_editor` and `m_pos`. -/
structure Stream where
  mode : BitVec 32
  editor : Editor
  pos : ℤ
  deriving DecidableEq

/-- The mode of a stream lets it read. -/
def Stream.reads (s : Stream) : Prop :=
  s.mode &&& IDatum.readWriteMask = IDatum.readOnly ∨
    s.mode &&& IDatum.readWriteMask = IDatum.readWrite

/-- The mode of a stream lets it write. -/
def Stream.writes (s : Stream) : Prop :=
  s.mode &&& IDatum.readWriteMask = IDatum.writeOnly ∨
    s.mode &&& IDatum.readWriteMask = IDatum.readWrite

instance (s : Stream) : Decidable s.reads := inferInstanceAs (Decidable (_ ∨ _))
instance (s : Stream) : Decidable s.writes := inferInstanceAs (Decidable (_ ∨ _))

/-- `Stream::InitAtom`: the stream, the datum, and the reports. -/
def initAtom (mode type : BitVec 32) (editor : Editor) (storeSize : StoreSize)
    (storeType : StoreType) : Stream × BStreamDatum × List Report :=
  let erase := mode &&& IDatum.eraseDatum ≠ 0
  let length := if erase then d.sizeLocked else -1
  let (err, d1) := if erase ∧ length ≠ 0 then d.storeSizeLocked storeSize 0 else (-1, d)
  let changes := if err = 0 then sizeChanged ||| dataChanged else 0
  let pos := if mode &&& IDatum.openAtEnd ≠ 0 then d1.sizeLocked else 0
  let (err, d2) := if type ≠ 0 ∧ d1.type ≠ type then d1.storeValueTypeLocked storeType type
    else (-1, d1)
  let changes := changes ||| if err = 0 then typeChanged else 0
  (⟨mode, editor, pos⟩, d2, if changes ≠ 0 then [⟨editor, changes, 0, length⟩] else [])

/-- `Open` of a datum with the mode `m_mode`: the stream, where there is one, the datum, and the
reports. -/
def openStream (m_mode mode : BitVec 32) (editor : Editor) (newType : BitVec 32)
    (storeSize : StoreSize) (storeType : StoreType) :
    Option Stream × BStreamDatum × List Report :=
  let mode := restrictMode mode m_mode
  if mode = refusedMode then (none, d, [])
  else
    let (s, d', reports) := d.initAtom mode newType editor storeSize storeType
    (some s, d', reports)

/-- A place to seek from. -/
inductive SeekMode where
  | set
  | cur
  | «end»
  | other
  deriving DecidableEq

namespace Stream

/-- An operation on a stream, with the answers of the virtuals. -/
inductive Op where
  | readV (vector : List ℕ) (start : StartReading)
  | writeV (vector : List (List Byte)) (flags : BitVec 32) (start : StartWriting)
  | sync (status : ℤ)
  | seek (position : ℤ) (mode : SeekMode)
  | position
  | size
  | setSize (size : ℤ) (store : StoreSize)
  | readAtV (position : ℤ) (vector : List ℕ) (start : StartReading)
  | writeAtV (position : ℤ) (vector : List (List Byte)) (start : StartWriting)

/-- What an operation returns, what it has put into the elements of a vector or taken out of them, the
stream and the datum after it, and the reports. -/
structure Result where
  result : ℤ
  parts : List (List (Option Byte))
  written : List Byte
  stream : Stream
  datum : BStreamDatum
  reports : List Report

def readV (s : Stream) (vector : List ℕ) (start : StartReading) : Result :=
  let r := d.readLocked s.pos vector start
  ⟨r.amt, r.parts, [], { s with pos := if r.amt > 0 then s.pos + r.amt else s.pos }, d, []⟩

def writeV (s : Stream) (vector : List (List Byte)) (flags : BitVec 32) (start : StartWriting) :
    Result :=
  let (w, reports) := d.writeWrapper s.editor s.pos vector flags start
  ⟨w.amt, [], w.bytes, { s with pos := if w.amt > 0 then s.pos + w.amt else s.pos }, w.datum, reports⟩

def seek (s : Stream) (position : ℤ) : SeekMode → Stream
  | .set => { s with pos := position }
  | .end => { s with pos := d.sizeLocked - position }
  | .cur => { s with pos := s.pos + position }
  | .other => s

def setSize (s : Stream) (size : ℤ) (store : StoreSize) : Result :=
  if s.writes then
    let (err, d', reports) := d.setSizeLocked store size
    ⟨err, [], [], s, d', reports⟩
  else ⟨permissionDenied, [], [], s, d, []⟩

def readAtV (s : Stream) (position : ℤ) (vector : List ℕ) (start : StartReading) : Result :=
  if s.reads then
    let r := d.readLocked position vector start
    ⟨r.amt, r.parts, [], s, d, []⟩
  else ⟨permissionDenied, vector.map fun _ => [], [], s, d, []⟩

def writeAtV (s : Stream) (position : ℤ) (vector : List (List Byte)) (start : StartWriting) :
    Result :=
  if s.writes then
    let w := d.writeLocked position vector 0 start
    ⟨w.amt, [], w.bytes, s, w.datum, []⟩
  else ⟨permissionDenied, [], [], s, d, []⟩

/-- **An operation on a stream.** -/
def perform (s : Stream) : Op → Result
  | .readV vector start => s.readV d vector start
  | .writeV vector flags start => s.writeV d vector flags start
  | .sync status => ⟨status, [], [], s, d, []⟩
  | .seek position mode => ⟨(s.seek d position mode).pos, [], [], s.seek d position mode, d, []⟩
  | .position => ⟨s.pos, [], [], s, d, []⟩
  | .size => ⟨d.sizeLocked, [], [], s, d, []⟩
  | .setSize size store => s.setSize d size store
  | .readAtV position vector start => s.readAtV d position vector start
  | .writeAtV position vector start => s.writeAtV d position vector start

/-- The interfaces that `Inspect` gives out: those to seek and for the storage always, the others by
the mode. -/
def exposes (s : Stream) : Op → Prop
  | .readV .. => s.reads
  | .writeV .. | .sync .. => s.writes
  | _ => True

end Stream

end BStreamDatum

namespace SDatumGeneratorInt

/-- `StartReadingAtLocked` for a value of the given length: what `inoutSize` is then, and `none` for
`NULL`. -/
def startReadingAt (len : ℕ) (position inoutSize : ℤ) : Option ℤ :=
  if position > len then none
  else if size (size position + inoutSize) > len then some (ssize (len - size position))
  else some inoutSize

/-- `StartWritingAtLocked`, where `begins` is whether `BeginEditBytes` gives memory: `none` for `NULL`.
It never changes `inoutSize` else. -/
def startWritingAt (begins : Bool) (position inoutSize : ℤ) : Option ℤ :=
  if position + inoutSize > 2 ^ 32 - 1 then none
  else if begins then some inoutSize else none

end SDatumGeneratorInt

end OpenBinder
