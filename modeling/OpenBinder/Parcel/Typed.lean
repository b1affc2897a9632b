import OpenBinder.Parcel.Wire

/-!
# Typed data

`WriteTypedData`, `ReadTypedData` and `TypedDataSize` of a parcel without streams: three switches
over the type codes that have to agree on what each type is on the wire, and on what stands there
for a `NULL` pointer.

* Numbers up to 32 bits are in the header. Longer ones, points, rectangles and strings from four
  characters on come after it, padded.
* A binder is a `flat_binder_object`, here by its words. An `SValue` is archived; the objects in
  it are by the binders they are flattened to.

`ReadTypedData` is modelled with a place for its result, as a release build has it, where a type
that does not match is an error.
-/

namespace OpenBinder

open Lib

/-- `B_BINDER_READ_NULL_VALUE`. -/
def readNullValue : ℤ := (BitVec.ofNat 32 0x80004a0b).toInt

def undefinedType : BitVec 32 := typeCode 0#32

/-- `B_FLOAT_TYPE`, `'flt'`. -/
def floatType : BitVec 32 := typeCode 0x666c74#32

/-- `B_DOUBLE_TYPE`, `'dbl'`. -/
def doubleType : BitVec 32 := typeCode 0x64626c#32

/-- `B_INT64_TYPE`, `'i64'`. -/
def int64Type : BitVec 32 := typeCode 0x693634#32

/-- `B_STRING_TYPE`, `'str'`. -/
def stringType : BitVec 32 := typeCode 0x737472#32

/-- `B_POINT_TYPE`, `'pnt'`. -/
def pointType : BitVec 32 := typeCode 0x706e74#32

/-- `B_RECT_TYPE`, `'rct'`. -/
def rectType : BitVec 32 := typeCode 0x726374#32

def kPackedLargeBinderType : BitVec 32 := packLargeType (typeCode 0x73622a#32)

def kPackedLargeBinderHandleType : BitVec 32 := packLargeType (typeCode 0x73682a#32)

def kPackedLargeBinderWeakHandleType : BitVec 32 := packLargeType (typeCode 0x77682a#32)

/-- A `flat_binder_object`: what a binder is flattened to. -/
structure FlatBinder where
  type : BitVec 32
  binder : BitVec 32
  cookie : BitVec 32

/-- What `unflatten_binder` makes an `sptr` of. -/
def FlatBinder.isStrong (o : FlatBinder) : Bool :=
  o.type == kPackedLargeBinderType || o.type == kPackedLargeBinderHandleType

/-- What `unflatten_binder` makes a `wptr` of. -/
def FlatBinder.isWeak (o : FlatBinder) : Bool :=
  o.type == kPackedLargeBinderType || o.type == kPackedLargeBinderWeakType ||
    o.type == kPackedLargeBinderHandleType || o.type == kPackedLargeBinderWeakHandleType

namespace SValue

mutual

/-- Whether the errors in a value have the codes that `set_error` gives them. -/
def errorsNegative : SValue → Bool
  | map ⟨_, _, maps⟩ => allErrorsNegative maps
  | v => !v.isError || decide (v.errorCheck < 0)

/-- Whether the errors in a table have the codes that `set_error` gives them. -/
def allErrorsNegative : List Pair → Bool
  | [] => true
  | (k, v) :: rest => errorsNegative k && errorsNegative v && allErrorsNegative rest

end

/-- A value as it can be built: every node passes `check_integrity`, and its errors are errors. -/
structure Built (v : SValue) : Prop where
  sound : v.isSound = true
  negative : v.errorsNegative = true

end SValue

/-- Bytes of a fixed number. -/
abbrev Raw (n : ℕ) := { bytes : List Byte // bytes.length = n }

/-- The type codes of the switches. `other` is a code that none of them has. -/
inductive DataType where
  | bool
  | float
  | double
  | char
  | int8
  | uint8
  | int16
  | uint16
  | int32
  | ssizeT
  | uint32
  | sizeT
  | wchar
  | int64
  | uint64
  | nsecs
  | bigtime
  | offT
  | binder
  | binderWeak
  | value
  | constchar
  | string
  | point
  | rect
  | undefined
  | null
  | other
  deriving DecidableEq

/-- What a pointer to data of a type points to. A string is by its characters. -/
abbrev DataType.Value : DataType → Type
  | .bool => Bool
  | .char | .int8 | .uint8 => BitVec 8
  | .int16 | .uint16 => BitVec 16
  | .float | .int32 | .ssizeT | .uint32 | .sizeT | .wchar => BitVec 32
  | .double | .int64 | .uint64 | .nsecs | .bigtime | .offT | .point => Raw 8
  | .rect => Raw 16
  | .binder => { o : FlatBinder // o.isStrong = true }
  | .binderWeak => { o : FlatBinder // o.isWeak = true }
  | .value => SValue
  | .constchar | .string => List Byte
  | .undefined | .null | .other => Unit

namespace SParcel

/-! ### Writing -/

section Write

-- The cookies of the objects in values, by their type and data words, and the word behind the
-- terminating zero of a string, of which short strings write a part.
variable (cookie : BitVec 32 → BitVec 32 → BitVec 32) (behind : List Byte → BitVec 32)

/-- What `WriteBinder` flattens the objects in values to. -/
def flat (type data : BitVec 32) : BitVec 32 × BitVec 32 := (data, cookie type data)

/-- `SParcel::WriteTypeHeaderAndData`, with the word that is behind the data in memory. -/
def writeTypeHeaderAndData (type : BitVec 32) (data : List Byte) (next : BitVec 32) (p : SParcel) :
    Except Fault (ℤ × SParcel) :=
  if data.length ≤ typeLengthMax then
    p.writeSmallData (packSmallType type data.length) (wordOf ((data ++ wordBytes next).take 4))
  else p.writeLargeData (packLargeType type) data

/-- A number in a header. -/
def writeInt32Data (value : BitVec 32) (p : SParcel) : Except Fault (ℤ × SParcel) :=
  p.writeSmallData (packSmallType int32Type 4) value

/-- A string with its terminating zero. -/
def writeStringData (text : List Byte) (p : SParcel) : Except Fault (ℤ × SParcel) :=
  p.writeTypeHeaderAndData stringType (text ++ [0]) (behind text)

def writeTypedData : (type : DataType) → Option type.Value → SParcel → Except Fault (ℤ × SParcel)
  | .undefined, _, p => p.writeSmallData (packSmallType undefinedType 0) 0
  | _, none, p => p.writeSmallData (packSmallType nullType 0) 0
  | .bool, some value, p => p.writeInt32Data (if value then 1 else 0)
  | .float, some value, p => p.writeSmallData (packSmallType floatType 4) value
  | .double, some value, p => p.writeTypeHeaderAndData doubleType value.1 0
  | .char, some value, p => p.writeInt32Data (value.signExtend 32)
  | .int8, some value, p => p.writeInt32Data (value.signExtend 32)
  | .uint8, some value, p => p.writeInt32Data (value.setWidth 32)
  | .int16, some value, p => p.writeInt32Data (value.signExtend 32)
  | .uint16, some value, p => p.writeInt32Data (value.setWidth 32)
  | .int32, some value, p => p.writeInt32Data value
  | .ssizeT, some value, p => p.writeInt32Data value
  | .uint32, some value, p => p.writeInt32Data value
  | .sizeT, some value, p => p.writeInt32Data value
  | .wchar, some value, p => p.writeInt32Data value
  | .int64, some value, p => p.writeTypeHeaderAndData int64Type value.1 0
  | .uint64, some value, p => p.writeTypeHeaderAndData int64Type value.1 0
  | .nsecs, some value, p => p.writeTypeHeaderAndData int64Type value.1 0
  | .bigtime, some value, p => p.writeTypeHeaderAndData int64Type value.1 0
  | .offT, some value, p => p.writeTypeHeaderAndData int64Type value.1 0
  | .binder, some value, p => p.writeBinder value.1.type value.1.binder value.1.cookie
  | .binderWeak, some value, p => p.writeBinder value.1.type value.1.binder value.1.cookie
  | .value, some value, p => value.archive (flat cookie) p
  | .constchar, some value, p => p.writeStringData behind value
  | .string, some value, p => p.writeStringData behind value
  | .point, some value, p => p.writeTypeHeaderAndData pointType value.1 0
  | .rect, some value, p => p.writeTypeHeaderAndData rectType value.1 0
  | .null, some _, p => p.writeSmallData (packSmallType nullType 0) 0
  | .other, some _, p => .ok (badType, p)

end Write

/-- How long a string is on the wire. -/
def stringDataSize (text : List Byte) : ℤ :=
  if text.length + 1 ≤ typeLengthMax then 8 else 8 + valueDataAlign (text.length + 1)

def typedDataSize : (type : DataType) → Option type.Value → ℤ
  | .undefined, _ => 8
  | _, none => 8
  | .bool, some _ => 8
  | .float, some _ => 8
  | .char, some _ => 8
  | .int8, some _ => 8
  | .uint8, some _ => 8
  | .int16, some _ => 8
  | .uint16, some _ => 8
  | .int32, some _ => 8
  | .uint32, some _ => 8
  | .sizeT, some _ => 8
  | .ssizeT, some _ => 8
  | .wchar, some _ => 8
  | .double, some _ => 16
  | .int64, some _ => 16
  | .uint64, some _ => 16
  | .nsecs, some _ => 16
  | .bigtime, some _ => 16
  | .offT, some _ => 16
  | .binder, some _ => 16
  | .binderWeak, some _ => 16
  | .value, some value => value.archivedSize
  | .constchar, some value => stringDataSize value
  | .string, some value => stringDataSize value
  | .point, some _ => badType
  | .rect, some _ => badType
  | .null, some _ => 8
  | .other, some _ => badType

/-! ### Reading -/

/-- `SParcel::ReadFlatBinderObject`, with its result. -/
def readFlatBinderObject (p : SParcel) : Except Fault (FlatBinder × ℤ × SParcel) := do
  let (bytes, amt, p) ← p.read 16 16
  return (⟨wordOf (bytes.take 4), wordOf ((bytes.drop 8).take 4), wordOf (bytes.drop 12)⟩, amt, p)

/-- The result of `SParcel::Drain`. -/
def drained (p : SParcel) (amount : ℤ) : ℤ :=
  if ssize (p.pos + amount) ≤ p.length then ssize amount
  else if p.length - p.pos < ssize amount then p.length - p.pos else ssize amount

/-- `SParcel::ReadPadded` to a place with room for `room`. -/
def readPadded (p : SParcel) (amount room : ℕ) : Except Fault (List Byte × ℤ × SParcel) :=
  let padded := valueDataAlign amount
  if ssize (p.pos + padded) ≤ p.length then
    if 0 ≤ p.pos ∧ p.pos + padded ≤ p.length ∧ amount ≤ room then
      .ok ((p.data.drop p.pos.toNat).take amount, padded, { p with pos := p.pos + padded })
    else .error .memory
  else do
    let (bytes, amt, p) ← p.read amount room
    if amt = ssize amount then
      if amount ≠ padded then
        let amt := p.drained (padded - amount : ℕ)
        return (bytes, if amt = (padded - amount : ℕ) then ssize padded else if amt < 0 then amt else badData,
          p.drain (padded - amount : ℕ))
      else return (bytes, amt, p)
    else return (bytes, if amt < 0 then amt else badData, p)

/-- What `ReadTypedData` comes back with: a result, what it stored for the caller as a whole, and
the parcel. -/
abbrev TypedResult (α : Type) := ℤ × Option α × SParcel

/-- A number in a header of a type. -/
def readInHeader {α : Type} (expected : BitVec 32) (convert : BitVec 32 → α) (type data : BitVec 32)
    (p : SParcel) : Except Fault (TypedResult α) :=
  if type = expected then .ok (0, some (convert data), p) else .ok (badType, none, p)

/-- A number of eight bytes that comes after a header of a type. -/
def readAfterHeader (expected : BitVec 32) (type : BitVec 32) (p : SParcel) : Except Fault (TypedResult (Raw 8)) :=
  if type = expected then do
    let (bytes, _, p) ← p.read 8 8
    return (0, if h : bytes.length = 8 then some ⟨bytes, h⟩ else none, p)
  else .ok (badType, none, p)

/-- The case of a string. A length of zero in the header is one byte less than there is. -/
def readStringData (type data : BitVec 32) (p : SParcel) : Except Fault (TypedResult (List Byte)) :=
  if unpackTypeCode type = stringType then
    let len := unpackTypeLength type
    if len ≤ typeLengthMax then
      if len = 0 then .error .memory
      else .ok (0, some ((wordBytes data).take (len - 1)), p)
    else do
      let size := data.toNat
      let (bytes, amt, p) ← p.readPadded size size
      if amt ≥ ssize size then return (0, some (bytes.take (size - 1)), p)
      else return (if amt < 0 then amt else badData, none, p)
  else .ok (badType, none, p)

/-- The case of a point. What is not read whole falls through to that of a rectangle, which the
type is not. -/
def readPointData (type : BitVec 32) (p : SParcel) : Except Fault (TypedResult (Raw 8)) :=
  if type = packLargeType pointType then do
    let (bytes, amt, p) ← p.read 8 8
    if h : amt = 8 ∧ bytes.length = 8 then return (0, some ⟨bytes, h.2⟩, p)
    else return (badType, none, p)
  else .ok (badType, none, p)

/-- The case of a rectangle, which is not an error when it is not read whole. -/
def readRectData (type : BitVec 32) (p : SParcel) : Except Fault (TypedResult (Raw 16)) :=
  if type = packLargeType rectType then do
    let (bytes, _, p) ← p.read 16 16
    return (0, if h : bytes.length = 16 then some ⟨bytes, h⟩ else none, p)
  else .ok (badType, none, p)

/-- The switch over the types that have a header of their own. -/
def readHeaderData : (type : DataType) → BitVec 32 → BitVec 32 → SParcel → Except Fault (TypedResult type.Value)
  | .bool, type, data, p => readInHeader (packSmallType int32Type 4) (fun d => decide (d ≠ 0)) type data p
  | .float, type, data, p => readInHeader (packSmallType floatType 4) id type data p
  | .double, type, _, p => readAfterHeader (packLargeType floatType) type p
  | .char, type, data, p => readInHeader (packSmallType int32Type 4) (·.setWidth 8) type data p
  | .int8, type, data, p => readInHeader (packSmallType int32Type 4) (·.setWidth 8) type data p
  | .uint8, type, data, p => readInHeader (packSmallType int32Type 4) (·.setWidth 8) type data p
  | .int16, type, data, p => readInHeader (packSmallType int32Type 4) (·.setWidth 16) type data p
  | .uint16, type, data, p => readInHeader (packSmallType int32Type 4) (·.setWidth 16) type data p
  | .int32, type, data, p => readInHeader (packSmallType int32Type 4) id type data p
  | .uint32, type, data, p => readInHeader (packSmallType int32Type 4) id type data p
  | .sizeT, type, data, p => readInHeader (packSmallType int32Type 4) id type data p
  | .ssizeT, type, data, p => readInHeader (packSmallType int32Type 4) id type data p
  | .wchar, type, data, p => readInHeader (packSmallType int32Type 4) id type data p
  | .int64, type, _, p => readAfterHeader (packLargeType int64Type) type p
  | .uint64, type, _, p => readAfterHeader (packLargeType int64Type) type p
  | .nsecs, type, _, p => readAfterHeader (packLargeType int64Type) type p
  | .bigtime, type, _, p => readAfterHeader (packLargeType int64Type) type p
  | .offT, type, _, p => readAfterHeader (packLargeType int64Type) type p
  | .constchar, type, data, p => readStringData type data p
  | .string, type, data, p => readStringData type data p
  | .point, type, _, p => readPointData type p
  | .rect, type, _, p => readRectData type p
  | .undefined, _, _, p => .ok (0, none, p)
  | _, _, _, p => .ok (badType, none, p)

/-- The part of `ReadTypedData` for the types that have a header of their own. -/
def readWithHeader (type : DataType) (p : SParcel) : Except Fault (TypedResult type.Value) := do
  let ((htype, hdata), amt, p) ← p.readSmallData
  if amt = 8 then
    if htype = packSmallType nullType 0 then return (readNullValue, none, p)
    else readHeaderData type htype hdata p
  else return (if amt < 0 then amt else badData, none, p)

/-- The part of `ReadTypedData` for a binder, with what `unflatten_binder` takes. A result that is
negative is large as an unsigned word. -/
def readBinderData (accepts : FlatBinder → Bool) (p : SParcel) :
    Except Fault (TypedResult { o : FlatBinder // accepts o = true }) := do
  let (o, amt, p) ← p.readFlatBinderObject
  if size amt ≥ 16 then
    return if h : accepts o = true then (0, some ⟨o, h⟩, p) else (badType, none, p)
  else return (dataTruncated, none, p)

/-- The case of a value. -/
def readValueData (p : SParcel) : Except Fault (TypedResult SValue) := do
  let (value, err, p) ← SValue.unarchive p
  return (if err ≥ 0 ∧ value.compare SValue.null = .eq then readNullValue
    else if err ≥ 0 then 0 else err, some value, p)

def readTypedData : (type : DataType) → SParcel → Except Fault (TypedResult type.Value)
  | .value, p => readValueData p
  | .binder, p => readBinderData FlatBinder.isStrong p
  | .binderWeak, p => readBinderData FlatBinder.isWeak p
  | type, p => readWithHeader type p

end SParcel

end OpenBinder
