import OpenBinder.Remote.Effect
import OpenBinder.Stream.Access

/-!
# Parameters as values

`parameter_to_value` and `parameter_from_value`: what `Autobinder` calls on a local object turn
parameters into and take them out of. Through a proxy `WriteTypedData` and `ReadTypedData` are in
their place.

* `Conversions`: what values are as types that they do not have.
* `parameterToValue`, `parameterFromValue`: the switches. A case that goes on into the next one
  reads and stores there what the pointer may not have.
-/

namespace OpenBinder

open Lib

/-- What values are as other types, where that is not the type that they have: numbers of strings
and of floating point numbers, texts of numbers, weak binders as strong ones. -/
structure Conversions where
  parse : SValue → Option ℤ
  toBool : SValue → Bool
  toFloat : SValue → BitVec 32
  toDouble : SValue → Raw 8
  toText : SValue → List Byte
  promoted : SValue → { o : FlatBinder // o.isStrong = true }

namespace SValue

/-- An `SValue` of an object. -/
def object (o : FlatBinder) : SValue :=
  small ⟨packSmallType (unpackTypeCode o.type) 4,
    by rw [unpackTypeLength_packSmallType _ (by decide)]; decide⟩ o.binder

/-- A number of eight bytes. -/
def long (type : BitVec 32) (value : Raw 8) : SValue :=
  large ⟨packLargeType type, unpackTypeLength_packLargeType type⟩ value.1

/-- What the object in a value is flattened to. -/
def toObject (cookie : BitVec 32 → BitVec 32 → BitVec 32) : SValue → Option FlatBinder
  | small type data =>
    if isSmallObject type.1 then
      some ⟨packLargeType (unpackTypeCode type.1), data, cookie type.1 data⟩
    else none
  | _ => none

def asBinder (conv : Conversions) (cookie : BitVec 32 → BitVec 32 → BitVec 32) (v : SValue) :
    { o : FlatBinder // o.isStrong = true } :=
  match v.toObject cookie with
  | some o => if h : o.isStrong = true then ⟨o, h⟩ else conv.promoted v
  | none => ⟨⟨kPackedLargeBinderType, 0, 0⟩, rfl⟩

def asWeakBinder (cookie : BitVec 32 → BitVec 32 → BitVec 32) (v : SValue) :
    { o : FlatBinder // o.isWeak = true } :=
  match v.toObject cookie with
  | some o => if h : o.isWeak = true then ⟨o, h⟩ else ⟨⟨kPackedLargeBinderType, 0, 0⟩, rfl⟩
  | none => ⟨⟨kPackedLargeBinderType, 0, 0⟩, rfl⟩

/-- The bytes of `SValue::AsInt64`. -/
def asLong (parse : SValue → Option ℤ) (v : SValue) : Raw 8 :=
  let n := (v.asInt64 parse).getD 0
  ⟨wordBytes (n.setWidth 32) ++ wordBytes (n.extractLsb' 32 32), rfl⟩

def asFloat (conv : Conversions) : SValue → BitVec 32
  | small type data =>
    if type.1 = packSmallType floatType 4 then data
    else if type.1 = kNullTypeCode then 0
    else conv.toFloat (small type data)
  | v => conv.toFloat v

def asDouble (conv : Conversions) : SValue → Raw 8
  | large type buffer =>
    if h : type.1 = packLargeType doubleType ∧ buffer.length = 8 then ⟨buffer, h.2⟩
    else conv.toDouble (large type buffer)
  | v => conv.toDouble v

/-- The text of an `SString` of these bytes, with the terminating zero or without it. -/
def textOf (bytes : List Byte) : List Byte :=
  if bytes.getLast? = some 0 then bytes.dropLast else bytes

def asString (conv : Conversions) (v : SValue) : List Byte :=
  if v.mType = kNullTypeCode then []
  else if unpackTypeCode v.mType = stringType then textOf (v.bytes.getD [])
  else conv.toText v

end SValue

/-- A word where a pointer points to these bytes. -/
def loadWord (bytes : List Byte) : Except Fault (BitVec 32) :=
  if bytes.length < 4 then .error .memory else .ok (wordOf (bytes.take 4))

/-- A word stored where a pointer points to these bytes. -/
def storeWord (bytes : List Byte) (word : BitVec 32) : Except Fault (List Byte) :=
  if bytes.length < 4 then .error .memory else .ok (wordBytes word ++ bytes.drop 4)

/-- A `bool` in memory. -/
def boolByte (value : Bool) : Byte := if value then 1 else 0

/-- `parameter_to_value`, without a marshaller. The case of a `bool` goes on into that of a `float`,
and a `NULL` pointer is looked through where the type is known. -/
def parameterToValue : (type : DataType) → Option type.Value → Except Fault (Except ℤ SValue)
  | .undefined, _ => .ok (.ok .undefined)
  | .point, _ => .ok (.error badType)
  | .rect, _ => .ok (.error badType)
  | .null, _ => .ok (.error badType)
  | .other, _ => .ok (.error badType)
  | _, none => .error .memory
  | .bool, some value => (loadWord [boolByte value]).map fun word =>
    .ok (.small ⟨packSmallType floatType 4, by decide⟩ word)
  | .float, some value => .ok (.ok (.small ⟨packSmallType floatType 4, by decide⟩ value))
  | .double, some value => .ok (.ok (.long doubleType value))
  | .char, some value => .ok (.ok (.ofBytes int8Type [value]))
  | .int8, some value => .ok (.ok (.ofBytes int8Type [value]))
  | .uint8, some value => .ok (.ok (.ofBytes int8Type [value]))
  | .int16, some value => .ok (.ok (.ofBytes int16Type ((wordBytes (value.setWidth 32)).take 2)))
  | .uint16, some value => .ok (.ok (.ofBytes int16Type ((wordBytes (value.setWidth 32)).take 2)))
  | .int32, some value => .ok (.ok (.int32 value))
  | .uint32, some value => .ok (.ok (.int32 value))
  | .sizeT, some value => .ok (.ok (.int32 value))
  | .ssizeT, some value => .ok (.ok (.int32 value))
  | .wchar, some value => .ok (.ok (.int32 value))
  | .int64, some value => .ok (.ok (.long int64Type value))
  | .uint64, some value => .ok (.ok (.long int64Type value))
  | .nsecs, some value => .ok (.ok (.long int64Type value))
  | .bigtime, some value => .ok (.ok (.long int64Type value))
  | .offT, some value => .ok (.ok (.long int64Type value))
  | .binder, some value => .ok (.ok (.object value.1))
  | .binderWeak, some value => .ok (.ok (.object value.1))
  | .value, some value => .ok (.ok value)
  | .constchar, some value => .ok (.ok (.ofBytes stringType (value ++ [0])))
  | .string, some value => .ok (.ok (.ofBytes stringType (value ++ [0])))

/-- `parameter_from_value`, without a marshaller, on a pointer to what is overwritten: nothing is
stored through a `NULL` pointer, nor for the types that the switch leaves out. The case of a `bool`
goes on into that of a `float`. -/
def parameterFromValue (conv : Conversions) (cookie : BitVec 32 → BitVec 32 → BitVec 32) :
    (type : DataType) → SValue → Option type.Value → Except Fault (Option type.Value)
  | _, _, none => .ok none
  | .bool, v, some _ => (storeWord [boolByte (conv.toBool v)] (v.asFloat conv)).map fun bytes =>
    some (bytes.headD 0 != 0)
  | .float, v, some _ => .ok (some (v.asFloat conv))
  | .double, v, some _ => .ok (some (v.asDouble conv))
  | .char, v, some _ => .ok (some (((v.asInt32 conv.parse).getD 0).setWidth 8))
  | .int8, v, some _ => .ok (some (((v.asInt32 conv.parse).getD 0).setWidth 8))
  | .uint8, v, some _ => .ok (some (((v.asInt32 conv.parse).getD 0).setWidth 8))
  | .int16, v, some _ => .ok (some ((((v.asInt32 conv.parse).getD 0).setWidth 8).signExtend 16))
  | .uint16, v, some _ => .ok (some ((((v.asInt32 conv.parse).getD 0).setWidth 8).signExtend 16))
  | .int32, v, some _ => .ok (some ((v.asInt32 conv.parse).getD 0))
  | .uint32, v, some _ => .ok (some ((v.asInt32 conv.parse).getD 0))
  | .sizeT, v, some _ => .ok (some ((v.asInt32 conv.parse).getD 0))
  | .ssizeT, v, some _ => .ok (some ((v.asInt32 conv.parse).getD 0))
  | .wchar, v, some _ => .ok (some ((v.asInt32 conv.parse).getD 0))
  | .int64, v, some _ => .ok (some (v.asLong conv.parse))
  | .binder, v, some _ => .ok (some (v.asBinder conv cookie))
  | .binderWeak, v, some _ => .ok (some (v.asWeakBinder cookie))
  | .value, v, some _ => .ok (some v)
  | .constchar, v, some _ => .ok (some (v.asString conv))
  | .string, v, some _ => .ok (some (v.asString conv))
  | .uint64, _, some value => .ok (some value)
  | .nsecs, _, some value => .ok (some value)
  | .bigtime, _, some value => .ok (some value)
  | .offT, _, some value => .ok (some value)
  | .point, _, some value => .ok (some value)
  | .rect, _, some value => .ok (some value)
  | .undefined, _, some value => .ok (some value)
  | .null, _, some value => .ok (some value)
  | .other, _, some value => .ok (some value)

end OpenBinder
