import OpenBinder.Stream.Effect
import OpenBinder.Stream.Server

/-!
# Bytes and numbers as values

What the hooks of streams and storages and their proxies put into values and take out again.

* `ofBytes`, `bytes`: a value that is edited as bytes, and `Data` with `Length`.
* `asInt32`, `asInt64`, `asSSize`, `asStatus`: the conversions. What a string or a floating point
  number is as an integer is a parameter.
-/

namespace OpenBinder

open Lib List

/-- `B_RAW_TYPE`, `'raw'`. -/
def rawType : BitVec 32 := typeCode 0x726177#32

/-- `B_STATUS_TYPE`, `'sts'`. -/
def statusType : BitVec 32 := typeCode 0x737473#32

/-- `B_INT16_TYPE`, `'i16'`. -/
def int16Type : BitVec 32 := typeCode 0x693136#32

/-- `B_INT8_TYPE`, `'i08'`. -/
def int8Type : BitVec 32 := typeCode 0x693038#32

/-- `B_BOOL_TYPE`, `'bol'`. -/
def boolType : BitVec 32 := typeCode 0x626f6c#32

/-- `B_NSECS_TYPE`, `'nst'`. -/
def nsecsType : BitVec 32 := typeCode 0x6e7374#32

namespace SValue

/-- Bytes of a type, after `BeginEditBytes` and `EndEditBytes` or from the constructor. Up to four
are in the value itself. -/
def ofBytes (type : BitVec 32) (bytes : List Byte) : SValue :=
  if h : bytes.length ≤ typeLengthMax then
    small ⟨packSmallType type bytes.length, by rw [unpackTypeLength_packSmallType type h]; exact h⟩
      (wordOf ((bytes ++ [0, 0, 0, 0]).take 4))
  else large ⟨packLargeType type, unpackTypeLength_packLargeType type⟩ bytes

/-- `Data`, as long as `Length`; `none` for `NULL`. -/
def bytes : SValue → Option (List Byte)
  | small type data => some ((wordBytes data).take (unpackTypeLength type.1))
  | large _ buffer => some buffer
  | map _ => none

def int64 (value : BitVec 64) : SValue :=
  ofBytes int64Type (wordBytes (value.setWidth 32) ++ wordBytes (value.extractLsb' 32 32))

/-- The number of a value of an integer type that has its size. -/
def number : SValue → Option ℤ
  | small type data =>
    if type.1 = packSmallType int32Type 4 then some data.toInt
    else if type.1 = kNullTypeCode then some 0
    else if type.1 = packSmallType int16Type 2 then some (data.setWidth 16).toInt
    else if type.1 = packSmallType int8Type 1 then some (data.setWidth 8).toInt
    else if type.1 = packSmallType boolType 1 then some (if data.setWidth 8 = 0 then 0 else 1)
    else none
  | large type buffer =>
    if (type.1 = packLargeType int64Type ∨ type.1 = packLargeType nsecsType) ∧ buffer.length = 8 then
      some (positionOf buffer).toInt
    else none
  | map _ => none

/-- The number that `AsInt32` and `AsInt64` convert; `none` is an error. `parse` is what strings
and floating point numbers are converted to. -/
def asNumber (parse : SValue → Option ℤ) (v : SValue) : Option ℤ :=
  let code := unpackTypeCode v.mType
  if code = stringType ∨ code = doubleType ∨ code = floatType then parse v else v.number

/-- `SValue::AsInt32`, without its result where there is an error. -/
def asInt32 (parse : SValue → Option ℤ) (v : SValue) : Option (BitVec 32) :=
  (v.asNumber parse).map (BitVec.ofInt 32)

/-- `SValue::AsInt64` and `AsOffset`. -/
def asInt64 (parse : SValue → Option ℤ) (v : SValue) : Option (BitVec 64) :=
  (v.asNumber parse).map (BitVec.ofInt 64)

def asSSize (parse : SValue → Option ℤ) (v : SValue) : BitVec 32 :=
  if v.errorCheck < 0 then BitVec.ofInt 32 v.errorCheck
  else match v with
    | small type data =>
      if type.1 = packSmallType statusType 4 then data
      else ((small type data).asInt32 parse).getD 0
    | v => (v.asInt32 parse).getD 0

def asStatus (parse : SValue → Option ℤ) (v : SValue) : BitVec 32 :=
  if (v.asSSize parse).toInt ≤ 0 then v.asSSize parse else 0

/-! ### What is put in is taken out -/

theorem isKey_int32 (n : BitVec 32) : (int32 n).IsKey :=
  ⟨(by decide : packSmallType int32Type 4 != kUndefinedTypeCode),
    (by decide : (packSmallType int32Type 4 == kWildTypeCode) = false),
    (by decide : (packSmallType int32Type 4 == kErrorTypeCode) = false),
    (by decide : unpackTypeLength (packSmallType int32Type 4) != typeLengthMap)⟩

/-- **A plain value** is no error, no table and none of the special values. -/
structure IsPlain (v : SValue) : Prop extends IsKey v where
  null : v.isNull = false

theorem isPlain_int32 (n : BitVec 32) : (int32 n).IsPlain :=
  ⟨isKey_int32 n, (by decide : (packSmallType int32Type 4 == kNullTypeCode) = false)⟩

/-- Whether a type is not one of those that stand for something special. -/
def isDataType (type : BitVec 32) : Bool :=
  ((List.range 5).map (packSmallType type) ++ [packLargeType type]).all fun word =>
    word != kUndefinedTypeCode && word != kWildTypeCode && word != kErrorTypeCode &&
      word != kNullTypeCode && unpackTypeLength word != typeLengthMap

theorem isPlain_ofBytes {type : BitVec 32} (h : isDataType type = true) (b : List Byte) :
    (ofBytes type b).IsPlain := by
  have hword : (ofBytes type b).mType ∈
      (List.range 5).map (packSmallType type) ++ [packLargeType type] := by
    unfold ofBytes
    split
    · rename_i hle
      apply mem_append_left
      exact mem_map.2 ⟨b.length, mem_range.2 (Nat.lt_succ_of_le hle), rfl⟩
    · exact mem_append_right _ (mem_singleton.2 rfl)
  have hall := all_eq_true.1 h _ hword
  simp only [Bool.and_eq_true, bne_iff_ne] at hall
  obtain ⟨⟨⟨⟨h1, h2⟩, h3⟩, h4⟩, h5⟩ := hall
  exact ⟨⟨bne_iff_ne.2 h1, beq_eq_false_iff_ne.2 h2, beq_eq_false_iff_ne.2 h3, bne_iff_ne.2 h5⟩,
    beq_eq_false_iff_ne.2 h4⟩

theorem isPlain_raw (b : List Byte) : (ofBytes rawType b).IsPlain :=
  isPlain_ofBytes (by decide) b

theorem isPlain_int64 (n : BitVec 64) : (int64 n).IsPlain := isPlain_ofBytes (by decide) _

@[simp] theorem bytes_ofBytes (type : BitVec 32) (b : List Byte) :
    (ofBytes type b).bytes = some b := by
  unfold ofBytes
  split
  · rename_i hle
    have h4 : ((b ++ [0, 0, 0, 0]).take 4).length = 4 := by
      rw [length_take, length_append]
      show min 4 (b.length + 4) = 4
      omega
    show some ((wordBytes _).take (unpackTypeLength (packSmallType type b.length))) = _
    have hmin : min b.length 4 = b.length := Nat.min_eq_left hle
    rw [wordBytes_wordOf h4, unpackTypeLength_packSmallType type hle, take_take, hmin,
      take_left]
  · rfl

theorem IsPlain.errorCheck {v : SValue} (h : v.IsPlain) : v.errorCheck = 0 := by
  cases v with
  | small type data => exact if_neg (beq_eq_false_iff_ne.1 h.error)
  | large type buffer => rfl
  | map m => rfl

@[simp] theorem asInt32_int32 (parse : SValue → Option ℤ) (n : BitVec 32) :
    (int32 n).asInt32 parse = some n := by
  have hcode : ¬ (unpackTypeCode (int32 n).mType = stringType ∨
      unpackTypeCode (int32 n).mType = doubleType ∨ unpackTypeCode (int32 n).mType = floatType) :=
    (by decide : ¬ (unpackTypeCode (packSmallType int32Type 4) = stringType ∨
      unpackTypeCode (packSmallType int32Type 4) = doubleType ∨
        unpackTypeCode (packSmallType int32Type 4) = floatType))
  rw [asInt32, asNumber, if_neg hcode]
  simp [number, int32]

@[simp] theorem asSSize_int32 (parse : SValue → Option ℤ) (n : BitVec 32) :
    (int32 n).asSSize parse = n := by
  have herr : ¬ (int32 n).errorCheck < 0 := by rw [(isPlain_int32 n).errorCheck]; decide
  have htype : ¬ packSmallType int32Type 4 = packSmallType statusType 4 := by decide
  have hint := asInt32_int32 parse n
  unfold asSSize
  rw [if_neg herr]
  unfold int32 at hint ⊢
  dsimp only
  rw [if_neg htype, hint]
  rfl

theorem positionOf_words (n : BitVec 64) :
    positionOf (wordBytes (n.setWidth 32) ++ wordBytes (n.extractLsb' 32 32)) = n := by
  have h0 : wordFrom (wordBytes (n.setWidth 32) ++ wordBytes (n.extractLsb' 32 32)) 0 =
      n.setWidth 32 := wordOf_wordBytes _
  have h4 : wordFrom (wordBytes (n.setWidth 32) ++ wordBytes (n.extractLsb' 32 32)) 4 =
      n.extractLsb' 32 32 := wordOf_wordBytes _
  rw [positionOf, h0, h4]
  apply BitVec.eq_of_getLsbD_eq
  intro i hi
  simp only [BitVec.getLsbD_append, BitVec.getLsbD_extractLsb', BitVec.getLsbD_setWidth]
  by_cases h : i < 32
  · simp [h]
  · have h' : i - 32 < 32 := by omega
    simp [h, h', show 32 + (i - 32) = i by omega]

@[simp] theorem asInt64_int64 (parse : SValue → Option ℤ) (n : BitVec 64) :
    (int64 n).asInt64 parse = some n := by
  have hcode : ¬ (unpackTypeCode (packLargeType int64Type) = stringType ∨
      unpackTypeCode (packLargeType int64Type) = doubleType ∨
        unpackTypeCode (packLargeType int64Type) = floatType) := by decide
  have hn : (int64 n).number =
      some (positionOf (wordBytes (n.setWidth 32) ++ wordBytes (n.extractLsb' 32 32))).toInt := rfl
  have hnumber : (int64 n).asNumber parse = some n.toInt := by
    rw [positionOf_words] at hn
    exact (if_neg hcode).trans hn
  rw [asInt64, hnumber, Option.map_some, BitVec.ofInt_toInt]

end SValue

end OpenBinder
