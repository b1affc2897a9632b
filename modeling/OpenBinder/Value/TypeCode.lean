import Mathlib.Tactic.IntervalCases

/-!
# Packed type words

An `SValue` and every flattened value start with a 32-bit type word: a type code
in the upper bytes (`B_TYPE_CODE_MASK`), the storage class or length in the low
three bits (`B_TYPE_LENGTH_MASK`) and the byte-order mark.
-/

namespace OpenBinder

def typeCodeMask : BitVec 32 := 0x7f7f7f00#32

def typeLengthMask : BitVec 32 := 0x00000007#32

/-- `B_TYPE_LENGTH_MAX`: the largest length kept inside the value. -/
def typeLengthMax : ℕ := 4

def typeLengthLarge : ℕ := 5

def typeLengthMap : ℕ := 7

def typeByteorderNormal : BitVec 32 := 0x00000080#32

def unpackTypeCode (type : BitVec 32) : BitVec 32 := type &&& typeCodeMask

def unpackTypeLength (type : BitVec 32) : ℕ := (type &&& typeLengthMask).toNat

def packSmallType (code : BitVec 32) (length : ℕ) : BitVec 32 :=
  (code &&& typeCodeMask) ||| BitVec.ofNat 32 length ||| typeByteorderNormal

def packLargeType (code : BitVec 32) : BitVec 32 :=
  (code &&& typeCodeMask) ||| BitVec.ofNat 32 typeLengthLarge ||| typeByteorderNormal

/-- `B_TYPE_CODE`, applied to the three characters of the code. -/
def typeCode (chars : BitVec 32) : BitVec 32 := (chars <<< 8) &&& typeCodeMask

/-- `'wld'`. -/
def wildType : BitVec 32 := typeCode 0x776c64#32

/-- `'nul'`. -/
def nullType : BitVec 32 := typeCode 0x6e756c#32

/-- `'val'`. -/
def valueType : BitVec 32 := typeCode 0x76616c#32

/-- `'err'`. -/
def errorType : BitVec 32 := typeCode 0x657272#32

/-- `B_INT32_TYPE`, `'i32'`. -/
def int32Type : BitVec 32 := typeCode 0x693332#32

/-- `kUndefinedTypeCode`: zero, which is not a valid packed type. -/
def kUndefinedTypeCode : BitVec 32 := 0#32

def kWildTypeCode : BitVec 32 := packSmallType wildType 0

def kNullTypeCode : BitVec 32 := packSmallType nullType 0

def kErrorTypeCode : BitVec 32 := packSmallType errorType 4

def kMapTypeCode : BitVec 32 :=
  typeByteorderNormal ||| BitVec.ofNat 32 typeLengthMap ||| valueType

/-- `'*' << B_TYPE_CODE_SHIFT`: the last character of every object type code. -/
def objectCode : BitVec 32 := 0x00002a00#32

/-- The bits `CHECK_IS_SMALL_OBJECT` and `CHECK_IS_LARGE_OBJECT` look at. -/
def objectMask : BitVec 32 := typeLengthMask ||| 0x00007f00#32

/-- `CHECK_IS_SMALL_OBJECT`, with `sizeof(void*)` four. -/
def isSmallObject (type : BitVec 32) : Bool :=
  type &&& objectMask == (BitVec.ofNat 32 4 ||| objectCode)

/-- `CHECK_IS_LARGE_OBJECT`. -/
def isLargeObject (type : BitVec 32) : Bool :=
  type &&& objectMask == (BitVec.ofNat 32 typeLengthLarge ||| objectCode)

/-- The type words of values kept in `m_data.local`. -/
abbrev SmallType := {type : BitVec 32 // unpackTypeLength type ≤ typeLengthMax}

/-- The type words of values kept in a shared buffer. -/
abbrev LargeType := {type : BitVec 32 // unpackTypeLength type = typeLengthLarge}

theorem packed_and (code length mask : BitVec 32) :
    ((code &&& typeCodeMask) ||| length ||| typeByteorderNormal) &&& mask =
      (code &&& (typeCodeMask &&& mask)) ||| (length &&& mask) |||
        (typeByteorderNormal &&& mask) := by
  rw [BitVec.and_or_distrib_right, BitVec.and_or_distrib_right, BitVec.and_assoc]

theorem unpackTypeLength_packSmallType (code : BitVec 32) {length : ℕ} (h : length ≤ typeLengthMax) :
    unpackTypeLength (packSmallType code length) = length := by
  unfold unpackTypeLength packSmallType
  rw [packed_and, show typeCodeMask &&& typeLengthMask = 0#32 by decide, BitVec.and_zero]
  have : length < 5 := Nat.lt_succ_of_le h
  interval_cases length <;> decide

theorem unpackTypeLength_packLargeType (code : BitVec 32) :
    unpackTypeLength (packLargeType code) = typeLengthLarge := by
  unfold unpackTypeLength packLargeType
  rw [packed_and, show typeCodeMask &&& typeLengthMask = 0#32 by decide, BitVec.and_zero]
  decide

theorem unpackTypeLength_map : unpackTypeLength kMapTypeCode = typeLengthMap := by decide

theorem SmallType.ne_large (s : SmallType) (l : LargeType) : s.1 ≠ l.1 := by
  intro h
  have h1 := s.2
  rw [h, l.2] at h1
  exact absurd h1 (by decide)

theorem SmallType.ne_map (s : SmallType) : s.1 ≠ kMapTypeCode := by
  intro h
  have h1 := s.2
  rw [h, unpackTypeLength_map] at h1
  exact absurd h1 (by decide)

theorem LargeType.ne_map (l : LargeType) : l.1 ≠ kMapTypeCode := by
  intro h
  have h1 := l.2
  rw [h, unpackTypeLength_map] at h1
  exact absurd h1 (by decide)

end OpenBinder
