import OpenBinder.Remote.Parameter

/-!
# Parameters that survive conversion

* `Survives`: what is stored from the value of a parameter is the parameter.
* `Fits`: the parameters of which this is true.
* `survives_iff`: **it is true of exactly these**.
-/

namespace OpenBinder

open Lib BitVec

/-- The types that are made values of without a marshaller. -/
def DataType.isParameter : DataType → Bool
  | .undefined | .point | .rect | .null | .other => false
  | _ => true

/-- **A binder with the cookie** that objects of its type and address are flattened with. -/
def DataType.IsFlattened (cookie : BitVec 32 → BitVec 32 → BitVec 32) :
    (type : DataType) → type.Value → Prop
  | .binder, o => cookie (packSmallType (unpackTypeCode o.1.type) 4) o.1.binder = o.1.cookie
  | .binderWeak, o => cookie (packSmallType (unpackTypeCode o.1.type) 4) o.1.binder = o.1.cookie
  | _, _ => True

/-- **A parameter is stored again** from the value made of it, over what was there; of a `NULL`
pointer the value is `NULL`. -/
def Survives (conv : Conversions) (cookie : BitVec 32 → BitVec 32 → BitVec 32) (type : DataType)
    (old : type.Value) : Option type.Value → Prop
  | none => parameterToValue type none = .ok (.ok .null)
  | some x => ∃ v, parameterToValue type (some x) = .ok (.ok v) ∧
      parameterFromValue conv cookie type v (some old) = .ok (some x)

/-- **The data that is stored again**: 16 bits go through 8, and of 64 bits only an `int64_t` is
stored. -/
def DataType.Fits : (type : DataType) → type.Value → type.Value → Prop
  | .bool, _, _ => False
  | .int16, x, _ => -128 ≤ x.toInt ∧ x.toInt < 128
  | .uint16, x, _ => -128 ≤ x.toInt ∧ x.toInt < 128
  | .uint64, x, old => old = x
  | .nsecs, x, old => old = x
  | .bigtime, x, old => old = x
  | .offT, x, old => old = x
  | _, _, _ => True

variable {conv : Conversions} {cookie : BitVec 32 → BitVec 32 → BitVec 32}
  {parse : SValue → Option ℤ}

namespace SValue

theorem number_int8 (h : unpackTypeLength (packSmallType int8Type 1) ≤ typeLengthMax)
    (data : BitVec 32) :
    (small ⟨packSmallType int8Type 1, h⟩ data).number = some (data.setWidth 8).toInt := by
  unfold number
  dsimp only
  rw [if_neg (by decide), if_neg (by decide), if_neg (by decide), if_pos rfl]

theorem number_int16 (h : unpackTypeLength (packSmallType int16Type 2) ≤ typeLengthMax)
    (data : BitVec 32) :
    (small ⟨packSmallType int16Type 2, h⟩ data).number = some (data.setWidth 16).toInt := by
  unfold number
  dsimp only
  rw [if_neg (by decide), if_neg (by decide), if_pos rfl]

theorem asInt32_int8 (b : Byte) :
    (ofBytes int8Type [b]).asInt32 parse = some (BitVec.ofInt 32 b.toInt) := by
  have hcode : ¬ (unpackTypeCode (packSmallType int8Type 1) = stringType ∨
      unpackTypeCode (packSmallType int8Type 1) = doubleType ∨
        unpackTypeCode (packSmallType int8Type 1) = floatType) := by decide
  have hbyte : (wordOf [b, 0, 0, 0]).setWidth 8 = b := by
    unfold wordOf
    apply eq_of_getLsbD_eq
    intro i hi
    simp only [getLsbD_setWidth, getLsbD_append]
    simp [hi]
  have hnumber : (ofBytes int8Type [b]).asNumber parse = some b.toInt := by
    refine (if_neg hcode).trans ((number_int8 _ _).trans ?_)
    show some ((wordOf [b, 0, 0, 0]).setWidth 8).toInt = _
    rw [hbyte]
  rw [asInt32, hnumber]
  rfl

theorem asInt32_int16 (x : BitVec 16) :
    (ofBytes int16Type ((wordBytes (x.setWidth 32)).take 2)).asInt32 parse =
      some (BitVec.ofInt 32 x.toInt) := by
  have hcode : ¬ (unpackTypeCode (packSmallType int16Type 2) = stringType ∨
      unpackTypeCode (packSmallType int16Type 2) = doubleType ∨
        unpackTypeCode (packSmallType int16Type 2) = floatType) := by decide
  have hword : (wordOf [(x.setWidth 32).extractLsb' 0 8,
      (x.setWidth 32).extractLsb' 8 8, 0, 0]).setWidth 16 = x := by
    unfold wordOf
    apply eq_of_getLsbD_eq
    intro i hi
    simp only [getLsbD_setWidth, getLsbD_append, getLsbD_extractLsb']
    by_cases h8 : i < 8
    · simp [h8, hi, show i < 32 by omega]
    · simp [h8, hi, show i - 8 < 8 by omega, show 8 + (i - 8) = i by omega, show i < 32 by omega]
  have hnumber : (ofBytes int16Type ((wordBytes (x.setWidth 32)).take 2)).asNumber parse =
      some x.toInt := by
    refine (if_neg hcode).trans ((number_int16 _ _).trans ?_)
    show some ((wordOf [(x.setWidth 32).extractLsb' 0 8,
      (x.setWidth 32).extractLsb' 8 8, 0, 0]).setWidth 16).toInt = _
    rw [hword]
  rw [asInt32, hnumber]
  rfl

theorem toInt_setWidth_ofInt (n : ℤ) :
    ((BitVec.ofInt 32 n).setWidth 8).toInt = n.bmod (2 ^ 8) := by
  rw [toInt_setWidth, toNat_ofInt, Int.bmod_def, Int.bmod_def]
  omega

theorem setWidth_ofInt_toInt (b : Byte) : (BitVec.ofInt 32 b.toInt).setWidth 8 = b := by
  apply eq_of_toInt_eq
  have hlow := le_toInt b
  have hhigh := toInt_lt (x := b)
  rw [toInt_setWidth_ofInt, Int.bmod_def]
  omega

/-- **Through eight bits** come the numbers that have eight. -/
theorem signExtend_byte_iff (x : BitVec 16) :
    ((BitVec.ofInt 32 x.toInt).setWidth 8).signExtend 16 = x ↔ -128 ≤ x.toInt ∧ x.toInt < 128 := by
  rw [← toInt_inj, toInt_signExtend_of_le (by decide), toInt_setWidth_ofInt,
    Int.bmod_def]
  omega

theorem words_positionOf {b : List Byte} (h : b.length = 8) :
    wordBytes ((positionOf b).setWidth 32) ++ wordBytes ((positionOf b).extractLsb' 32 32) = b := by
  have hlow : (positionOf b).setWidth 32 = wordFrom b 0 := by
    apply eq_of_getLsbD_eq
    intro i hi
    rw [positionOf, getLsbD_setWidth, getLsbD_append]
    simp [hi]
  have hhigh : (positionOf b).extractLsb' 32 32 = wordFrom b 4 := by
    apply eq_of_getLsbD_eq
    intro i hi
    rw [positionOf, getLsbD_extractLsb', getLsbD_append]
    simp [hi]
  rw [hlow, hhigh]
  unfold wordFrom
  rw [wordBytes_wordOf (by simp; omega), wordBytes_wordOf (by simp; omega), List.drop_zero]
  nth_rewrite 3 [← List.take_append_drop 4 b]
  rw [List.take_of_length_le (l := b.drop 4) (by simp; omega)]

theorem asLong_long (x : Raw 8) : (long int64Type x).asLong parse = x := by
  have hcode : ¬ (unpackTypeCode (packLargeType int64Type) = stringType ∨
      unpackTypeCode (packLargeType int64Type) = doubleType ∨
        unpackTypeCode (packLargeType int64Type) = floatType) := by decide
  have hnumber : (long int64Type x).asNumber parse = some (positionOf x.1).toInt :=
    (if_neg hcode).trans (if_pos ⟨.inl rfl, x.2⟩)
  have hint : (long int64Type x).asInt64 parse = some (positionOf x.1) := by
    rw [asInt64, hnumber, Option.map_some, ofInt_toInt]
  have hn : ((long int64Type x).asInt64 parse).getD 0 = positionOf x.1 := congrArg (·.getD 0) hint
  apply Subtype.ext
  show wordBytes ((((long int64Type x).asInt64 parse).getD 0).setWidth 32) ++
    wordBytes ((((long int64Type x).asInt64 parse).getD 0).extractLsb' 32 32) = x.1
  rw [hn]
  exact words_positionOf x.2

theorem asDouble_long (x : Raw 8) : (long doubleType x).asDouble conv = x := by
  unfold long asDouble
  exact dif_pos ⟨rfl, x.2⟩

theorem asString_text (text : List Byte) :
    (ofBytes stringType (text ++ [0])).asString conv = text := by
  have hmType : (ofBytes stringType (text ++ [0])).mType ≠ kNullTypeCode ∧
      unpackTypeCode (ofBytes stringType (text ++ [0])).mType = stringType := by
    unfold ofBytes
    split
    · next hle =>
      have hall : ∀ n ≤ typeLengthMax, packSmallType stringType n ≠ kNullTypeCode ∧
          unpackTypeCode (packSmallType stringType n) = stringType := by decide
      exact hall _ hle
    · exact ⟨(by decide : packLargeType stringType ≠ kNullTypeCode),
        (by decide : unpackTypeCode (packLargeType stringType) = stringType)⟩
  unfold asString
  rw [if_neg hmType.1, if_pos hmType.2, bytes_ofBytes, Option.getD_some]
  unfold textOf
  rw [List.getLast?_concat, if_pos rfl, List.dropLast_concat]

end SValue

theorem toObject_object {o : FlatBinder} (hweak : o.isWeak = true)
    (hcookie : cookie (packSmallType (unpackTypeCode o.type) 4) o.binder = o.cookie) :
    (SValue.object o).toObject cookie = some o := by
  have htype : o.type = kPackedLargeBinderType ∨ o.type = kPackedLargeBinderWeakType ∨
      o.type = kPackedLargeBinderHandleType ∨ o.type = kPackedLargeBinderWeakHandleType := by
    unfold FlatBinder.isWeak at hweak
    simp only [Bool.or_eq_true, beq_iff_eq] at hweak
    tauto
  have hpack : isSmallObject (packSmallType (unpackTypeCode o.type) 4) = true ∧
      packLargeType (unpackTypeCode (packSmallType (unpackTypeCode o.type) 4)) = o.type := by
    rcases htype with h | h | h | h <;> rw [h] <;> exact ⟨by decide, by decide⟩
  unfold SValue.object SValue.toObject
  dsimp only
  rw [if_pos hpack.1, hpack.2, hcookie]

theorem isWeak_of_isStrong {o : FlatBinder} (h : o.isStrong = true) : o.isWeak = true := by
  unfold FlatBinder.isStrong at h
  unfold FlatBinder.isWeak
  simp only [Bool.or_eq_true] at h ⊢
  tauto

theorem survives_iff_eq {type : DataType} {old x a : type.Value} {v : SValue}
    (hv : parameterToValue type (some x) = .ok (.ok v))
    (hfrom : parameterFromValue conv cookie type v (some old) = .ok (some a)) :
    Survives conv cookie type old (some x) ↔ a = x := by
  constructor
  · rintro ⟨w, hw, hstored⟩
    obtain rfl := Except.ok.inj (Except.ok.inj (hv.symm.trans hw))
    exact Option.some.inj (Except.ok.inj (hfrom.symm.trans hstored))
  · rintro rfl
    exact ⟨v, hv, hfrom⟩

theorem survives_some_iff (type : DataType) (hparam : type.isParameter = true)
    (old x : type.Value) (hflat : type.IsFlattened cookie x) :
    Survives conv cookie type old (some x) ↔ type.Fits x old := by
  have h32 : ∀ n : BitVec 32, ((SValue.int32 n).asInt32 conv.parse).getD 0 = n := fun n =>
    congrArg (·.getD 0) (SValue.asInt32_int32 conv.parse n)
  have h8 : ∀ b : Byte,
      (((SValue.ofBytes int8Type [b]).asInt32 conv.parse).getD 0).setWidth 8 = b := by
    intro b
    rw [SValue.asInt32_int8, Option.getD_some, SValue.setWidth_ofInt_toInt]
  have h16 : ∀ n : BitVec 16, ((((SValue.ofBytes int16Type
      ((wordBytes (n.setWidth 32)).take 2)).asInt32 conv.parse).getD 0).setWidth 8).signExtend 16 =
        n ↔ -128 ≤ n.toInt ∧ n.toInt < 128 := by
    intro n
    rw [SValue.asInt32_int16, Option.getD_some, SValue.signExtend_byte_iff]
  cases type with
  | bool => exact iff_of_false (by rintro ⟨v, hv, -⟩; exact nomatch hv) id
  | float =>
    have hfloat : (SValue.small ⟨packSmallType floatType 4, by decide⟩ x).asFloat conv = x := by
      unfold SValue.asFloat
      exact if_pos rfl
    exact (survives_iff_eq rfl rfl).trans (iff_of_true hfloat trivial)
  | double =>
    exact (survives_iff_eq rfl rfl).trans (iff_of_true (SValue.asDouble_long x) trivial)
  | char | int8 | uint8 => exact (survives_iff_eq rfl rfl).trans (iff_of_true (h8 x) trivial)
  | int16 | uint16 => exact (survives_iff_eq rfl rfl).trans (h16 x)
  | int32 | uint32 | sizeT | ssizeT | wchar =>
    exact (survives_iff_eq rfl rfl).trans (iff_of_true (h32 x) trivial)
  | int64 => exact (survives_iff_eq rfl rfl).trans (iff_of_true (SValue.asLong_long x) trivial)
  | uint64 | nsecs | bigtime | offT => exact survives_iff_eq rfl rfl
  | binder =>
    refine (survives_iff_eq rfl rfl).trans (iff_of_true ?_ trivial)
    unfold SValue.asBinder
    rw [toObject_object (isWeak_of_isStrong x.2) hflat]
    exact dif_pos x.2
  | binderWeak =>
    refine (survives_iff_eq rfl rfl).trans (iff_of_true ?_ trivial)
    unfold SValue.asWeakBinder
    rw [toObject_object x.2 hflat]
    exact dif_pos x.2
  | value => exact (survives_iff_eq rfl rfl).trans (iff_of_true rfl trivial)
  | constchar =>
    exact (survives_iff_eq rfl rfl).trans (iff_of_true (SValue.asString_text x) trivial)
  | string =>
    exact (survives_iff_eq rfl rfl).trans (iff_of_true (SValue.asString_text x) trivial)
  | undefined | point | rect | null | other => exact absurd hparam Bool.false_ne_true

/-- **A parameter survives** conversion to a value and back exactly if it fits; a `NULL` pointer is
looked through. -/
theorem survives_iff (type : DataType) (hparam : type.isParameter = true) (old : type.Value)
    (value : Option type.Value) (hflat : ∀ x ∈ value, type.IsFlattened cookie x) :
    Survives conv cookie type old value ↔ ∃ x, value = some x ∧ type.Fits x old := by
  cases value with
  | none =>
    refine iff_of_false ?_ nofun
    cases type <;> exact nofun
  | some x =>
    rw [survives_some_iff type hparam old x (hflat x rfl)]
    exact ⟨fun h => ⟨x, rfl, h⟩, fun ⟨y, hy, hfits⟩ => Option.some.inj hy ▸ hfits⟩

theorem isStrong_null : FlatBinder.isStrong ⟨kPackedLargeBinderType, 0, 0⟩ = true := rfl

/-- Conversions that find nothing. -/
def noConversions : Conversions where
  parse := fun _ => none
  toBool := fun _ => false
  toFloat := fun _ => 0
  toDouble := fun _ => ⟨List.replicate 8 0, rfl⟩
  toText := fun _ => []
  promoted := fun _ => ⟨⟨kPackedLargeBinderType, 0, 0⟩, isStrong_null⟩

theorem minus_five_survives :
    Survives noConversions (fun _ _ => 0) .int16 (0 : BitVec 16) (some (-5 : BitVec 16)) :=
  (survives_iff .int16 rfl _ _ fun _ _ => trivial).2 ⟨_, rfl, by decide, by decide⟩

/-- A number of 16 bits goes through eight. -/
theorem three_hundred_narrowed :
    ¬ ∀ (conv : Conversions) (cookie : BitVec 32 → BitVec 32 → BitVec 32) (type : DataType)
      (old : type.Value) (value : Option type.Value), type.isParameter = true →
        (∀ x ∈ value, type.IsFlattened cookie x) → Survives conv cookie type old value := by
  intro h
  have h300 := (survives_some_iff .int16 rfl _ _ trivial).1
    (h noConversions (fun _ _ => 0) .int16 (0 : BitVec 16) (some (300 : BitVec 16)) rfl
      fun _ _ => trivial)
  exact absurd h300.2 (by decide)

end OpenBinder
