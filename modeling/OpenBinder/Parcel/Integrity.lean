import OpenBinder.Value.Normal

/-!
# `check_integrity`

The representation rules of an `SValue`, one node at a time (`checkIntegrity`) and at
every node (`isSound`), and the object nodes of a value, for which `FreeData` calls
`release_object` (`objects`).
-/

namespace OpenBinder

open BitVec hiding and_assoc

def typeByteorderMask : BitVec 32 := 0x80000080#32

/-- The lengths that go with a type code. -/
def checkCode (code : BitVec 32) (length : ℕ) : Bool :=
  if code = 0 ∨ code = wildType ∨ code = nullType then length == 0
  else if code = valueType then length == typeLengthMap
  else if code = errorType then length == 4
  else true

theorem checkCode_valueType (length : ℕ) :
    checkCode valueType length = (length == typeLengthMap) := by
  unfold checkCode
  rw [if_neg (by decide), if_pos rfl]

theorem checkCode_errorType (length : ℕ) : checkCode errorType length = (length == 4) := by
  unfold checkCode
  rw [if_neg (by decide), if_neg (by decide), if_pos rfl]

theorem checkCode_empty {code : BitVec 32} (h : code = 0 ∨ code = wildType ∨ code = nullType)
    (length : ℕ) : checkCode code length = (length == 0) := by
  unfold checkCode
  rw [if_pos h]

theorem checkCode_other {code : BitVec 32} (h : ¬ (code = 0 ∨ code = wildType ∨ code = nullType))
    (hv : code ≠ valueType) (he : code ≠ errorType) (length : ℕ) : checkCode code length = true := by
  unfold checkCode
  rw [if_neg h, if_neg hv, if_neg he]

/-- What `check_integrity` checks in the type word. -/
def checkType (type : BitVec 32) : Bool :=
  (type &&& typeByteorderMask == typeByteorderNormal || type == kUndefinedTypeCode) &&
  (type &&& ~~~(typeByteorderMask ||| typeLengthMask ||| typeCodeMask) == 0) &&
  checkCode (unpackTypeCode type) (unpackTypeLength type)

variable {length : ℕ} {type : BitVec 32}

theorem unpackTypeCode_packSmallType (code : BitVec 32) (h : length ≤ typeLengthMax) :
    unpackTypeCode (packSmallType code length) = unpackTypeCode code := by
  unfold unpackTypeCode packSmallType
  rw [packed_and]
  have : length < 5 := Nat.lt_succ_of_le h
  rw [BitVec.and_self, show typeByteorderNormal &&& typeCodeMask = 0#32 by decide]
  have hl : BitVec.ofNat 32 length &&& typeCodeMask = 0#32 := by interval_cases length <;> decide
  rw [hl, or_zero, or_zero]

theorem unpackTypeCode_packLargeType (code : BitVec 32) :
    unpackTypeCode (packLargeType code) = unpackTypeCode code := by
  unfold unpackTypeCode packLargeType
  rw [packed_and, BitVec.and_self, show typeByteorderNormal &&& typeCodeMask = 0#32 by decide,
    show BitVec.ofNat 32 typeLengthLarge &&& typeCodeMask = 0#32 by decide, or_zero,
    or_zero]

theorem packed_and_unused (code length : BitVec 32)
    (h : length &&& ~~~(typeByteorderMask ||| typeLengthMask ||| typeCodeMask) = 0) :
    ((code &&& typeCodeMask) ||| length ||| typeByteorderNormal) &&&
      ~~~(typeByteorderMask ||| typeLengthMask ||| typeCodeMask) = 0 := by
  rw [packed_and, h, show typeCodeMask &&& ~~~(typeByteorderMask ||| typeLengthMask ||| typeCodeMask) =
    0#32 by decide, show typeByteorderNormal &&&
    ~~~(typeByteorderMask ||| typeLengthMask ||| typeCodeMask) = 0#32 by decide, and_zero]
  rfl

theorem packed_and_byteorder (code length : BitVec 32) (h : length &&& typeByteorderMask = 0) :
    ((code &&& typeCodeMask) ||| length ||| typeByteorderNormal) &&& typeByteorderMask =
      typeByteorderNormal := by
  rw [packed_and, h, show typeCodeMask &&& typeByteorderMask = 0#32 by decide,
    show typeByteorderNormal &&& typeByteorderMask = typeByteorderNormal by decide, and_zero]
  exact zero_or

theorem checkType_packSmallType (code : BitVec 32) (h : length ≤ typeLengthMax) :
    checkType (packSmallType code length) = checkCode (unpackTypeCode code) length := by
  have hlt : length < 5 := Nat.lt_succ_of_le h
  have hu := packed_and_unused code (BitVec.ofNat 32 length) (by interval_cases length <;> decide)
  have hb := packed_and_byteorder code (BitVec.ofNat 32 length) (by interval_cases length <;> decide)
  unfold checkType
  rw [unpackTypeCode_packSmallType code h, unpackTypeLength_packSmallType code h]
  unfold packSmallType
  rw [hu, hb]
  simp

theorem checkType_packLargeType (code : BitVec 32) :
    checkType (packLargeType code) = checkCode (unpackTypeCode code) typeLengthLarge := by
  have hu := packed_and_unused code (BitVec.ofNat 32 typeLengthLarge) (by decide)
  have hb := packed_and_byteorder code (BitVec.ofNat 32 typeLengthLarge) (by decide)
  unfold checkType
  rw [unpackTypeCode_packLargeType code, unpackTypeLength_packLargeType code]
  unfold packLargeType
  rw [hu, hb]
  simp

theorem isSmallObject_packSmallType (code : BitVec 32) (h : length ≤ typeLengthMax) :
    isSmallObject (packSmallType code length) = true ↔
      length = 4 ∧ code &&& 0x00007f00#32 = objectCode := by
  have hlt : length < 5 := Nat.lt_succ_of_le h
  have hm : packSmallType code length &&& objectMask =
      (code &&& 0x00007f00#32) ||| BitVec.ofNat 32 length := by
    unfold packSmallType
    rw [packed_and, show typeCodeMask &&& objectMask = 0x00007f00#32 by decide,
      show typeByteorderNormal &&& objectMask = 0#32 by decide, or_zero]
    congr 1
    interval_cases length <;> decide
  unfold isSmallObject
  rw [beq_iff_eq, hm]
  constructor
  · intro he
    have h7 := congrArg (fun x => x &&& typeLengthMask) he
    simp only [and_or_distrib_right, BitVec.and_assoc,
      show (0x00007f00#32 : BitVec 32) &&& typeLengthMask = 0#32 by decide, BitVec.and_zero,
      BitVec.zero_or] at h7
    have hl : length = 4 := by
      interval_cases length <;> first | rfl | exact absurd h7 (by decide)
    refine ⟨hl, ?_⟩
    have hf := congrArg (fun x => x &&& 0x00007f00#32) he
    rw [hl] at hf
    simpa only [BitVec.and_or_distrib_right, BitVec.and_assoc, BitVec.and_self,
      show (BitVec.ofNat 32 4 &&& 0x00007f00#32 : BitVec 32) = 0#32 by decide, BitVec.or_zero,
      show (objectCode &&& 0x00007f00#32 : BitVec 32) = objectCode by decide, BitVec.zero_or] using hf
  · rintro ⟨rfl, hc⟩
    rw [hc]
    exact or_comm _ _

/-- **The object that is made of an object header** has the type word of one, and passes. -/
theorem object_of_isLargeObject (h : isLargeObject type = true) :
    isSmallObject (packSmallType (unpackTypeCode type) 4) = true ∧
      checkType (packSmallType (unpackTypeCode type) 4) = true := by
  have he : type &&& objectMask = BitVec.ofNat 32 typeLengthLarge ||| objectCode := by
    simpa [isLargeObject] using h
  have hc : unpackTypeCode type &&& 0x00007f00#32 = objectCode := by
    have hf := congrArg (fun x => x &&& 0x00007f00#32) he
    unfold unpackTypeCode
    rw [BitVec.and_assoc, show typeCodeMask &&& 0x00007f00#32 = objectMask &&& 0x00007f00#32 by decide,
      ← BitVec.and_assoc]
    rw [show (BitVec.ofNat 32 typeLengthLarge ||| objectCode) &&& 0x00007f00#32 = objectCode by decide]
      at hf
    exact hf
  have hlen : 4 ≤ typeLengthMax := le_rfl
  refine ⟨(isSmallObject_packSmallType _ hlen).2 ⟨rfl, hc⟩, ?_⟩
  rw [checkType_packSmallType _ hlen]
  have hne : ∀ c : BitVec 32, c &&& 0x00007f00#32 ≠ objectCode → unpackTypeCode (unpackTypeCode type) ≠ c := by
    intro c hcne heq
    have hid : unpackTypeCode (unpackTypeCode type) = unpackTypeCode type := by
      unfold unpackTypeCode
      rw [BitVec.and_assoc, BitVec.and_self]
    rw [hid] at heq
    exact hcne (by rw [← heq, hc])
  unfold checkCode
  rw [if_neg (by
      rintro (h | h | h)
      · exact hne 0 (by decide) h
      · exact hne wildType (by decide) h
      · exact hne nullType (by decide) h),
    if_neg (hne valueType (by decide)), if_neg (hne errorType (by decide))]

theorem unpackTypeCode_unpackTypeCode (type : BitVec 32) :
    unpackTypeCode (unpackTypeCode type) = unpackTypeCode type := by
  unfold unpackTypeCode
  rw [BitVec.and_assoc, BitVec.and_self]

/-- A small type word that passes is one that `B_PACK_SMALL_TYPE` makes, if it has a code. -/
theorem packSmallType_of_checkType (h : checkType type = true) (hne : type ≠ kUndefinedTypeCode) :
    packSmallType (unpackTypeCode type) (unpackTypeLength type) = type := by
  simp only [checkType, Bool.and_eq_true, Bool.or_eq_true, beq_iff_eq, hne, or_false] at h
  obtain ⟨⟨hb, hu⟩, -⟩ := h
  have hl' : type &&& typeLengthMask = BitVec.ofNat 32 (unpackTypeLength type) := by
    unfold unpackTypeLength
    rw [BitVec.ofNat_toNat, setWidth_eq]
  have hsplit : type = ((type &&& typeCodeMask) ||| (type &&& typeLengthMask) |||
      (type &&& typeByteorderMask)) |||
        (type &&& ~~~(typeByteorderMask ||| typeLengthMask ||| typeCodeMask)) := by
    rw [← and_or_distrib_left, ← and_or_distrib_left, ← and_or_distrib_left,
      show (typeCodeMask ||| typeLengthMask ||| typeByteorderMask) |||
        ~~~(typeByteorderMask ||| typeLengthMask ||| typeCodeMask) = BitVec.allOnes 32 by decide,
      and_allOnes]
  rw [hb, hu, hl'] at hsplit
  unfold packSmallType unpackTypeCode
  rw [BitVec.and_assoc, BitVec.and_self]
  simpa using hsplit.symm

/-- **What an object is flattened to** is the header of an object, of which it is made again. -/
theorem largeObject_of_object (h : checkType type = true) (ho : isSmallObject type = true) :
    isLargeObject (packLargeType (unpackTypeCode type)) = true ∧
      packSmallType (unpackTypeCode type) 4 = type := by
  have he : type &&& objectMask = BitVec.ofNat 32 4 ||| objectCode := by
    simpa [isSmallObject] using ho
  have hlen : unpackTypeLength type = 4 := by
    have h7 := congrArg (fun x => (x &&& typeLengthMask).toNat) he
    simp only [BitVec.and_assoc, show objectMask &&& typeLengthMask = typeLengthMask by decide] at h7
    unfold unpackTypeLength
    rw [h7]
    decide
  have hcode : type &&& 0x00007f00#32 = objectCode := by
    have hf := congrArg (fun x => x &&& 0x00007f00#32) he
    rw [BitVec.and_assoc, show objectMask &&& 0x00007f00#32 = 0x00007f00#32 by decide] at hf
    rw [hf]
    decide
  constructor
  · unfold isLargeObject packLargeType unpackTypeCode
    rw [packed_and, beq_iff_eq, show typeCodeMask &&& objectMask = 0x00007f00#32 by decide,
      show typeByteorderNormal &&& objectMask = 0#32 by decide, or_zero, BitVec.and_assoc,
      show typeCodeMask &&& 0x00007f00#32 = 0x00007f00#32 by decide, hcode]
    decide
  · rw [← hlen]
    refine packSmallType_of_checkType h ?_
    rintro rfl
    exact absurd hlen (by decide)

theorem packLargeType_of_checkType (h : checkType type = true)
    (hl : unpackTypeLength type = typeLengthLarge) : packLargeType type = type := by
  have hne : type ≠ kUndefinedTypeCode := by
    rintro rfl
    exact absurd hl (by decide)
  simp only [checkType, Bool.and_eq_true, Bool.or_eq_true, beq_iff_eq, hne, or_false] at h
  obtain ⟨⟨hb, hu⟩, -⟩ := h
  have hl' : type &&& typeLengthMask = BitVec.ofNat 32 typeLengthLarge := by
    apply eq_of_toNat_eq
    rw [show (type &&& typeLengthMask).toNat = typeLengthLarge from hl]
    decide
  have hsplit : type = ((type &&& typeCodeMask) ||| (type &&& typeLengthMask) |||
      (type &&& typeByteorderMask)) |||
        (type &&& ~~~(typeByteorderMask ||| typeLengthMask ||| typeCodeMask)) := by
    rw [← and_or_distrib_left, ← and_or_distrib_left, ← and_or_distrib_left,
      show (typeCodeMask ||| typeLengthMask ||| typeByteorderMask) |||
        ~~~(typeByteorderMask ||| typeLengthMask ||| typeCodeMask) = BitVec.allOnes 32 by decide,
      and_allOnes]
  rw [hb, hu, hl'] at hsplit
  unfold packLargeType
  simpa using hsplit.symm

namespace SValue

/-- `SValue::check_integrity`. The number of pairs is not over `0x7fffffff`. -/
def checkIntegrity : SValue → Bool
  | small type _ => checkType type.1
  | large type buffer => checkType type.1 && decide (typeLengthMax < buffer.length)
  | map m => !m.maps.isEmpty && !isRedundant m.maps

mutual

/-- Whether `check_integrity` passes for a value and everything in it. -/
def isSound : SValue → Bool
  | map ⟨avail, dataSize, maps⟩ => checkIntegrity (map ⟨avail, dataSize, maps⟩) && allSound maps
  | v => v.checkIntegrity

/-- Whether `check_integrity` passes for everything in a table. -/
def allSound : List Pair → Bool
  | [] => true
  | (k, v) :: rest => isSound k && isSound v && allSound rest

end

mutual

/-- The object nodes of a value, in the order they are archived. -/
def objects : SValue → List (BitVec 32 × BitVec 32)
  | map ⟨_, _, maps⟩ => objectsMaps maps
  | small type data => if isSmallObject type.1 then [(type.1, data)] else []
  | large _ _ => []

/-- The object nodes in a table. -/
def objectsMaps : List Pair → List (BitVec 32 × BitVec 32)
  | [] => []
  | (k, v) :: rest => objects k ++ (objects v ++ objectsMaps rest)

end

theorem allSound_iff {l : List Pair} : allSound l = true ↔
    ∀ p ∈ l, p.1.isSound = true ∧ p.2.isSound = true := by
  induction l with
  | nil => simp [allSound]
  | cons p l ih =>
    simp [allSound, ih]

theorem isSound_map {m : BValueMap SValue} : (map m).isSound = true ↔
    (map m).checkIntegrity = true ∧ ∀ p ∈ m.maps, p.1.isSound = true ∧ p.2.isSound = true := by
  rw [isSound, Bool.and_eq_true, allSound_iff]

theorem objectsMaps_eq_nil {l : List Pair} : objectsMaps l = [] ↔
    ∀ p ∈ l, p.1.objects = [] ∧ p.2.objects = [] := by
  induction l with
  | nil => simp [objectsMaps]
  | cons p l ih =>
    simp [objectsMaps, ih, and_assoc]

end SValue

end OpenBinder
