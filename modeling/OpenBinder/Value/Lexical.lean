import OpenBinder.Value.StringLookup

/-!
# `LexicalCompare`

The order in which values are shown. Simple values of one type code and one length are compared
by a switch over the type word, as the numbers that they are; other simple values of one type
code by their bytes. Everything else is compared by type word, and maps pair by pair.

* `lexicalCompare`: the comparison; `none` where it follows a pointer that is none.
* `lexicalMaps_eq`: tables are put in order.
* `lexicalCompare_apart`: values of different families are compared by type word.
* `lexicalCompare_simple`, `lexicalCompare_maps`: how those of one family are compared.
-/

namespace OpenBinder

open Lib

/-- `B_UINT8_TYPE`, `'u08'`. -/
def uint8Type : BitVec 32 := typeCode 0x753038#32

/-- `B_UINT16_TYPE`, `'u16'`. -/
def uint16Type : BitVec 32 := typeCode 0x753136#32

/-- `B_UINT32_TYPE`, `'u32'`. -/
def uint32Type : BitVec 32 := typeCode 0x753332#32

/-- `B_UINT64_TYPE`, `'u64'`. -/
def uint64Type : BitVec 32 := typeCode 0x753634#32

namespace SValue

/-- How the switch of `LexicalCompare` ends. -/
inductive Switch where
  /-- A case returns. -/
  | returns (result : Ordering)
  /-- A case for 64-bit types takes the inline data for a buffer. -/
  | follows
  /-- No case, or one that breaks. -/
  | breaks

/-- What a case reads from `m_data.local`, as a number; `none` without a case. Undefined and wild
have no data, and their case finds no difference. -/
def caseNumber (type data : BitVec 32) : Option ℤ :=
  if type = kUndefinedTypeCode ∨ type = kWildTypeCode then some 0
  else if type = packSmallType boolType 1 ∨ type = packSmallType int8Type 1 then
    some (data.setWidth 8).toInt
  else if type = packSmallType uint8Type 1 then some (data.setWidth 8).toNat
  else if type = packSmallType int16Type 2 then some (data.setWidth 16).toInt
  else if type = packSmallType uint16Type 2 then some (data.setWidth 16).toNat
  else if type = packSmallType int32Type 4 then some data.toInt
  else if type = packSmallType uint32Type 4 then some data.toNat
  else none

/-- The case labels for 64-bit types are type codes and not packed type words. The word of a value
in a buffer is none of them, that of an inline value that was unarchived may be. -/
def followsBuffer (type : BitVec 32) : Prop :=
  type = int64Type ∨ type = uint64Type ∨ type = doubleType

instance (type : BitVec 32) : Decidable (followsBuffer type) :=
  inferInstanceAs (Decidable (_ ∨ _))

/-- The switch over `m_type`. All labels have the length bits of inline data. -/
def lexicalSwitch (compareFloat : BitVec 32 → BitVec 32 → Ordering) : SValue → SValue → Switch
  | small type data, small _ data' =>
    match caseNumber type data, caseNumber type data' with
    | some x, some y => .returns (cmpInt x y)
    | _, _ =>
      if type.1 = packSmallType floatType 4 then .returns (compareFloat data data')
      else if followsBuffer type then .follows
      else .breaks
  | _, _ => .breaks

/-- The end of the comparison of simple values. What `memcmp` finds is not returned. -/
def lexicalData (data data' : List Byte) : Ordering :=
  let n := min data.length data'.length
  if memcmp (data.take n) (data'.take n) = .eq ∧ data.length ≠ data'.length then
    cmpInt data.length data'.length
  else .eq

/-- `BValueMap::LexicalCompare`, of the pairs of two tables: as many as both have are compared by
`Compare`. -/
def lexicalMaps (maps maps' : List Pair) : Ordering :=
  (SValue.compareMaps maps maps').then (cmpInt maps.length maps'.length)

def lexicalCompare (compareFloat : BitVec 32 → BitVec 32 → Ordering) (this o : SValue) :
    Option Ordering :=
  if this.isSimple && o.isSimple then
    if unpackTypeCode this.mType ≠ unpackTypeCode o.mType then
      some (cmpInt this.mType.toNat o.mType.toNat)
    else
      let switch :=
        if unpackTypeLength this.mType = unpackTypeLength o.mType then
          lexicalSwitch compareFloat this o
        else .breaks
      match switch with
      | .returns result => some result
      | .follows => none
      | .breaks => some (lexicalData (this.bytes.getD []) (o.bytes.getD []))
  else if this.mType ≠ o.mType then some (cmpInt this.mType.toNat o.mType.toNat)
  else match this, o with
    | map m, map m' => some (lexicalMaps m.maps m'.maps)
    | _, _ => none

/-! ## Tables -/

/-- The pairs of two tables, key by key and value by value. -/
def comparePair : Pair → Pair → Ordering :=
  compareLex (fun p q => p.1.compare q.1) fun p q => p.2.compare q.2

instance : Std.TransCmp fun p q : Pair => p.1.compare q.1 where
  eq_swap := by intro p q; exact Std.OrientedCmp.eq_swap
  isLE_trans := by intro p q r; exact Std.TransCmp.isLE_trans

instance : Std.TransCmp fun p q : Pair => p.2.compare q.2 where
  eq_swap := by intro p q; exact Std.OrientedCmp.eq_swap
  isLE_trans := by intro p q r; exact Std.TransCmp.isLE_trans

instance : Std.TransCmp comparePair := inferInstanceAs (Std.TransCmp (compareLex _ _))

theorem lexicalMaps_eq (l l' : List Pair) :
    lexicalMaps l l' = List.compareLex comparePair l l' := by
  unfold lexicalMaps
  induction l generalizing l' with
  | nil => cases l' <;> simp [SValue.compareMaps, cmpInt, List.compareLex]
  | cons p l ih =>
    cases l' with
    | nil =>
      have hgt : cmpInt (p :: l).length ([] : List Pair).length = .gt := by
        unfold cmpInt
        rw [List.length_cons, List.length_nil, if_neg (by omega), if_neg (by omega)]
      rw [hgt, SValue.compareMaps, Ordering.eq_then, List.compareLex_cons_nil]
      simp
    | cons q l' =>
      have hlen : cmpInt (p :: l).length (q :: l').length = cmpInt l.length l'.length := by
        unfold cmpInt; simp
      rw [hlen, List.compareLex_cons_cons, ← ih, SValue.compareMaps, Ordering.then_assoc,
        Ordering.then_assoc, comparePair, compareLex, Ordering.then_assoc]

theorem code_of_lexicalMaps {m m' : BValueMap SValue} (h : lexicalMaps m.maps m'.maps = .eq) :
    (map m).code = (map m').code := by
  unfold lexicalMaps at h
  rw [Ordering.then_eq_eq, cmpInt_eq_iff] at h
  exact code_of_forall₂ (compareMaps_eq _ _ (by exact_mod_cast h.2) h.1)

/-! ## Families -/

/-- The values that are compared by more than their type words: those of one type code, and maps. -/
def family (v : SValue) : Option (BitVec 32) :=
  if v.isSimple then some (unpackTypeCode v.mType) else none

theorem family_ne_of_mType {a b : SValue} (h : a.family ≠ b.family) : a.mType ≠ b.mType := by
  intro he
  apply h
  unfold family isSimple
  rw [he]

variable {compareFloat : BitVec 32 → BitVec 32 → Ordering} {a b : SValue}

theorem lexicalCompare_apart (h : a.family ≠ b.family) :
    lexicalCompare compareFloat a b = some (cmpInt a.mType.toNat b.mType.toNat) := by
  unfold lexicalCompare
  by_cases hs : (a.isSimple && b.isSimple) = true
  · rw [if_pos hs]
    rw [Bool.and_eq_true] at hs
    rw [if_pos]
    intro he
    apply h
    unfold family
    rw [hs.1, hs.2, he]
  · rw [if_neg hs, if_pos (family_ne_of_mType h)]

theorem lexicalCompare_maps (m m' : BValueMap SValue) :
    lexicalCompare compareFloat (map m) (map m') = some (lexicalMaps m.maps m'.maps) := by
  have hs : (map m).isSimple = false := by unfold isSimple; rw [mType, unpackTypeLength_map]; decide
  unfold lexicalCompare
  rw [hs, Bool.false_and, if_neg (by decide), if_neg (fun hne => hne rfl)]

/-- **Simple values of one type code**: the switch first, the bytes where it breaks. -/
theorem lexicalCompare_simple (ha : a.isSimple = true) (h : a.family = b.family) :
    lexicalCompare compareFloat a b =
      match if unpackTypeLength a.mType = unpackTypeLength b.mType then
          lexicalSwitch compareFloat a b else .breaks with
      | .returns result => some result
      | .follows => none
      | .breaks => some (lexicalData (a.bytes.getD []) (b.bytes.getD [])) := by
  unfold family at h
  rw [if_pos ha] at h
  split at h
  · rename_i hb
    unfold lexicalCompare
    rw [ha, hb, Bool.true_and, if_pos rfl, if_neg (fun hne => hne (Option.some.inj h))]
  · cases h

end SValue

end OpenBinder
