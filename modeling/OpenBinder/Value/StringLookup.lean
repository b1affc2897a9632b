import OpenBinder.Remote.ParameterLaw
import OpenBinder.Stream.ByteStream
import OpenBinder.Value.LookupLaw

/-!
# Looking up a string

`ValueFor` of a `char*` or an `SString` looks for the bytes without making a value of them. Its
search compares the keys alone, while set items stand where their values do.

* `compareData_ofBytes`: bytes are compared as the value that they make.
* `Reaches`: the search for an entry meets no set item in front of it.
* `valueForChars_iff`: **when both ways find the same**.
-/

namespace OpenBinder

open Lib

/-- The sign of `memcmp`, of two blocks of one length. -/
def memcmp (a b : List Byte) : Ordering :=
  cmpCode (a.map fun b => (b.toNat : ℤ)) (b.map fun b => (b.toNat : ℤ))

namespace SValue

/-- `SValue::compare(type, data, length)`, of a type that is packed. -/
def compareData (v : SValue) (type : BitVec 32) (data : List Byte) : Ordering :=
  if v.mType ≠ type then cmpInt v.mType.toNat type.toNat
  else match v with
    | small _ word =>
      match unpackTypeLength type with
      | 0 => .eq
      | 4 => cmpInt word.toInt (wordOf (data.take 4)).toInt
      | n => memcmp ((wordBytes word).take n) (data.take n)
    | large _ buffer => (cmpInt buffer.length data.length).then (memcmp buffer data)
    | map _ => .eq

/-- The packed type of so many bytes. -/
def packType (type : BitVec 32) (len : ℕ) : BitVec 32 :=
  if len ≤ typeLengthMax then packSmallType type len else packLargeType type

end SValue

namespace BValueMap

/-- `BValueMap::GetIndexOf(type, data, length)`: the binary search by the keys. -/
def getIndexOfData (m : BValueMap SValue) (type : BitVec 32) (data : List Byte) : Bool × ℕ :=
  bisect (fun i => match m.maps[i]? with
    | some p => p.1.compareData type data
    | none => .gt) m.countMaps 0 m.countMaps

/-- `BValueMap::IndexFor(type, data, length)`. -/
def indexForData (m : BValueMap SValue) (type : BitVec 32) (data : List Byte) : Option ℕ :=
  match m.getIndexOfData type data with
  | (true, index) => some index
  | (false, _) => none

end BValueMap

namespace SValue

/-- `SValue::ValueFor(const char*)`, of the characters before the `NUL`. -/
def valueForChars (this : SValue) (key : List Byte) : SValue :=
  match this with
  | map m =>
    let len := key.length + 1
    match m.indexForData (packType stringType len) (key ++ [0]) with
    | some index => (m.maps[index]?.map Prod.snd).getD undefined
    -- look in a set
    | none => if (m.indexFor wild (stringValue key)).isSome then null else undefined
  | v =>
    if v.isWild then undefined
    else if v.compareData (packType stringType (key.length + 1)) (key ++ [0]) = .eq then null
    else undefined

/-- `SValue::ValueFor(const SString&)`, which takes the length from the string. -/
def valueForString (this : SValue) (key : List Byte) : SValue := this.valueForChars key

/-- Small data is compared by its bytes, or as a number if there are four of them. -/
theorem cmpCode_localKey (word : BitVec 32) {data : List Byte} (hle : data.length ≤ 4)
    (hpos : data ≠ []) :
    cmpCode (localKey data.length word) (localKey data.length
      (wordOf ((data ++ [0, 0, 0, 0]).take 4))) =
    match data.length with
    | 0 => .eq
    | 4 => cmpInt word.toInt (wordOf (data.take 4)).toInt
    | n => memcmp ((wordBytes word).take n) (data.take n) := by
  have hbytes : (wordBytes (wordOf ((data ++ [0, 0, 0, 0]).take 4))).take data.length =
      data.take data.length := by
    rw [wordBytes_wordOf (by simp), List.take_take, Nat.min_eq_left hle,
      List.take_append_of_le_length (Nat.le_refl _)]
  have hshort : data.length < 4 → cmpCode (localKey data.length word) (localKey data.length
      (wordOf ((data ++ [0, 0, 0, 0]).take 4))) =
        memcmp ((wordBytes word).take data.length) (data.take data.length) := by
    intro hlt
    unfold localKey memcmp
    rw [if_neg (by omega), if_neg (by omega), localBytes_eq word hle, localBytes_eq _ hle, hbytes]
  match hlength : data.length with
  | 0 => exact absurd (List.length_eq_zero_iff.1 hlength) hpos
  | 1 | 2 | 3 =>
    rw [hlength] at hshort
    exact hshort (by decide)
  | 4 =>
    rw [List.take_append_of_le_length (by omega)]
    show cmpCode [word.toInt] [_] = cmpInt _ _
    rw [cmpCode_cons, cmpCode_self, Ordering.then_eq]
  | n + 5 => omega

theorem compareData_ofBytes (v : SValue) (type : BitVec 32) {data : List Byte} (hpos : data ≠ []) :
    v.compareData (packType type data.length) data = v.compare (ofBytes type data) := by
  have htype : (ofBytes type data).mType = packType type data.length := mType_ofBytes type data
  unfold compareData
  by_cases hne : v.mType ≠ packType type data.length
  · rw [if_pos hne, compare_of_mType_ne (by rwa [htype]), htype]
  rw [if_neg hne]
  rw [not_not] at hne
  unfold ofBytes packType at *
  by_cases hsmall : data.length ≤ typeLengthMax
  · rw [dif_pos hsmall]
    rw [if_pos hsmall] at hne ⊢
    have hlength := unpackTypeLength_packSmallType type hsmall
    cases v with
    | small stype word =>
      rw [SValue.compare, show stype.1 = packSmallType type data.length from hne]
      simp only [hlength, cmpInt_self]
      exact (cmpCode_localKey word hsmall hpos).symm
    | large ltype buffer =>
      have hne' := SmallType.ne_large ⟨packSmallType type data.length, by rwa [hlength]⟩ ltype
      exact absurd hne.symm hne'
    | map m =>
      have hne' := SmallType.ne_map ⟨packSmallType type data.length, by rwa [hlength]⟩
      exact absurd hne.symm hne'
  · rw [dif_neg hsmall]
    rw [if_neg hsmall] at hne ⊢
    have hlength := unpackTypeLength_packLargeType type
    cases v with
    | small stype word => exact absurd hne (stype.ne_large ⟨packLargeType type, hlength⟩)
    | large ltype buffer =>
      rw [SValue.compare, show ltype.1 = packLargeType type from hne]
      simp only [cmpInt_self]
      rfl
    | map m => exact absurd hne.symm (LargeType.ne_map ⟨packLargeType type, hlength⟩)

theorem compareData_string (v : SValue) (key : List Byte) :
    v.compareData (packType stringType (key.length + 1)) (key ++ [0]) =
      v.compare (stringValue key) := by
  have h := compareData_ofBytes v stringType (show key ++ [(0 : Byte)] ≠ [] by simp)
  rwa [List.length_append] at h

/-! ### Where the search by the keys goes -/

theorem mType_stringValue (key : List Byte) :
    (stringValue key).mType = packType stringType (key.length + 1) := by
  show (ofBytes stringType (key ++ [0])).mType = _
  rw [mType_ofBytes, List.length_append]
  rfl

/-- The type words of strings are below that of `WILD`, and none is that of a map. -/
theorem packType_string_lt (len : ℕ) :
    (packType stringType len).toNat < kWildTypeCode.toNat ∧
      unpackTypeLength (packType stringType len) ≠ typeLengthMap := by
  unfold packType
  split
  · rename_i hle
    have hlen : len < 5 := Nat.lt_succ_of_le hle
    interval_cases len <;> decide
  · decide

theorem stringValue_isWild (key : List Byte) : (stringValue key).isWild = false := by
  have hlt := (packType_string_lt (key.length + 1)).1
  rw [← mType_stringValue] at hlt
  rw [isWild, beq_eq_false_iff_ne]
  rintro h
  rw [h] at hlt
  exact absurd hlt (Nat.lt_irrefl _)

theorem stringValue_isSimple (key : List Byte) : (stringValue key).isSimple = true := by
  rw [isSimple, mType_stringValue, bne_iff_ne]
  exact (packType_string_lt (key.length + 1)).2

theorem compare_stringValue_of_isWild {k : SValue} (hk : k.isWild = true) (key : List Byte) :
    k.compare (stringValue key) = .gt := by
  have htype : k.mType = kWildTypeCode := by simpa [isWild] using hk
  have hlt := (packType_string_lt (key.length + 1)).1
  rw [← mType_stringValue, ← htype] at hlt
  rw [compare_of_mType_ne fun h => by rw [h] at hlt; exact absurd hlt (Nat.lt_irrefl _)]
  unfold cmpInt
  rw [if_neg (by omega), if_neg (by omega)]

theorem cmpCode_slot {p q : Pair} (hp : p.1.isWild = false) (hq : q.1.isWild = false) :
    cmpCode (slot p) (slot q) = p.1.compare q.1 := by
  rw [slot_key hp, slot_key hq, compare_codeCmp p.1 q.1, cmpCode_self, Ordering.then_eq]

end SValue

namespace BValueMap

open SValue

/-- **The search for the entry at a position meets no set item in front of it.** -/
def Reaches (m : BValueMap SValue) (j : ℕ) : Prop :=
  ∀ i ∈ met j m.countMaps 0 m.countMaps, i < j → ∀ p, m.maps[i]? = some p → p.1.isWild = false

/-- What the search by the keys says of a position. -/
def keyVerdict (m : BValueMap SValue) (key : List Byte) (i : ℕ) : Ordering :=
  match m.maps[i]? with
  | some p => p.1.compare (stringValue key)
  | none => .gt

theorem getIndexOfData_eq (m : BValueMap SValue) (key : List Byte) :
    m.getIndexOfData (packType stringType (key.length + 1)) (key ++ [0]) =
      bisect (m.keyVerdict key) m.countMaps 0 m.countMaps := by
  unfold getIndexOfData keyVerdict
  simp only [compareData_string]

variable {m : BValueMap SValue} {key : List Byte}

theorem keyVerdict_of_getElem? {i : ℕ} {p : Pair} (h : m.maps[i]? = some p) :
    m.keyVerdict key i = p.1.compare (stringValue key) := by
  unfold keyVerdict
  rw [h]

theorem keyVerdict_eq {i : ℕ} (h : m.keyVerdict key i = .eq) :
    ∃ p, m.maps[i]? = some p ∧ p.1.isWild = false ∧ p.1.code = (stringValue key).code := by
  unfold keyVerdict at h
  split at h
  · rename_i p hp
    refine ⟨p, hp, ?_, compare_eq_iff.1 h⟩
    rw [isWild_code (compare_eq_iff.1 h), stringValue_isWild]
  · cases h

section

variable {j : ℕ} {p : Pair} (hi : Items m.maps) (hp : m.maps[j]? = some p)
  (hwild : p.1.isWild = false) (hcode : p.1.code = (stringValue key).code)
include hi hp hwild hcode

/-- **The verdicts lead to an entry** exactly if no set item is met in front of it. -/
theorem leads_iff_reaches : Leads (m.keyVerdict key) j m.countMaps 0 m.countMaps ↔ m.Reaches j := by
  have hj : j < m.countMaps := (List.getElem?_eq_some_iff.1 hp).1
  have hcompare : ∀ k : SValue, k.compare (stringValue key) = k.compare p.1 := fun k => by
    rw [compare_code, compare_code, hcode]
  rw [leads_iff m.countMaps 0 m.countMaps (by omega) (Nat.zero_le j) hj]
  constructor
  · intro h i hmet hlt q hq
    have hv := (h i hmet).1 hlt
    rw [keyVerdict_of_getElem? hq] at hv
    by_contra hw
    rw [compare_stringValue_of_isWild (by simpa using hw)] at hv
    cases hv
  · intro h i hmet
    have hverdict : ∀ q, m.maps[i]? = some q → m.keyVerdict key i = q.1.compare p.1 :=
      fun q hq => (keyVerdict_of_getElem? hq).trans (hcompare q.1)
    constructor
    · intro hlt
      obtain ⟨q, hq⟩ : ∃ q, m.maps[i]? = some q := ⟨_, List.getElem?_eq_getElem (by
        exact Nat.lt_trans hlt hj)⟩
      rw [hverdict q hq, ← cmpCode_slot (h i hmet hlt q hq) hwild]
      exact hi.table.lt_of_getElem? hlt hq hp
    · intro hgt
      cases hq : m.maps[i]? with
      | none =>
        unfold keyVerdict
        rw [hq]
      | some q =>
        cases hw : q.1.isWild with
        | true =>
          rw [keyVerdict_of_getElem? hq]
          exact compare_stringValue_of_isWild hw key
        | false =>
          rw [hverdict q hq, ← cmpCode_slot hw hwild]
          exact Std.OrientedCmp.gt_of_lt (hi.table.lt_of_getElem? hgt hp hq)

/-- **An entry is found by the bytes of its key** exactly if no set item is met in front of it. -/
theorem indexForData_entry :
    (m.Reaches j → m.indexForData (packType stringType (key.length + 1)) (key ++ [0]) = some j) ∧
      (¬ m.Reaches j →
        m.indexForData (packType stringType (key.length + 1)) (key ++ [0]) = none) := by
  have hj : j < m.countMaps := (List.getElem?_eq_some_iff.1 hp).1
  have heq : m.keyVerdict key j = .eq := by
    rw [keyVerdict_of_getElem? hp]
    exact compare_eq_iff.2 hcode
  have hiff := bisect_eq_iff heq m.countMaps 0 m.countMaps (by omega) (Nat.zero_le j) hj
  rw [leads_iff_reaches hi hp hwild hcode] at hiff
  unfold indexForData
  rw [getIndexOfData_eq]
  refine ⟨fun h => by rw [hiff.2 h], fun h => ?_⟩
  split
  · rename_i index hfound
    -- another hit would be the same entry
    have hwithin := bisect_within (c := m.keyVerdict key) m.countMaps 0 m.countMaps (Nat.zero_le _)
    rw [hfound] at hwithin
    obtain ⟨q, hq, hqw, hqc⟩ := keyVerdict_eq (hwithin.2.2 rfl).2
    obtain rfl : index = j :=
      hi.table.getElem?_inj hq hp (by rw [slot_key hqw, slot_key hwild, hqc, hcode])
    exact absurd (hiff.1 hfound) h
  · rfl

end

theorem indexForData_noEntry (hno : ∀ x, ¬ Entry m.maps (stringValue key).code x) :
    m.indexForData (packType stringType (key.length + 1)) (key ++ [0]) = none := by
  unfold indexForData
  rw [getIndexOfData_eq]
  split
  · rename_i index hfound
    have hwithin := bisect_within (c := m.keyVerdict key) m.countMaps 0 m.countMaps (Nat.zero_le _)
    rw [hfound] at hwithin
    obtain ⟨⟨k, x⟩, hq, hqw, hqc⟩ := keyVerdict_eq (hwithin.2.2 rfl).2
    exact absurd ⟨k, List.mem_of_getElem? hq, hqw, hqc⟩ (hno x)
  · rfl

end BValueMap

namespace SValue

/-- **The lookups of the characters and of the string** find what the lookup of the value finds. -/
structure StringExact (v : SValue) (key : List Byte) : Prop where
  chars : (v.valueForChars key).Equal (v.valueFor (stringValue key))
  string : (v.valueForString key).Equal (v.valueFor (stringValue key))

/-- **The entry of a string is reached**, or it has the value `NULL` and the string is a set item as
well. -/
def StringReached (v : SValue) (key : List Byte) : Prop :=
  ∀ m j p, v = map m → m.maps[j]? = some p → p.1.isWild = false →
    p.1.Equal (stringValue key) →
      m.Reaches j ∨ p.2.isNull = true ∧ SetItem m.maps (stringValue key).code

theorem valueForChars_of_isSimple {v : SValue} (hs : v.isSimple = true) (he : v.isError = false)
    (hw : v.isWild = false) (key : List Byte) :
    v.valueForChars key = v.valueFor (stringValue key) := by
  have hsym : v.compare (stringValue key) = .eq ↔ (stringValue key).compare v = .eq := by
    rw [compare_eq_iff, compare_eq_iff, eq_comm]
  cases v with
  | map m => simp at hs
  | small type word =>
    unfold valueForChars valueFor
    simp only [hw, he, stringValue_isWild, compareData_string, hsym, Bool.false_eq_true, if_false]
  | large type buffer =>
    unfold valueForChars valueFor
    simp only [hw, he, stringValue_isWild, compareData_string, hsym, Bool.false_eq_true, if_false]

/-- **Both ways find the same** exactly if the entry is reached. -/
theorem valueForChars_map {m : BValueMap SValue} (hn : (map m).isNormal = true) (key : List Byte) :
    ((map m).valueForChars key).Equal ((map m).valueFor (stringValue key)) ↔
      (map m).StringReached key := by
  have hi := (isNormal_map.1 hn).1
  by_cases hno : ∀ x, ¬ Entry m.maps (stringValue key).code x
  · rw [valueFor_noEntry hi (stringValue_isWild key) hno]
    unfold valueForChars
    simp only [BValueMap.indexForData_noEntry hno]
    refine ⟨fun _ m' j p hm hp hw heq => ?_, fun _ => Equal.refl _⟩
    cases hm
    exact absurd ⟨p.1, List.mem_of_getElem? hp, hw, heq.code⟩ (hno p.2)
  · rw [not_forall] at hno
    obtain ⟨y, hy⟩ := hno
    rw [not_not] at hy
    rw [valueFor_entry hi (stringValue_isWild key) hy]
    obtain ⟨k, hmem, hkw, hkc⟩ := hy
    obtain ⟨j, hj⟩ := List.mem_iff_getElem?.1 hmem
    have hdefined : y.isDefined = true := (isProper_iff.1 (hi.proper _ hmem)).2.1
    obtain ⟨hfound, hmissed⟩ := BValueMap.indexForData_entry hi hj hkw hkc
    by_cases hreach : m.Reaches j
    · unfold valueForChars
      simp only [hfound hreach, hj, Option.map_some, Option.getD_some]
      refine ⟨fun _ m' j' p hm hp hw heq => ?_, fun _ => Equal.refl _⟩
      cases hm
      obtain rfl := hi.table.getElem?_inj hp hj (by rw [slot_key hw, slot_key hkw, heq.code, hkc])
      exact .inl hreach
    · -- the search goes wrong, and the string is only looked up among the set items
      have hset := BValueMap.indexFor_set hi (stringValue_isSimple key)
      unfold valueForChars
      simp only [hmissed hreach]
      constructor
      · intro heq m' j' p hm hp hw hcode
        cases hm
        obtain rfl := hi.table.getElem?_inj hp hj
          (by rw [slot_key hw, slot_key hkw, hcode.code, hkc])
        obtain rfl : p = (k, y) := Option.some.inj (hp.symm.trans hj)
        by_cases hin : (m.indexFor wild (stringValue key)).isSome = true
        · rw [if_pos hin] at heq
          exact .inr ⟨by rw [← isNull_code heq.code]; decide, hset.1 hin⟩
        · rw [if_neg hin] at heq
          rw [← isDefined_code heq.code] at hdefined
          exact absurd hdefined (by decide)
      · intro h
        obtain ⟨hnull, hin⟩ := (h m j (k, y) rfl hj hkw (equal_of_code hkc)).resolve_left hreach
        rw [if_pos (hset.2 hin)]
        exact equal_of_code (isNull_iff_code.1 hnull).symm

/-- **The raw lookups find what the generic lookup finds** exactly if the search by the keys reaches
the entry. -/
theorem string_exact_iff {v : SValue} (hn : v.isNormal = true) (hf : v.isErrorFree = true)
    (hw : v.isWild = false) (key : List Byte) : v.StringExact key ↔ v.StringReached key := by
  have hboth : v.StringExact key ↔ (v.valueForChars key).Equal (v.valueFor (stringValue key)) :=
    ⟨fun h => h.chars, fun h => ⟨h, h⟩⟩
  rw [hboth]
  by_cases hs : v.isSimple = true
  · rw [valueForChars_of_isSimple hs (isError_of_isErrorFree hf) hw]
    refine ⟨fun _ m j p hm => ?_, fun _ => Equal.refl _⟩
    rw [hm, isSimple_map] at hs
    cases hs
  · obtain ⟨m, rfl⟩ := isSimple_eq_false.1 (by simpa using hs)
    exact valueForChars_map hn key

/-- The map `{"a" -> 1, "b" -> 2}`. -/
def twoStrings : SValue :=
  map ⟨3, none, [(stringValue [0x61], int32 1), (stringValue [0x62], int32 2)]⟩

theorem string_exact_twoStrings : twoStrings.StringExact [0x62] := by
  refine (string_exact_iff (by decide) (by decide) (by decide) [0x62]).2 ?_
  intro m j p hm hp hw _
  cases hm
  refine .inl fun i _ _ q hq => ?_
  match i, hq with
  | 0, hq => cases hq; decide
  | 1, hq => cases hq; decide

/-- The map `{WILD -> "a", "b" -> 2}`, where the set item is met in front of the entry. -/
theorem string_not_exact_set : ¬ ∀ (v : SValue) (key : List Byte), v.isNormal = true →
    v.isErrorFree = true → v.isWild = false → v.StringExact key := by
  intro h
  have hexact := h (map ⟨3, none, [(wild, stringValue [0x61]), (stringValue [0x62], int32 2)]⟩)
    [0x62] (by decide) (by decide) (by decide)
  have hdefined := isDefined_code hexact.chars.code
  exact absurd hdefined (by decide)

end SValue

end OpenBinder
