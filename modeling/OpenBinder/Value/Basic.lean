import OpenBinder.Lib.Bisect
import OpenBinder.Lib.Order
import OpenBinder.Value.TypeCode
import OpenBinder.Value.Map

/-!
# `SValue`: representation, comparison and lookup

An `SValue` is a type word and, depending on its length bits, four bytes of inline
data, a shared buffer, or a table of pairs. This file has the predicates of
`ValueInternal.h`, the order `SValue::Compare` with the order `compare_map` of pairs
built on it, and the searches that use them.
-/

namespace OpenBinder

open Lib

/-- A value: `m_type` and the member of `m_data` that its length bits select. -/
inductive SValue where
  | small (type : SmallType) (data : BitVec 32)
  | large (type : LargeType) (buffer : List (BitVec 8))
  | map (map : BValueMap SValue)

namespace SValue

/-- A (key, value) pair of a map. -/
abbrev Pair := SValue × SValue

/-- Induction over a value and everything inside its tables. -/
theorem ind {P : SValue → Prop} (small : ∀ type data, P (.small type data))
    (large : ∀ type buffer, P (.large type buffer))
    (map : ∀ m : BValueMap SValue, (∀ p ∈ m.maps, P p.1 ∧ P p.2) → P (.map m)) : ∀ v, P v := by
  intro v
  refine @SValue.rec P (fun m => ∀ p ∈ m.maps, P p.1 ∧ P p.2) (fun l => ∀ p ∈ l, P p.1 ∧ P p.2)
    (fun p => P p.1 ∧ P p.2) small large map ?_ ?_ ?_ ?_ v
  · intro _ _ _ h; exact h
  · intro p hp; cases hp
  · intro p l hp hl q hq
    rcases List.mem_cons.1 hq with rfl | hq
    · exact hp
    · exact hl q hq
  · intro a b ha hb; exact ⟨ha, hb⟩

def mType : SValue → BitVec 32
  | small type _ => type.1
  | large type _ => type.1
  | map _ => kMapTypeCode

/-- `B_UNDEFINED_VALUE`. -/
def undefined : SValue := small ⟨kUndefinedTypeCode, by decide⟩ 0

/-- `B_WILD_VALUE`. -/
def wild : SValue := small ⟨kWildTypeCode, by decide⟩ 0

/-- `B_NULL_VALUE`. -/
def null : SValue := small ⟨kNullTypeCode, by decide⟩ 0

/-- The value `set_error` makes; a code that is not an error becomes `B_ERROR`. -/
def error (code : BitVec 32) : SValue :=
  small ⟨kErrorTypeCode, by decide⟩ (if code.toInt < 0 then code else BitVec.ofInt 32 (-1))

def int32 (value : BitVec 32) : SValue := small ⟨packSmallType int32Type 4, by decide⟩ value

/-- The map with the given pairs, in a block made for them. -/
def ofPairs (maps : List Pair) : SValue := map ⟨BValueMap.capacity maps.length, none, maps⟩

def isDefined (v : SValue) : Bool := v.mType != kUndefinedTypeCode
def isWild (v : SValue) : Bool := v.mType == kWildTypeCode
def isNull (v : SValue) : Bool := v.mType == kNullTypeCode
def isError (v : SValue) : Bool := v.mType == kErrorTypeCode
def isFinal (v : SValue) : Bool := v.isWild || v.isError
def isMap (v : SValue) : Bool := unpackTypeLength v.mType == typeLengthMap
def isSimple (v : SValue) : Bool := unpackTypeLength v.mType != typeLengthMap
def isObject (v : SValue) : Bool := isSmallObject v.mType
def isSpecified (v : SValue) : Bool := v.isDefined && !v.isWild

/-- `ErrorCheck`: the code of an error value, `B_OK` otherwise. -/
def errorCheck : SValue → ℤ
  | small type data => if type.1 = kErrorTypeCode then data.toInt else 0
  | _ => 0

/-- The first `n` bytes of `m_data.local` (little endian). -/
def localBytes (data : BitVec 32) (n : ℕ) : List ℤ :=
  (List.range n).map fun i => ((data.toNat / 256 ^ i % 256 : ℕ) : ℤ)

/-- What `Compare` looks at in the data of two small values of one type word: the
first one to three bytes, or all four as a signed integer. -/
def localKey (length : ℕ) (data : BitVec 32) : List ℤ :=
  if length = 4 then [data.toInt] else localBytes data length

mutual

/-- `SValue::Compare`: by type word, then by data. -/
protected def compare : SValue → SValue → Ordering
  | small type data, small type' data' =>
    (cmpInt type.1.toNat type'.1.toNat).then
      (cmpCode (localKey (unpackTypeLength type.1) data)
        (localKey (unpackTypeLength type'.1) data'))
  | large type buffer, large type' buffer' =>
    (cmpInt type.1.toNat type'.1.toNat).then
      ((cmpInt buffer.length buffer'.length).then
        (cmpCode (buffer.map fun b => (b.toNat : ℤ)) (buffer'.map fun b => (b.toNat : ℤ))))
  | map ⟨_, _, maps⟩, map ⟨_, _, maps'⟩ =>
    (cmpInt maps.length maps'.length).then (SValue.compareMaps maps maps')
  | a, b => cmpInt a.mType.toNat b.mType.toNat

/-- The loop of `BValueMap::Compare` over two tables of one length. -/
protected def compareMaps : List Pair → List Pair → Ordering
  | (k, v) :: rest, (k', v') :: rest' =>
    (SValue.compare k k').then ((SValue.compare v v').then (SValue.compareMaps rest rest'))
  | _, _ => .eq

end

/-- `SValue::compare_map`: a pair with a wild key is placed by its value, just
before the pair whose key is that value. -/
def compareMap (p q : Pair) : Ordering :=
  let cmp1 := if p.1.isWild then p.2 else p.1
  let cmp2 := if q.1.isWild then q.2 else q.1
  if cmp1.mType != cmp2.mType && !p.1.isWild then
    if cmp1.mType.toNat < cmp2.mType.toNat then .lt else .gt
  else if cmp1.isSimple then
    let c := cmp1.compare cmp2
    if c = .eq ∧ p.1.isWild ≠ q.1.isWild then (if p.1.isWild then .lt else .gt) else c
  else
    p.1.compare q.1

/-- The pairs `GetNextItem` goes through: a simple value is one pair with a wild
key, an error has none. -/
def items : SValue → List Pair
  | map m => m.maps
  | v => if v.isError then [] else if v.isDefined then [(wild, v)] else []

end SValue

namespace BValueMap

open SValue

/-- `BValueMap::GetIndexOf`: the binary search by `compare_map`. -/
def getIndexOf (m : BValueMap SValue) (k v : SValue) : Bool × ℕ :=
  Lib.bisect (fun i => match m.maps[i]? with
    | some p => compareMap p (k, v)
    | none => .gt) m.countMaps 0 m.countMaps

/-- `BValueMap::IndexFor`; the value only matters when the key is wild. -/
def indexFor (m : BValueMap SValue) (k : SValue) (v : SValue := undefined) : Option ℕ :=
  match m.getIndexOf k v with
  | (true, index) => some index
  | (false, _) => none

/-- `BValueMap::AddNewMap`. The results `B_NAME_IN_USE` and `B_BAD_VALUE` leave the
table alone. -/
def addNewMap (m : BValueMap SValue) (key value : SValue) : BValueMap SValue :=
  if value.isDefined && key.isDefined && (!value.isWild || !key.isWild) then
    match m.getIndexOf key value with
    | (false, index) => ({ m with dataSize := none }).addMapAt index key value
    | (true, _) => m
  else m

end BValueMap

end OpenBinder
