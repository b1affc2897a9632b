import OpenBinder.Value.Order
import OpenBinder.Lib.Table

/-!
# Normalised values

A normalised map is not empty, strictly sorted by `compare_map`, has no undefined
key or value, no `{WILD -> map}` or `{WILD -> WILD}` pair, and is not a single
`{WILD -> x}` pair; the values in it likewise (`isNormal`). While an operation is
at work the table may be empty or a single `{WILD -> x}`: then only the conditions on
its pairs hold (`Items`).

* `compareMap_eq`: on such pairs `compare_map` is the order of their **slots**. The
  slot of a pair is its key, or, for a wild key, its value, marked to come just before
  the equal key.
* `getIndexOf_eq_search`: so the binary search of `BValueMap` is the search in a table.
-/

namespace OpenBinder

open Lib

namespace SValue

/-- A wild key has a simple value. -/
def Keyed (p : Pair) : Prop := p.1.isWild = true → p.2.isSimple = true

/-- Where a pair stands among the others. -/
def slot (p : Pair) : List ℤ := if p.1.isWild then p.2.code ++ [0] else p.1.code ++ [1]

variable {k v a b : SValue} {l : List Pair}

theorem slot_wild (h : k.isWild = true) (v : SValue) : slot (k, v) = v.code ++ [0] := by
  simp [slot, h]

theorem slot_key (h : k.isWild = false) (v : SValue) : slot (k, v) = k.code ++ [1] := by
  simp [slot, h]

theorem isMap_eq_not_isSimple (v : SValue) : v.isMap = !v.isSimple := by
  simp [isMap, isSimple, bne]

@[simp] theorem isSimple_map (m : BValueMap SValue) : (map m).isSimple = false := by
  simp [isSimple, mType, unpackTypeLength_map]

@[simp] theorem isSimple_small (type : SmallType) (data : BitVec 32) :
    (small type data).isSimple = true := by
  have := type.2
  simp only [isSimple, mType, bne_iff_ne, ne_eq]
  intro h
  rw [h] at this
  exact absurd this (by decide)

@[simp] theorem isSimple_large (type : LargeType) (buffer : List (BitVec 8)) :
    (large type buffer).isSimple = true := by
  simp only [isSimple, mType, type.2]
  decide

theorem isSimple_eq_false : v.isSimple = false ↔ ∃ m, v = map m := by
  cases v <;> simp

section

variable (h : a.code = b.code)
include h

theorem isWild_code : a.isWild = b.isWild := by
  simp [isWild, mType_eq_of_code h]

theorem isDefined_code : a.isDefined = b.isDefined := by
  simp [isDefined, mType_eq_of_code h]

theorem isError_code : a.isError = b.isError := by
  simp [isError, mType_eq_of_code h]

theorem isNull_code : a.isNull = b.isNull := by
  simp [isNull, mType_eq_of_code h]

theorem isSimple_code : a.isSimple = b.isSimple := by
  simp [isSimple, mType_eq_of_code h]

end

@[simp] theorem isWild_map (m : BValueMap SValue) : (map m).isWild = false := by
  simp only [isWild, mType]; decide
@[simp] theorem isError_map (m : BValueMap SValue) : (map m).isError = false := by
  simp only [isError, mType]; decide
@[simp] theorem isDefined_map (m : BValueMap SValue) : (map m).isDefined = true := by
  simp only [isDefined, mType]; decide
@[simp] theorem isNull_map (m : BValueMap SValue) : (map m).isNull = false := by
  simp only [isNull, mType]; decide

/-- **`compare_map` is the order of slots.** -/
theorem compareMap_eq {p q : Pair} (hp : Keyed p) (hq : Keyed q) :
    compareMap p q = cmpCode (slot p) (slot q) := by
  obtain ⟨k, v⟩ := p
  obtain ⟨k', v'⟩ := q
  have happ : ∀ (a b : SValue) (x y : ℤ),
      cmpCode (a.code ++ [x]) (b.code ++ [y]) = (a.compare b).then (cmpInt x y) := by
    intro a b x y
    rw [compare_codeCmp a b, cmpCode_cons]
    congr 1
    cases cmpInt x y <;> rfl
  have hslot : ∀ p : Pair, slot p = (if p.1.isWild then p.2 else p.1).code ++
      [if p.1.isWild then 0 else 1] := by
    intro p; unfold slot; split <;> rfl
  rw [hslot, hslot, happ]
  unfold compareMap
  simp only
  set a := if k.isWild then v else k with ha
  set b := if k'.isWild then v' else k' with hb
  split
  · rename_i hty
    simp only [Bool.and_eq_true, bne_iff_ne, ne_eq, Bool.not_eq_true'] at hty
    have hne := toNat_ne hty.1
    rw [compare_of_mType_ne hty.1]
    by_cases hlt : a.mType.toNat < b.mType.toNat
    · have : cmpInt a.mType.toNat b.mType.toNat = .lt := if_pos (by exact_mod_cast hlt)
      rw [if_pos hlt, this]; rfl
    · have : cmpInt a.mType.toNat b.mType.toNat = .gt := by
        unfold cmpInt
        rw [if_neg (by exact_mod_cast hlt), if_neg hne]
      rw [if_neg hlt, this]; rfl
  · rename_i hty
    split
    · by_cases hc : a.compare b = .eq
      · rw [hc]
        cases k.isWild <;> cases k'.isWild <;> simp <;> decide
      · simp only [hc, false_and, if_false]
        cases hab : a.compare b <;> simp_all
    · rename_i hs
      -- a map, so the key itself, and the other pair has a key that is a map as well
      have hk : k.isWild = false := by
        by_contra hk
        rw [ha, if_pos (by simpa using hk)] at hs
        exact hs (hp (by simpa using hk))
      have hty' : a.mType = b.mType := by simpa [hk] using hty
      have hbs : b.isSimple = false := by
        have : a.isSimple = b.isSimple := by simp [isSimple, hty']
        rw [← this]; simpa using hs
      have hk' : k'.isWild = false := by
        by_contra hk'
        rw [hb, if_pos (by simpa using hk')] at hbs
        rw [hq (by simpa using hk')] at hbs
        exact absurd hbs (by decide)
      have ha' : a = k := by rw [ha, if_neg (by simp [hk])]
      have hb' : b = k' := by rw [hb, if_neg (by simp [hk'])]
      rw [ha', hb', hk, hk']
      simp

/-- A pair of a normalised map: both parts defined, and no `{WILD -> map}` or
`{WILD -> WILD}`. -/
def isProper (p : Pair) : Bool :=
  p.1.isDefined && p.2.isDefined && (!p.1.isWild || (p.2.isSimple && !p.2.isWild))

/-- The single pair `{WILD -> x}`. -/
def isRedundant : List Pair → Bool
  | [(k, _)] => k.isWild
  | _ => false

mutual

/-- Whether a value is normalised. -/
def isNormal : SValue → Bool
  | map ⟨_, _, maps⟩ =>
    !maps.isEmpty && !isRedundant maps && allNormal maps &&
      decide (maps.Pairwise fun p q => compareMap p q = .lt)
  | _ => true

/-- Whether the pairs of a table and the values in them are as they should be. -/
def allNormal : List Pair → Bool
  | [] => true
  | (k, v) :: rest => isNormal k && isNormal v && isProper (k, v) && allNormal rest

end

mutual

/-- Whether there is no error in a value. -/
def isErrorFree : SValue → Bool
  | map ⟨_, _, maps⟩ => allErrorFree maps
  | v => !v.isError

/-- Whether there is no error in the pairs of a table. -/
def allErrorFree : List Pair → Bool
  | [] => true
  | (k, v) :: rest => isErrorFree k && isErrorFree v && allErrorFree rest

end

/-- The pairs of a normalised map, or of one that is being built. -/
structure Items (l : List Pair) : Prop where
  normal : ∀ p ∈ l, p.1.isNormal = true ∧ p.2.isNormal = true
  proper : ∀ p ∈ l, isProper p = true
  sorted : l.Pairwise fun p q => compareMap p q = .lt

theorem allNormal_iff : allNormal l = true ↔
    ∀ p ∈ l, (p.1.isNormal = true ∧ p.2.isNormal = true) ∧ isProper p = true := by
  induction l with
  | nil => simp [allNormal]
  | cons p l ih =>
    simp [allNormal, ih]

theorem allErrorFree_iff : allErrorFree l = true ↔
    ∀ p ∈ l, p.1.isErrorFree = true ∧ p.2.isErrorFree = true := by
  induction l with
  | nil => simp [allErrorFree]
  | cons p l ih =>
    simp [allErrorFree, ih]

theorem isNormal_map {m : BValueMap SValue} : (map m).isNormal = true ↔
    Items m.maps ∧ m.maps ≠ [] ∧ isRedundant m.maps = false := by
  simp only [isNormal, Bool.and_eq_true, allNormal_iff, decide_eq_true_eq, Bool.not_eq_true',
    List.isEmpty_eq_false_iff]
  constructor
  · rintro ⟨⟨⟨hne, hr⟩, hall⟩, hs⟩
    exact ⟨⟨fun p hp => (hall p hp).1, fun p hp => (hall p hp).2, hs⟩, hne, hr⟩
  · rintro ⟨hi, hne, hr⟩
    exact ⟨⟨⟨hne, hr⟩, fun p hp => ⟨hi.normal p hp, hi.proper p hp⟩⟩, hi.sorted⟩

theorem isNormal_of_isSimple (h : v.isSimple = true) : v.isNormal = true := by
  cases v with
  | map m => simp at h
  | _ => rfl

theorem isErrorFree_map {m : BValueMap SValue} : (map m).isErrorFree = true ↔
    ∀ p ∈ m.maps, p.1.isErrorFree = true ∧ p.2.isErrorFree = true := by
  rw [isErrorFree, allErrorFree_iff]

theorem isError_of_isErrorFree (h : v.isErrorFree = true) : v.isError = false := by
  cases v with
  | map m => simp
  | _ => simpa [isErrorFree] using h

/-- A value that some operation may be working on. -/
def Partial : SValue → Prop
  | map m => Items m.maps
  | _ => True

theorem Partial.of_isNormal (h : v.isNormal = true) : Partial v := by
  cases v with
  | map m => exact (isNormal_map.1 h).1
  | _ => trivial

theorem isProper_iff : isProper (k, v) = true ↔
    k.isDefined = true ∧ v.isDefined = true ∧
      (k.isWild = true → v.isSimple = true ∧ v.isWild = false) := by
  simp only [isProper, Bool.and_eq_true, Bool.or_eq_true, Bool.not_eq_true']
  constructor
  · rintro ⟨⟨h1, h2⟩, h3⟩
    refine ⟨h1, h2, fun hw => ?_⟩
    rcases h3 with h3 | h3
    · rw [hw] at h3; exact absurd h3 (by decide)
    · exact h3
  · rintro ⟨h1, h2, h3⟩
    refine ⟨⟨h1, h2⟩, ?_⟩
    by_cases hw : k.isWild = true
    · exact .inr (h3 hw)
    · exact .inl (by simpa using hw)

theorem keyed_of_isProper {p : Pair} (h : isProper p = true) : Keyed p :=
  fun hw => ((isProper_iff.1 h).2.2 hw).1

theorem Items.keyed (h : Items l) : ∀ p ∈ l, Keyed p :=
  fun p hp => keyed_of_isProper (h.proper p hp)

theorem Items.table (h : Items l) : Table cmpCode slot l :=
  h.sorted.imp_of_mem fun {p q} hp hq hlt => by
    rwa [← compareMap_eq (h.keyed p hp) (h.keyed q hq)]

theorem Items.of_table (ht : Table cmpCode slot l)
    (hn : ∀ p ∈ l, p.1.isNormal = true ∧ p.2.isNormal = true)
    (hp : ∀ p ∈ l, isProper p = true) : Items l :=
  ⟨hn, hp, ht.imp_of_mem fun {p q} hp' hq hlt => by
    rwa [compareMap_eq (keyed_of_isProper (hp p hp')) (keyed_of_isProper (hp q hq))]⟩

theorem Items.nil : Items [] := ⟨by simp, by simp, List.Pairwise.nil⟩

theorem Items.left {l' : List Pair} (h : Items (l ++ l')) : Items l :=
  ⟨fun p hp => h.normal p (List.mem_append_left _ hp),
    fun p hp => h.proper p (List.mem_append_left _ hp), (List.pairwise_append.1 h.sorted).1⟩

theorem Items.singleton {p : Pair} (hn : p.1.isNormal = true ∧ p.2.isNormal = true)
    (hp : isProper p = true) : Items [p] :=
  ⟨by simpa using hn, by simpa using hp, List.pairwise_singleton _ _⟩

theorem isWild_iff_code : v.isWild = true ↔ v.code = wild.code := by
  constructor
  · intro h
    have hty : v.mType = kWildTypeCode := by simpa [isWild] using h
    cases v with
    | small type data =>
      have : type = ⟨kWildTypeCode, by decide⟩ := Subtype.ext hty
      subst this
      rfl
    | large type buffer => exact absurd hty (SmallType.ne_large ⟨kWildTypeCode, by decide⟩ type).symm
    | map m => rw [isWild_map] at h; cases h
  · intro h
    rw [isWild_code h]
    decide

theorem eq_undefined_code (h : v.isDefined = false) : v.code = undefined.code := by
  have hty : v.mType = kUndefinedTypeCode := by simpa [isDefined] using h
  cases v with
  | small type data =>
    have : type = ⟨kUndefinedTypeCode, by decide⟩ := Subtype.ext hty
    subst this
    rfl
  | large type buffer =>
    exact absurd hty (SmallType.ne_large ⟨kUndefinedTypeCode, by decide⟩ type).symm
  | map m => rw [isDefined_map] at h; cases h

theorem items_of_isSimple (hs : v.isSimple = true) :
    v.items = if v.isError then [] else if v.isDefined then [(wild, v)] else [] := by
  cases v with
  | map m => simp at hs
  | _ => rfl

theorem isErrorFree_of_isSimple (hs : v.isSimple = true) (he : v.isError = false) :
    v.isErrorFree = true := by
  cases v with
  | map m => cases (isSimple_map m).symm.trans hs
  | _ => simpa [isErrorFree] using he

theorem isErrorFree_items (h : v.isErrorFree = true) :
    allErrorFree v.items = true := by
  by_cases hs : v.isSimple = true
  · rw [items_of_isSimple hs, isError_of_isErrorFree h]
    cases v.isDefined
    · rfl
    · exact allErrorFree_iff.2 (by simpa using ⟨by decide, h⟩)
  · obtain ⟨m, rfl⟩ := isSimple_eq_false.1 (by simpa using hs)
    exact allErrorFree_iff.2 (isErrorFree_map.1 h)

end SValue

namespace BValueMap

open SValue

theorem getIndexOf_eq_search {m : BValueMap SValue} (h : ∀ p ∈ m.maps, Keyed p) {k v : SValue}
    (hk : Keyed (k, v)) : m.getIndexOf k v = search cmpCode slot m.maps (slot (k, v)) := by
  unfold getIndexOf search
  congr 1
  funext i
  unfold verdict
  cases hi : m.maps[i]? with
  | none => rfl
  | some p =>
    exact compareMap_eq (h p (List.mem_of_getElem? hi)) hk

end BValueMap

end OpenBinder
