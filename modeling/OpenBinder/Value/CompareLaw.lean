import OpenBinder.Value.Edit

/-!
# What `Compare` and the map search promise

* `alike_iff`: values have one code word exactly if they are structurally equal.
* `compareMap_eq_iff`: `compare_map` takes two pairs for one exactly if their keys are equal, or
  both keys are wild and their values are equal.
* `getIndexOf_true`, `getIndexOf_false`: the search of a sorted map finds the matching pair, or the
  one place where the pair belongs.
* `compare_total`: all of it in one statement.
-/

namespace OpenBinder

open Lib List

namespace SValue

/-- Byte `i` of `m_data.local`. -/
def localByte (data : BitVec 32) (i : ℕ) : ℕ := data.toNat / 256 ^ i % 256

mutual

/-- Structural equality: the type words are equal, and the bytes in use, or the buffers, or the
pairs in order. What a table has room for and the size it has cached are not part of the value. -/
def Alike : SValue → SValue → Prop
  | small type data, small type' data' =>
    type = type' ∧ ∀ i < unpackTypeLength type.1, localByte data i = localByte data' i
  | large type buffer, large type' buffer' => type = type' ∧ buffer = buffer'
  | map ⟨_, _, maps⟩, map ⟨_, _, maps'⟩ => AlikePairs maps maps'
  | _, _ => False

/-- Structural equality of the pairs of two tables. -/
def AlikePairs : List Pair → List Pair → Prop
  | [], [] => True
  | (k, v) :: rest, (k', v') :: rest' => Alike k k' ∧ Alike v v' ∧ AlikePairs rest rest'
  | _, _ => False

end

theorem localKey_eq_iff {n : ℕ} (hn : n ≤ typeLengthMax) {data data' : BitVec 32} :
    localKey n data = localKey n data' ↔ ∀ i < n, localByte data i = localByte data' i := by
  unfold localKey
  split
  · rename_i h4
    subst h4
    constructor
    · intro h i _
      rw [BitVec.eq_of_toInt_eq (List.cons.inj h).1]
    · intro h
      -- the four bytes are the word
      have h0 := h 0 (by decide)
      have h1 := h 1 (by decide)
      have h2 := h 2 (by decide)
      have h3 := h 3 (by decide)
      simp only [localByte, Nat.reducePow, Nat.div_one] at h0 h1 h2 h3
      rw [BitVec.eq_of_toNat_eq (show data.toNat = data'.toNat by omega)]
  · unfold localBytes
    rw [map_inj_left]
    constructor
    · intro h i hi
      exact_mod_cast h i (mem_range.2 hi)
    · intro h i hi
      exact congrArg Nat.cast (h i (mem_range.1 hi))

theorem alikePairs_iff {maps : List Pair}
    (ih : ∀ p ∈ maps, (∀ b, Alike p.1 b ↔ p.1.code = b.code) ∧
      ∀ b, Alike p.2 b ↔ p.2.code = b.code) : ∀ maps', AlikePairs maps maps' ↔
      List.Forall₂ (fun p q => p.1.code = q.1.code ∧ p.2.code = q.2.code) maps maps' := by
  induction maps with
  | nil =>
    intro maps'
    cases maps' with
    | nil => simp [AlikePairs]
    | cons q maps' => simp [AlikePairs]
  | cons p maps ihl =>
    intro maps'
    obtain ⟨hk, hv⟩ := ih p mem_cons_self
    cases maps' with
    | nil => simp [AlikePairs]
    | cons q maps' =>
      rw [AlikePairs, forall₂_cons, hk, hv,
        ihl (fun p hp => ih p (mem_cons_of_mem _ hp)), and_assoc]

/-- **Values are structurally equal** exactly if they have one code word. -/
theorem alike_iff : ∀ a b : SValue, Alike a b ↔ a.code = b.code := by
  intro a
  -- over the value and everything inside its tables
  induction a using SValue.ind with
  | small type data =>
    intro b
    cases b with
    | small type' data' =>
      rw [Alike, code, code, List.cons.injEq]
      constructor
      · rintro ⟨rfl, h⟩
        exact ⟨rfl, (localKey_eq_iff type.2).2 h⟩
      · rintro ⟨htype, h⟩
        obtain rfl : type = type' :=
          Subtype.ext (BitVec.eq_of_toNat_eq (by exact_mod_cast htype))
        exact ⟨rfl, (localKey_eq_iff type.2).1 h⟩
    | large type' buffer' =>
      exact iff_of_false (by simp [Alike]) fun h => type.ne_large type' (mType_eq_of_code h)
    | map m => exact iff_of_false (by simp [Alike]) fun h => type.ne_map (mType_eq_of_code h)
  | large type buffer =>
    intro b
    cases b with
    | small type' data' =>
      exact iff_of_false (by simp [Alike]) fun h => type'.ne_large type (mType_eq_of_code h).symm
    | large type' buffer' =>
      rw [Alike, code, code, List.cons.injEq, List.cons.injEq]
      constructor
      · rintro ⟨rfl, rfl⟩
        exact ⟨rfl, rfl, rfl⟩
      · rintro ⟨htype, -, h⟩
        refine ⟨Subtype.ext (BitVec.eq_of_toNat_eq (by exact_mod_cast htype)), ?_⟩
        refine map_injective_iff.2 (fun x y hxy => ?_) h
        exact BitVec.eq_of_toNat_eq (by exact_mod_cast hxy)
    | map m => exact iff_of_false (by simp [Alike]) fun h => type.ne_map (mType_eq_of_code h)
  | map m ih =>
    intro b
    cases b with
    | small type' data' =>
      exact iff_of_false (by simp [Alike]) fun h => type'.ne_map (mType_eq_of_code h).symm
    | large type' buffer' =>
      exact iff_of_false (by simp [Alike]) fun h => type'.ne_map (mType_eq_of_code h).symm
    | map m' =>
      have hpairs : Alike (map m) (map m') ↔ AlikePairs m.maps m'.maps := by
        rw [Alike]
      rw [hpairs, alikePairs_iff ih]
      exact ⟨code_of_forall₂, forall₂_of_code⟩

/-- Two pairs hold one place in a map. -/
def SamePlace (p q : Pair) : Prop :=
  p.1.isWild = false ∧ q.1.isWild = false ∧ Alike p.1 q.1 ∨
    p.1.isWild = true ∧ q.1.isWild = true ∧ Alike p.2 q.2

theorem samePlace_iff {p q : Pair} : SamePlace p q ↔ slot p = slot q := by
  unfold SamePlace
  rw [slot_eq_iff, alike_iff, alike_iff, or_comm]

variable {p q r : Pair}

theorem compareMap_eq_iff (hp : Keyed p) (hq : Keyed q) :
    compareMap p q = .eq ↔ SamePlace p q := by
  rw [compareMap_eq hp hq, cmpCode_eq_iff, samePlace_iff]

theorem compareMap_swap (hp : Keyed p) (hq : Keyed q) :
    compareMap q p = (compareMap p q).swap := by
  rw [compareMap_eq hp hq, compareMap_eq hq hp]
  exact Std.OrientedCmp.eq_swap

theorem compareMap_trans (hp : Keyed p) (hq : Keyed q) (hr : Keyed r)
    (hpq : compareMap p q = .lt) (hqr : compareMap q r = .lt) : compareMap p r = .lt := by
  rw [compareMap_eq hp hq] at hpq
  rw [compareMap_eq hq hr] at hqr
  rw [compareMap_eq hp hr]
  exact Std.TransCmp.lt_trans hpq hqr

/-- A table sorted by `compare_map`. -/
def Sorted (l : List Pair) : Prop := l.Pairwise fun p q => compareMap p q = .lt

theorem sorted_iff {l : List Pair} (hl : ∀ p ∈ l, Keyed p) : Sorted l ↔ Table cmpCode slot l := by
  refine List.Pairwise.iff_of_mem fun {p q} hp hq => ?_
  rw [compareMap_eq (hl p hp) (hl q hq)]

end SValue

namespace BValueMap

open SValue

variable {m : BValueMap SValue} {k v : SValue}

section

variable (hm : ∀ p ∈ m.maps, Keyed p) (hs : Sorted m.maps) (hk : Keyed (k, v)) (i : ℕ)
include hm hs hk i

theorem getIndexOf_true : m.getIndexOf k v = (true, i) ↔
      ∃ p, m.maps[i]? = some p ∧ compareMap p (k, v) = .eq := by
  have ht := (sorted_iff hm).1 hs
  rw [getIndexOf_eq_search hm hk]
  constructor
  · intro h
    obtain ⟨p, hp, hslot⟩ := search_found ht h
    refine ⟨p, hp, (compareMap_eq_iff (hm p (mem_of_getElem? hp)) hk).2 ?_⟩
    exact samePlace_iff.2 hslot
  · rintro ⟨p, hp, hc⟩
    have hplace := (compareMap_eq_iff (hm p (mem_of_getElem? hp)) hk).1 hc
    rw [← samePlace_iff.1 hplace]
    exact search_mem ht hp

/-- **A pair that is not there belongs** in one place, where the search ends. -/
theorem getIndexOf_false : m.getIndexOf k v = (false, i) ↔
      i ≤ m.maps.length ∧ Sorted (m.maps.insertIdx i (k, v)) := by
  have ht := (sorted_iff hm).1 hs
  have hins : ∀ i, i ≤ m.maps.length →
      (Sorted (m.maps.insertIdx i (k, v)) ↔ Table cmpCode slot (m.maps.insertIdx i (k, v))) := by
    intro i hi
    refine sorted_iff fun p hp => ?_
    rcases (mem_insertIdx hi).1 hp with rfl | hp
    · exact hk
    · exact hm p hp
  rw [getIndexOf_eq_search hm hk]
  constructor
  · intro h
    obtain ⟨-, hi, hins'⟩ := search_not_found ht h
    exact ⟨hi, (hins i hi).2 (hins' (k, v) rfl)⟩
  · rintro ⟨hi, h⟩
    have h := (hins i hi).1 h
    cases hj : search cmpCode slot m.maps (slot (k, v)) with
    | mk hit j =>
      cases hit with
      | true =>
        -- a second entry of the slot would stand in the longer table
        obtain ⟨p, hp, hslot⟩ := search_found ht hj
        have hnodup := ((perm_insertIdx (k, v) m.maps hi).map slot).nodup_iff.1 h.nodup
        rw [map_cons, nodup_cons] at hnodup
        exact absurd (hslot ▸ mem_map_of_mem (mem_of_getElem? hp)) hnodup.1
      | false =>
        obtain ⟨-, hjle, hins'⟩ := search_not_found ht hj
        rw [Table.insertIdx_inj hi hjle h (hins' (k, v) rfl)]

end

theorem getIndexOf_fuel (m : BValueMap SValue) (k v : SValue) {fuel : ℕ}
    (h : m.countMaps ≤ fuel) : Lib.bisect (fun i => match m.maps[i]? with
      | some p => compareMap p (k, v)
      | none => .gt) fuel 0 m.countMaps = m.getIndexOf k v :=
  bisect_fuel _ _ _ _ _ (Nat.sub_le _ _) h

end BValueMap

namespace SValue

/-- A comparison is a total order of what is in its domain, up to `same`. -/
structure TotalOrder {α : Type} (dom : α → Prop) (cmp : α → α → Ordering) (same : α → α → Prop) :
    Prop where
  swap : ∀ a b, dom a → dom b → cmp b a = (cmp a b).swap
  trans : ∀ a b c, dom a → dom b → dom c → cmp a b = .lt → cmp b c = .lt → cmp a c = .lt
  eq_iff : ∀ a b, dom a → dom b → (cmp a b = .eq ↔ same a b)

theorem totalOrder_compare (dom : SValue → Prop) : TotalOrder dom SValue.compare Alike where
  swap := fun _ _ _ _ => Std.OrientedCmp.eq_swap
  trans := fun _ _ _ _ _ _ => Std.TransCmp.lt_trans
  eq_iff := fun a b _ _ => compare_eq_iff.trans (alike_iff a b).symm

theorem totalOrder_compareMap : TotalOrder Keyed compareMap SamePlace where
  swap := fun _ _ => compareMap_swap
  trans := fun _ _ _ => compareMap_trans
  eq_iff := fun _ _ => compareMap_eq_iff

/-- **The search of a map is exact**, and it ends. -/
structure Exact (m : BValueMap SValue) (k v : SValue) : Prop where
  hit : ∀ i, m.getIndexOf k v = (true, i) ↔
    ∃ p, m.maps[i]? = some p ∧ compareMap p (k, v) = .eq
  miss : ∀ i, m.getIndexOf k v = (false, i) ↔
    i ≤ m.maps.length ∧ Sorted (m.maps.insertIdx i (k, v))
  ends : ∀ fuel, m.countMaps ≤ fuel → Lib.bisect (fun i => match m.maps[i]? with
    | some p => compareMap p (k, v)
    | none => .gt) fuel 0 m.countMaps = m.getIndexOf k v

/-- **`Compare` is a total order of values, `compare_map` of pairs, and the search is exact.** The
pairs of a normalised map are among those that `compare_map` orders, and it is sorted. -/
theorem compare_total :
    TotalOrder (fun _ => True) SValue.compare Alike ∧ TotalOrder Keyed compareMap SamePlace ∧
      (∀ m : BValueMap SValue, (map m).isNormal = true →
        (∀ p ∈ m.maps, Keyed p) ∧ Sorted m.maps) ∧
      ∀ (m : BValueMap SValue) (k v : SValue), (∀ p ∈ m.maps, Keyed p) → Sorted m.maps →
        Keyed (k, v) → Exact m k v := by
  refine ⟨totalOrder_compare _, totalOrder_compareMap, fun m hn => ?_, fun m k v hm hs hk => ?_⟩
  · have hi := (isNormal_map.1 hn).1
    exact ⟨hi.keyed, hi.sorted⟩
  · exact ⟨BValueMap.getIndexOf_true hm hs hk, BValueMap.getIndexOf_false hm hs hk,
      fun _ => BValueMap.getIndexOf_fuel m k v⟩

/-- In `{1 -> 2, WILD -> 3}` the pair `WILD -> 2` would be the second one. -/
theorem compare_total_mixed : BValueMap.getIndexOf ⟨2, none, [(int32 1, int32 2), (wild, int32 3)]⟩
    wild (int32 2) = (false, 1) := by
  have hnormal : (map ⟨2, none, [(int32 1, int32 2), (wild, int32 3)]⟩).isNormal = true := by decide
  obtain ⟨hm, hs⟩ := compare_total.2.2.1 _ hnormal
  have hexact := compare_total.2.2.2 _ wild (int32 2) hm hs fun _ => by decide
  refine (hexact.miss 1).2 ⟨by decide, ?_⟩
  unfold Sorted
  decide

end SValue

end OpenBinder
