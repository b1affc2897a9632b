import OpenBinder.Value.Overlay

/-!
# A copied value

A copy has the same items as its original and compares equal to it; only the capacities
of its maps are its own.
-/

namespace OpenBinder.SValue

open Lib List

variable {v : SValue}

theorem copy_of_isSimple (h : v.isSimple = true) : v.copy = v := by
  cases v with
  | map m => simp at h
  | small _ _ => rw [copy]; simp
  | large _ _ => rw [copy]; simp

theorem copyMaps_eq_map (l : List Pair) : copyMaps l = l.map fun p => (copy p.1, copy p.2) := by
  induction l with
  | nil => rfl
  | cons p l ih => obtain ⟨k, v⟩ := p; rw [copyMaps, ih]; rfl

theorem copy_map (m : BValueMap SValue) : (map m).copy =
    map ⟨BValueMap.capacity m.maps.length, m.dataSize, m.maps.map fun p => (copy p.1, copy p.2)⟩ := by
  rw [copy, copyMaps_eq_map]

@[simp] theorem code_copy (v : SValue) : v.copy.code = v.code := by
  induction v using SValue.ind with
  | map m ih =>
    obtain ⟨avail, dataSize, maps⟩ := m
    rw [copy_map, code, code]
    simp only [length_map]
    have h : codeMaps (maps.map fun p => (copy p.1, copy p.2)) = codeMaps maps := by
      refine codeMaps_of_forall₂ ?_
      rw [forall₂_map_left_iff, forall₂_same]
      exact fun p hp => ih p hp
    rw [h]
  | _ => rw [copy_of_isSimple (by simp)]

@[simp] theorem isWild_copy (v : SValue) : v.copy.isWild = v.isWild := isWild_code (code_copy v)

@[simp] theorem isDefined_copy (v : SValue) : v.copy.isDefined = v.isDefined :=
  isDefined_code (code_copy v)

@[simp] theorem isSpecified_copy (v : SValue) : v.copy.isSpecified = v.isSpecified := by
  simp [isSpecified]

theorem isErrorFree_copy (h : v.isErrorFree = true) : v.copy.isErrorFree = true := by
  induction v using SValue.ind with
  | map m ih =>
    rw [copy_map, isErrorFree_map]
    intro p hp
    obtain ⟨q, hq, rfl⟩ := mem_map.1 hp
    exact ⟨(ih q hq).1 (isErrorFree_map.1 h q hq).1, (ih q hq).2 (isErrorFree_map.1 h q hq).2⟩
  | _ => rwa [copy_of_isSimple (by simp)]

theorem slot_copy (p : Pair) : slot (copy p.1, copy p.2) = slot p :=
  slot_of_code (code_copy _) (code_copy _)

theorem isNormal_copy (h : v.isNormal = true) : v.copy.isNormal = true := by
  induction v using SValue.ind with
  | map m ih =>
    obtain ⟨hi, hne, hr⟩ := isNormal_map.1 h
    rw [copy_map, isNormal_map]
    refine ⟨Items.of_table ?_ (fun p hp => ?_) fun p hp => ?_, by simpa using hne, ?_⟩
    · refine Table.of_map hi.table ?_
      rw [map_map]
      exact (map_congr_left fun p _ => (slot_copy p)).symm
    · obtain ⟨q, hq, rfl⟩ := mem_map.1 hp
      exact ⟨(ih q hq).1 (hi.normal q hq).1, (ih q hq).2 (hi.normal q hq).2⟩
    · obtain ⟨q, hq, rfl⟩ := mem_map.1 hp
      have := isProper_iff.1 (hi.proper q hq)
      exact isProper_iff.2 (by simpa [isSimple_code (code_copy _)] using this)
    · obtain ⟨avail, dataSize, maps⟩ := m
      match maps, hr with
      | [], _ => rfl
      | [(k, v)], hr => simpa [isRedundant] using hr
      | p :: q :: l, _ => rfl
  | _ => rwa [copy_of_isSimple (by simp)]

theorem items_copy : v.copy.items = v.items.map fun p => (copy p.1, copy p.2) := by
  by_cases hs : v.isSimple = true
  · have hw : wild.copy = wild := copy_of_isSimple (by simp [wild])
    rw [copy_of_isSimple hs, items_of_isSimple hs]
    split
    · rfl
    · split
      · simp [hw, copy_of_isSimple hs]
      · rfl
  · obtain ⟨m, rfl⟩ := isSimple_eq_false.1 (by simpa using hs)
    rw [copy_map]; rfl

theorem setItem_copy (t : List ℤ) : SetItem v.copy.items t ↔ SetItem v.items t := by
  rw [setItem_slot, setItem_slot, items_copy]
  simp only [mem_slots, mem_map, exists_exists_and_eq_and, slot_copy]

theorem entry_copy (c : List ℤ) (x : SValue) :
    Entry v.copy.items c x ↔ ∃ y, Entry v.items c y ∧ y.copy = x := by
  rw [items_copy]
  constructor
  · rintro ⟨k, hp, hk, hc⟩
    obtain ⟨⟨k', y⟩, hq, he⟩ := mem_map.1 hp
    cases he
    exact ⟨y, ⟨k', hq, by simpa using hk, by simpa using hc⟩, rfl⟩
  · rintro ⟨y, ⟨k', hq, hk, hc⟩, rfl⟩
    exact ⟨k'.copy, mem_map.2 ⟨_, hq, rfl⟩, by simpa using hk, by simpa using hc⟩

end OpenBinder.SValue
