import OpenBinder.Value.Lookup
import OpenBinder.Value.View

/-!
# What is found in a normalised map

* `indexFor_key`, `indexFor_set`: the search finds an entry by its key, and a set item by its value.
* `hasItem_map`: `HasItem` of a key does not look at the value.
* `hasItem_exact_iff`: **when that is right**, namely when the key is not there, or its value
  contains what is asked for.
-/

namespace OpenBinder

open Lib

namespace BValueMap

open SValue

variable {m : BValueMap SValue}

variable {k v : SValue}

theorem indexFor_eq_some (h : Items m.maps) (hk : Keyed (k, v)) {i : ℕ} :
    m.indexFor k v = some i ↔ ∃ p, m.maps[i]? = some p ∧ slot p = slot (k, v) := by
  unfold indexFor
  rw [getIndexOf_eq_search h.keyed hk]
  constructor
  · intro hi
    split at hi
    · rename_i index hs
      obtain ⟨⟩ := hi
      exact search_found h.table hs
    · cases hi
  · rintro ⟨p, hp, hslot⟩
    rw [← hslot, search_mem h.table hp]

theorem isSome_indexFor (h : Items m.maps) (hk : Keyed (k, v)) :
    (m.indexFor k v).isSome = true ↔ slot (k, v) ∈ SValue.slots m.maps := by
  rw [Option.isSome_iff_exists]
  constructor
  · rintro ⟨i, hi⟩
    obtain ⟨p, hp, hslot⟩ := (indexFor_eq_some h hk).1 hi
    exact ⟨p, List.mem_of_getElem? hp, hslot⟩
  · rintro ⟨p, hp, hslot⟩
    obtain ⟨i, hi⟩ := List.mem_iff_getElem?.1 hp
    exact ⟨i, (indexFor_eq_some h hk).2 ⟨p, hi, hslot⟩⟩

theorem indexFor_key (h : Items m.maps) (hk : k.isWild = false) (v : SValue) :
    (m.indexFor k v).isSome = true ↔ ∃ x, Entry m.maps k.code x := by
  rw [isSome_indexFor h fun hw => absurd hw (by rw [hk]; decide), slot_key hk, entry_slot]

theorem indexFor_set (h : Items m.maps) (hv : v.isSimple = true) :
    (m.indexFor wild v).isSome = true ↔ SetItem m.maps v.code := by
  rw [isSome_indexFor h fun _ => hv, slot_wild (by decide), setItem_slot]

end BValueMap

namespace SValue

variable {m : BValueMap SValue} {k x : SValue}

section

variable (h : Items m.maps) (hk : k.isWild = false)
include h hk

theorem valueFor_entry {y : SValue} (hy : Entry m.maps k.code y) : (map m).valueFor k = y := by
  obtain ⟨i, hi⟩ := Option.isSome_iff_exists.1 ((BValueMap.indexFor_key h hk undefined).2 ⟨y, hy⟩)
  obtain ⟨⟨k', y'⟩, hp, hslot⟩ :=
    (BValueMap.indexFor_eq_some h fun hw => absurd hw (by rw [hk]; decide)).1 hi
  have hy' : Entry m.maps k.code y' := by
    rcases slot_eq_iff.1 hslot with ⟨-, hw, -⟩ | ⟨hk', -, hc⟩
    · rw [hk] at hw
      cases hw
    · exact ⟨k', List.mem_of_getElem? hp, hk', hc⟩
  unfold valueFor
  rw [if_neg (by rw [hk]; decide)]
  simp only [hi, hp, Option.map_some, Option.getD_some]
  exact hy'.unique h hy

theorem valueFor_noEntry (hno : ∀ x, ¬ Entry m.maps k.code x) :
    (map m).valueFor k = if (m.indexFor wild k).isSome then null else undefined := by
  have hnone : m.indexFor k = none := by
    rw [← Option.not_isSome_iff_eq_none, BValueMap.indexFor_key h hk]
    rintro ⟨x, hx⟩
    exact hno x hx
  unfold valueFor
  rw [if_neg (by rw [hk]; decide)]
  simp only [hnone]

/-- **`HasItem` of a key** in a map: whether there is an entry or a set item, whatever the value. -/
theorem hasItem_map (hs : k.isSimple = true) (x : SValue) : (map m).hasItem k x = true ↔
      (∃ y, Entry m.maps k.code y) ∨ SetItem m.maps k.code := by
  unfold hasItem
  rw [isError_map, isWild_map, hk]
  simp only [Bool.not_false, if_true, Bool.false_eq_true, if_false, Bool.or_eq_true]
  rw [BValueMap.indexFor_key h hk, BValueMap.indexFor_set h hs]

end

/-- A key has a value that contains another. -/
def HasMapping (m : BValueMap SValue) (k x : SValue) : Prop :=
  ∃ y, Entry m.maps k.code y ∧ y.hasItem wild x = true

/-- **`HasItem` says what a map contains**, of a mapping and of a key. -/
structure HasItemExact (m : BValueMap SValue) (k x : SValue) : Prop where
  mapping : (map m).hasItem k x = true ↔ HasMapping m k x
  key : (map m).hasItem k = true ↔ (∃ y, Entry m.maps k.code y) ∨ SetItem m.maps k.code

/-- **`HasItem` is exact** where the key is not in the map at all, or has a value that contains what
is asked for, and nowhere else. -/
theorem hasItem_exact_iff (hn : (map m).isNormal = true) (hk : k.isSpecified = true)
    (hs : k.isSimple = true) : HasItemExact m k x ↔
      ((∃ y, Entry m.maps k.code y) ∨ SetItem m.maps k.code → HasMapping m k x) := by
  have hi := (isNormal_map.1 hn).1
  have hwild : k.isWild = false := by
    simp only [isSpecified, Bool.and_eq_true, Bool.not_eq_true'] at hk
    exact hk.2
  have hitem := hasItem_map hi hwild hs
  constructor
  · exact fun h hin => h.mapping.1 ((hitem x).2 hin)
  · intro h
    refine ⟨⟨fun hitem' => h ((hitem x).1 hitem'), ?_⟩, hitem undefined⟩
    rintro ⟨y, hy, -⟩
    exact (hitem x).2 (.inl ⟨y, hy⟩)

theorem hasItem_exact_number : HasItemExact
    ⟨1, none, [(int32 1, int32 2)]⟩ (int32 1) (int32 2) :=
  (hasItem_exact_iff (by decide) (by decide) (by decide)).2 fun _ =>
    ⟨int32 2, ⟨int32 1, List.mem_cons_self, by decide, rfl⟩, by decide⟩

/-- The map `{1 -> 2}` is said to have `1 -> 3`. -/
theorem hasItem_not_exact : ¬ ∀ (m : BValueMap SValue) (k x : SValue), (map m).isNormal = true →
    (map m).isErrorFree = true → k.isSpecified = true → k.isSimple = true →
    x.isSpecified = true → HasItemExact m k x := by
  intro h
  have hexact := h ⟨1, none, [(int32 1, int32 2)]⟩ (int32 1) (int32 3) (by decide) (by decide)
    (by decide) (by decide) (by decide)
  obtain ⟨y, ⟨k, hmem, -, -⟩, hitem⟩ := hexact.mapping.1 (by decide)
  obtain ⟨-, rfl⟩ := Prod.mk.inj (List.mem_singleton.1 hmem)
  exact absurd hitem (by decide)

end SValue

end OpenBinder
