import OpenBinder.Value.Select

/-!
# RemoveItem and RenameItem

`RemoveItem` takes one item out of a value: a set item, a mapping, or a key with all that is under
it. A key is found by binary search and taken out of the table. `RenameItem` takes out a key and
puts its value back under another one.

* `removeItem`, `renameItem`: the operations.
* `others`: the pairs that stay when a key goes.
* `removeItem_key`: **removing a key** leaves the other pairs, unless the table is compacted around
  it.
-/

namespace OpenBinder

open Lib List

namespace BValueMap

/-- `BValueMap::RemoveMap`: whether the status is `B_OK`, and the table. -/
def removeMap (m : BValueMap SValue) (key value : SValue) : Option (Bool × BValueMap SValue) :=
  if !key.isWild || !value.isWild then
    match m.getIndexOf key value with
    | (true, index) => (m.removeMapAt index).map fun m => (true, m)
    | (false, _) => some (false, m)
  -- the status is `B_NAME_NOT_FOUND` even so
  else some (false, { m with dataSize := none, maps := [] })

/-- What `RenameMap` and `RenameItem` return. -/
inductive RenameStatus where
  | ok
  | badValue
  | nameInUse
  | nameNotFound
  | error (code : ℤ)

/-- `BValueMap::RenameMap`: the status, and the table. -/
def renameMap (m : BValueMap SValue) (oldKey newKey : SValue) :
    Option (RenameStatus × BValueMap SValue) :=
  if !oldKey.isWild && oldKey.isDefined && newKey.isSpecified then
    match m.getIndexOf oldKey SValue.wild with
    | (true, oldIndex) => do
      let (_, value) ← m.maps[oldIndex]?
      match m.getIndexOf newKey value with
      | (false, newIndex) => do
        let m ← m.removeMapAt oldIndex
        let m := m.addMapAt (if newIndex > oldIndex then newIndex - 1 else newIndex) newKey value
        some (.ok, { m with dataSize := none })
      | (true, _) => some (.nameInUse, m)
    | (false, _) => some (.nameNotFound, m)
  else some (.badValue, m)

end BValueMap

/-- What `RemoveItem` returns. -/
inductive RemoveStatus where
  | ok
  | nameNotFound
  | error (code : ℤ)

namespace SValue

/-- `ErrorCheck` as a status. -/
def checked (v : SValue) : RemoveStatus := if v.errorCheck < 0 then .error v.errorCheck else .ok

/-- `SValue::RemoveItem`: the status, and the value after it. -/
def removeItem (this key value : SValue) : Option (RemoveStatus × SValue) :=
  if !this.isError && key.isDefined then
    if key.isWild && (decide (this.compare value = .eq) || value.isWild) then some (.ok, undefined)
    else match this with
      | map m =>
        -- a simple value, or all values under a mapping
        if key.isWild || value.isWild then do
          let (found, m) ← m.removeMap key value
          if found then some (.ok, shrinkMap m) else some (.nameNotFound, map m)
        else match (map m).beginEditItem key with
          | some (m, index) => do
            let this ← editAt m index fun cur => removeCopy Flags.none cur value
            some (this.checked, this)
          | none => some (.nameNotFound, map m)
      | this => some (.nameNotFound, this)
  else some (this.checked, this)

/-- `SValue::RenameItem`: the status, and the value after it. -/
def renameItem (this oldKey newKey : SValue) : Option (BValueMap.RenameStatus × SValue) :=
  match this with
  | map m => (m.renameMap oldKey newKey).map fun (status, m) => (status, map m)
  | this =>
    let status :=
      if this.isError then if this.errorCheck < 0 then .error this.errorCheck else .ok
      else .nameNotFound
    some (status, this)

/-- The pairs of a table without the mapping of a key. -/
def others (l : List Pair) (k : SValue) : List Pair :=
  l.filter fun p => p.1.isWild || decide (p.1.compare k ≠ .eq)

theorem mem_others {l : List Pair} {k : SValue} {p : Pair} :
    p ∈ others l k ↔ p ∈ l ∧ (p.1.isWild = false → p.1.code ≠ k.code) := by
  simp only [others, mem_filter, Bool.or_eq_true, decide_eq_true_eq, ne_eq, compare_eq_iff]
  cases p.1.isWild <;> simp

variable {m m' : BValueMap SValue} {k v : SValue}

/-- A key that is there. -/
def HasKey (m : BValueMap SValue) (k : SValue) : Prop := ∃ x, Entry m.maps k.code x

theorem others_of_not_hasKey (h : ¬ HasKey m k) : others m.maps k = m.maps := by
  refine filter_eq_self.2 fun p hp => ?_
  simp only [Bool.or_eq_true, decide_eq_true_eq, ne_eq, compare_eq_iff]
  cases hk : p.1.isWild with
  | true => exact .inl rfl
  | false => exact .inr fun hc => h ⟨p.2, p.1, hp, hk, hc⟩

theorem eraseIdx_eq_others (hi : Items m.maps) {i : ℕ} {k' x : SValue}
    (hat : m.maps[i]? = some (k', x)) (hkw : k'.isWild = false) (hc : k'.code = k.code) :
    m.maps.eraseIdx i = others m.maps k := by
  have hsplit : m.maps = m.maps.take i ++ (k', x) :: m.maps.drop (i + 1) := by
    obtain ⟨hlt, hget⟩ := List.getElem?_eq_some_iff.1 hat
    rw [← hget, cons_getElem_drop_succ, take_append_drop]
  have hkeep : ∀ p ∈ m.maps, p ≠ (k', x) → (p.1.isWild || decide (p.1.compare k ≠ .eq)) = true := by
    intro p hp hne
    simp only [Bool.or_eq_true, decide_eq_true_eq, ne_eq, compare_eq_iff]
    cases hpw : p.1.isWild with
    | true => exact .inl rfl
    | false =>
      refine .inr fun hpc => hne (hi.table.unique hp (mem_of_getElem? hat) ?_)
      rw [show p = (p.1, p.2) from rfl, slot_key hpw, slot_key hkw, hpc, hc]
  have hnot : ∀ j ≠ i, m.maps[j]? ≠ some (k', x) := fun j hj h =>
    hj (hi.table.getElem?_inj h hat rfl)
  rw [eraseIdx_eq_take_drop_succ]
  conv_rhs => rw [others, hsplit, filter_append, filter_cons]
  have hgone : ((k', x).1.isWild || decide ((k', x).1.compare k ≠ .eq)) = false := by
    simp [hkw, compare_eq_iff.2 hc]
  rw [hgone, if_neg Bool.false_ne_true, filter_eq_self.2, filter_eq_self.2]
  · intro p hp
    obtain ⟨j, hj⟩ := mem_iff_getElem?.1 hp
    rw [List.getElem?_drop] at hj
    exact hkeep p (mem_of_getElem? hj) fun he => hnot _ (by omega) (he ▸ hj)
  · intro p hp
    obtain ⟨j, hj⟩ := mem_iff_getElem?.1 hp
    rw [List.getElem?_take] at hj
    split at hj
    · exact hkeep p (mem_of_getElem? hj) fun he => hnot _ (by omega) (he ▸ hj)
    · cases hj

theorem shrinkMap_spec (hi : Items m.maps) (he : allErrorFree m.maps = true) :
    (shrinkMap m).isNormal = true ∧ (shrinkMap m).isErrorFree = true ∧
      (shrinkMap m).den = denMaps m.maps ∧
        (∀ t, SetItem (shrinkMap m).items t ↔ SetItem m.maps t) ∧
          ∀ c x, Entry (shrinkMap m).items c x ↔ Entry m.maps c x := by
  by_cases hnil : m.maps = []
  · have hs : shrinkMap m = undefined := by unfold shrinkMap; rw [hnil]
    have hitems : undefined.items = [] := by rw [items_of_isSimple (by decide)]; rfl
    rw [hs, hnil, hitems]
    exact ⟨rfl, by decide, den_undefined (by decide), fun _ => Iff.rfl, fun _ _ => Iff.rfl⟩
  cases hr : isRedundant m.maps with
  | false =>
    rw [shrinkMap_eq hnil hr]
    exact ⟨isNormal_map.2 ⟨hi, hnil, hr⟩, isErrorFree_map.2 (allErrorFree_iff.1 he), den_map m,
      fun _ => Iff.rfl, fun _ _ => Iff.rfl⟩
  | true =>
    -- one set item is left
    obtain ⟨key, value, hmaps, hkw⟩ : ∃ key value, m.maps = [(key, value)] ∧ key.isWild = true := by
      cases hm : m.maps with
      | nil => exact absurd hm hnil
      | cons p l =>
        cases l with
        | nil => exact ⟨p.1, p.2, rfl, by rw [hm] at hr; exact hr⟩
        | cons q l => rw [hm] at hr; cases hr
    have hs : shrinkMap m = value := by unfold shrinkMap; rw [hmaps]; exact if_pos hkw
    have hmem : (key, value) ∈ m.maps := by rw [hmaps]; exact mem_singleton_self _
    obtain ⟨hkd, hvd, hwild⟩ := isProper_iff.1 (hi.proper _ hmem)
    obtain ⟨hvs, hvw⟩ := hwild hkw
    have hfree := (allErrorFree_iff.1 he _ hmem).2
    rw [hs, hmaps]
    refine ⟨(hi.normal _ hmem).2, hfree, ?_, fun t => ?_, fun c x => ?_⟩
    · rw [den_terminal hvs hvw hvd]
      ext x
      simp [mem_denMaps, denPair, hkw]
    · rw [setItem_of_isSimple hvs hvd (isError_of_isErrorFree hfree)]
      simp [hkw]
    · simp [hkw, not_entry_of_isSimple hvs]

theorem entry_others {c : List ℤ} {x : SValue} :
    Entry (others m.maps k) c x ↔ Entry m.maps c x ∧ c ≠ k.code := by
  constructor
  · rintro ⟨k', hmem, hkw, rfl⟩
    obtain ⟨hmem, hne⟩ := mem_others.1 hmem
    exact ⟨⟨k', hmem, hkw, rfl⟩, hne hkw⟩
  · rintro ⟨⟨k', hmem, hkw, rfl⟩, hne⟩
    exact ⟨k', mem_others.2 ⟨hmem, fun _ => hne⟩, hkw, rfl⟩

theorem setItem_others {t : List ℤ} : SetItem (others m.maps k) t ↔ SetItem m.maps t := by
  constructor
  · rintro ⟨k', x, hmem, hkw, rfl⟩
    exact ⟨k', x, (mem_others.1 hmem).1, hkw, rfl⟩
  · rintro ⟨k', x, hmem, hkw, rfl⟩
    exact ⟨k', x, mem_others.2 ⟨hmem, fun h => by rw [hkw] at h; cases h⟩, hkw, rfl⟩

theorem items_others (hi : Items m.maps) : Items (others m.maps k) :=
  ⟨fun p hp => hi.normal p (mem_others.1 hp).1, fun p hp => hi.proper p (mem_others.1 hp).1,
    hi.sorted.sublist filter_sublist⟩

/-- Whether the table is compacted around the key when it is removed. -/
def Compacts (m : BValueMap SValue) (k : SValue) : Prop :=
  ∃ i x, m.maps[i]? = some x ∧ x.1.isWild = false ∧ x.1.code = k.code ∧
    (m.countMaps - 1) * 4 < m.avail ∧ 1 < m.countMaps ∧ 0 < i

/-- **Removing a key** leaves the other pairs, unless the table is compacted around it. -/
theorem removeItem_key {w : SValue} (hn : (map m).isNormal = true) (hk : k.isSpecified = true)
    (hw : w.isWild = true) :
    (removeItem (map m) k w = none ↔ Compacts m k) ∧
      ∀ status r, removeItem (map m) k w = some (status, r) →
        ∃ m', r = shrinkMap m' ∧ m'.maps = others m.maps k := by
  obtain ⟨hi, hne, hr⟩ := isNormal_map.1 hn
  rw [isSpecified, Bool.and_eq_true, Bool.not_eq_true'] at hk
  obtain ⟨hkd, hkw⟩ := hk
  have hremove : removeItem (map m) k w = (m.removeMap k w).bind fun p =>
      if p.1 then some (.ok, shrinkMap p.2) else some (.nameNotFound, map p.2) := by
    unfold removeItem
    rw [isError_map, hkd, hkw, hw]
    rfl
  have hkeyed : Keyed (k, w) := fun h => by rw [hkw] at h; cases h
  have hsearch := BValueMap.getIndexOf_eq_search hi.keyed hkeyed
  have hmap : m.removeMap k w = match m.getIndexOf k w with
      | (true, index) => (m.removeMapAt index).map fun m => (true, m)
      | (false, _) => some (false, m) := by
    unfold BValueMap.removeMap
    rw [hkw]
    rfl
  cases hs : search cmpCode slot m.maps (slot (k, w)) with
  | mk found i =>
  rw [hsearch, hs] at hmap
  cases found with
  | true =>
    obtain ⟨⟨k', x⟩, hat, hslot⟩ := search_found hi.table hs
    have hkey : k'.isWild = false ∧ k'.code = k.code := by
      rcases slot_eq_iff.1 hslot with ⟨-, hw', -⟩ | ⟨hkf, -, hc⟩
      · rw [hkw] at hw'; cases hw'
      · exact ⟨hkf, hc⟩
    rw [hremove, hmap]
    constructor
    · rw [Option.bind_map, Option.bind_eq_none_iff]
      constructor
      · intro h
        have hnone : m.removeMapAt i = none := by
          cases hm : m.removeMapAt i with
          | none => rfl
          | some m' => exact absurd (h m' hm) (by simp)
        obtain ⟨h1, h2, h3⟩ := BValueMap.removeMapAt_eq_none.1 hnone
        exact ⟨i, _, hat, hkey.1, hkey.2, h1, h2, h3⟩
      · rintro ⟨j, y, hj, hyw, hyc, h1, h2, h3⟩ m' hm
        have hij : j = i := hi.table.getElem?_inj hj hat (by
          rw [show y = (y.1, y.2) from rfl, slot_key hyw, slot_key hkey.1, hyc, hkey.2])
        subst hij
        rw [BValueMap.removeMapAt_eq_none.2 ⟨h1, h2, h3⟩] at hm
        cases hm
    · intro status r h
      rw [Option.bind_map, Option.bind_eq_some_iff] at h
      obtain ⟨m', hm', h⟩ := h
      simp only [Function.comp_apply, if_true, Option.some.injEq, Prod.mk.injEq] at h
      refine ⟨m', h.2.symm, ?_⟩
      rw [BValueMap.removeMapAt_maps hm', eraseIdx_eq_others hi hat hkey.1 hkey.2]
  | false =>
    have hnot : ¬ HasKey m k := by
      rintro ⟨x, k', hmem, hkw', hc⟩
      obtain ⟨j, hj⟩ := mem_iff_getElem?.1 hmem
      have hfound := search_mem hi.table hj
      rw [slot_key hkw', hc, ← slot_key hkw w, hs] at hfound
      cases hfound
    have hsome : removeItem (map m) k w = some (.nameNotFound, map m) := by
      rw [hremove, hmap]
      rfl
    rw [hsome]
    constructor
    · refine iff_of_false (by simp) ?_
      rintro ⟨j, y, hj, hyw, hyc, -⟩
      exact hnot ⟨y.2, y.1, mem_of_getElem? hj, hyw, hyc⟩
    · rintro status r h
      obtain ⟨⟩ := h
      exact ⟨m, (shrinkMap_eq hne hr).symm, (others_of_not_hasKey hnot).symm⟩

end SValue

end OpenBinder
