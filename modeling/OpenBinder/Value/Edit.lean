import OpenBinder.Value.Normal

/-!
# Editing a value in place

The private members of `SValue` that the mutators are built from: `edit_map`,
`BeginEditItem` / `EndEditItem` and `shrink_map`. A mutator takes the value
before and returns the value after. Where the C++ would follow a null pointer or
read a destroyed pair there is no value after: the result is `none`.

Each operation has a lemma that says what it does to the pairs of a value that is
normalised, or on the way to it (`Partial`): `addItem_spec` for adding a pair,
`beginEditItem_some` / `endEditItem_spec` for editing one.
-/

namespace OpenBinder

open Lib List

/-- The flags of the mutators. -/
structure Flags where
  /-- `B_NO_VALUE_FLATTEN` -/
  noFlatten : Bool
  /-- `B_NO_VALUE_RECURSION` -/
  noRecursion : Bool

/-- No flags. -/
def Flags.none : Flags := ⟨false, false⟩

namespace BValueMap

theorem getIndexOf_lt {m : BValueMap SValue} {k v : SValue} (h : (m.getIndexOf k v).1 = true) :
    (m.getIndexOf k v).2 < m.maps.length :=
  ((bisect_within _ _ _ (Nat.zero_le _)).2.2 h).1

theorem getIndexOf_le (m : BValueMap SValue) (k v : SValue) :
    (m.getIndexOf k v).2 ≤ m.maps.length :=
  (bisect_within _ _ _ (Nat.zero_le _)).2.1

/-- `BValueMap::BeginEditMapAt`: the value to edit. -/
def beginEditMapAt (m : BValueMap SValue) (index : ℕ) : Option SValue :=
  m.maps[index]?.map Prod.snd

/-- `BValueMap::EndEditMapAt`, when the value at `index` has become `cur`. -/
def endEditMapAt (m : BValueMap SValue) (index : ℕ) (cur : SValue) : Option (BValueMap SValue) :=
  let m' := { m with dataSize := none, maps := m.maps.modify index fun p => (p.1, cur) }
  if cur.isDefined then some m' else m'.removeMapAt index

end BValueMap

namespace SValue

/-- `SValue::edit_map`: the table to change. A value that is not a map gets one, with
itself as the only set item if it is specified; an error has none. -/
def editMap : SValue → Option (BValueMap SValue)
  | map m => some m
  | v =>
    if v.isError then none
    else if v.isSpecified then some ((BValueMap.create 1).setFirstMap wild v)
    else some (BValueMap.create 1)

/-- `SValue::shrink_map`, after which the value is no longer a table of no pairs or
of a single `{WILD -> x}`. -/
def shrinkMap (m : BValueMap SValue) : SValue :=
  match m.maps with
  | [] => undefined
  | [(key, value)] => if key.isWild then value else map m
  | _ => map m

/-- `SValue::BeginEditItem`: the table and the place in it; `none` for `NULL`. -/
def beginEditItem (this key : SValue) : Option (BValueMap SValue × ℕ) :=
  if key.isWild then none
  else match this with
    | map m => (m.indexFor key).map fun index => (m, index)
    | _ => none

/-- `SValue::EndEditItem`, when the value at `index` has become `cur`. -/
def endEditItem (m : BValueMap SValue) (index : ℕ) (cur : SValue) : Option SValue := do
  let m ← m.endEditMapAt index cur
  if cur.errorCheck < 0 then pure (error (BitVec.ofInt 32 cur.errorCheck))
  else pure (shrinkMap m)

/-- What is done between `BeginEditItem` and `EndEditItem` is done by `edit`. -/
def editAt (m : BValueMap SValue) (index : ℕ) (edit : SValue → Option SValue) : Option SValue := do
  let cur ← m.beginEditMapAt index
  let cur ← edit cur
  endEditItem m index cur

/-- Adding a new key: `edit_map` and then `AddNewMap`. -/
def addItem (this key value : SValue) : SValue :=
  match this.editMap with
  | some m => map (m.addNewMap key value)
  | none => this

/-- The slots of a list of pairs. -/
def slots (l : List Pair) : Set (List ℤ) := {s | ∃ p ∈ l, slot p = s}

variable {l : List Pair} {k v this key : SValue} {m : BValueMap SValue} {i : ℕ}

theorem mem_slots {s : List ℤ} : s ∈ slots l ↔ ∃ p ∈ l, slot p = s := Iff.rfl

theorem slots_append (l l' : List Pair) : slots (l ++ l') = slots l ∪ slots l' := by
  ext s
  simp only [mem_slots, Set.mem_union, mem_append, or_and_right, exists_or]

theorem slot_eq_iff {k' v' : SValue} : slot (k, v) = slot (k', v') ↔
    (k.isWild = true ∧ k'.isWild = true ∧ v.code = v'.code) ∨
      (k.isWild = false ∧ k'.isWild = false ∧ k.code = k'.code) := by
  cases hk : k.isWild <;> cases hk' : k'.isWild <;> simp [slot, hk, hk']

theorem slot_of_code {k' v' : SValue} (hk : k.code = k'.code) (hv : v.code = v'.code) :
    slot (k, v) = slot (k', v') := by
  unfold slot
  rw [isWild_code hk, hk, hv]

theorem items_map (m : BValueMap SValue) : (map m).items = m.maps := rfl

theorem items_wild_key (h : v.isSimple = true) :
    ∀ p ∈ v.items, p.1.isWild = true := by
  intro p hp
  rw [items_of_isSimple h] at hp
  split at hp
  · cases hp
  · split at hp
    · rw [mem_singleton.1 hp]; rfl
    · cases hp

theorem Partial.items (h : Partial v) (hw : v.isWild = false) : Items v.items := by
  by_cases hs : v.isSimple = true
  · rw [items_of_isSimple hs]
    split
    · exact Items.nil
    · split
      · rename_i hd
        exact Items.singleton ⟨rfl, isNormal_of_isSimple hs⟩
          (isProper_iff.2 ⟨rfl, hd, fun _ => ⟨hs, hw⟩⟩)
      · exact Items.nil
  · obtain ⟨m, rfl⟩ := isSimple_eq_false.1 (by simpa using hs)
    exact h

theorem editMap_of_isSimple (hs : v.isSimple = true) :
    v.editMap = if v.isError then none
      else if v.isSpecified then some ((BValueMap.create 1).setFirstMap wild v)
      else some (BValueMap.create 1) := by
  cases v with
  | map m => simp at hs
  | _ => rfl

theorem editMap_spec (he : v.isError = false) (hw : v.isWild = false) :
    ∃ m, v.editMap = some m ∧ m.maps = v.items := by
  by_cases hs : v.isSimple = true
  · rw [editMap_of_isSimple hs, items_of_isSimple hs]
    simp only [he, isSpecified, hw]
    cases v.isDefined
    · exact ⟨_, rfl, rfl⟩
    · exact ⟨_, rfl, rfl⟩
  · obtain ⟨m, rfl⟩ := isSimple_eq_false.1 (by simpa using hs)
    exact ⟨m, rfl, rfl⟩

/-- **Adding a pair** puts it in its place, unless there is one of its slot. -/
theorem addItem_spec {value : SValue} (hp : Partial this) (he : this.isError = false)
    (hw : this.isWild = false) (hn : key.isNormal = true ∧ value.isNormal = true)
    (hpr : isProper (key, value) = true) :
    ∃ m, addItem this key value = map m ∧ Items m.maps ∧
      ((slot (key, value) ∈ slots this.items ∧ m.maps = this.items) ∨
        (slot (key, value) ∉ slots this.items ∧
          ∃ i ≤ this.items.length, m.maps = this.items.insertIdx i (key, value))) := by
  obtain ⟨m, hm, hmaps⟩ := editMap_spec he hw
  have hi : Items m.maps := by rw [hmaps]; exact hp.items hw
  refine ⟨m.addNewMap key value, by simp [addItem, hm], ?_⟩
  obtain ⟨hk, hv, hkw⟩ := isProper_iff.1 hpr
  have hcond : (value.isDefined && key.isDefined && (!value.isWild || !key.isWild)) = true := by
    cases hkey : key.isWild
    · simp [hk, hv]
    · simp [hk, hv, (hkw hkey).2]
  have hsearch := BValueMap.getIndexOf_eq_search hi.keyed (keyed_of_isProper hpr)
  unfold BValueMap.addNewMap
  rw [if_pos hcond]
  cases hs : m.getIndexOf key value with
  | mk hit index =>
    rw [hsearch] at hs
    cases hit with
    | true =>
      obtain ⟨q, hq, hqs⟩ := search_found hi.table hs
      refine ⟨hi, .inl ⟨⟨q, ?_, hqs⟩, hmaps⟩⟩
      rw [← hmaps]; exact mem_of_getElem? hq
    | false =>
      obtain ⟨hfresh, hle, hins⟩ := search_not_found hi.table hs
      have hmem : ∀ q, q ∈ m.maps.insertIdx index (key, value) ↔
          q = (key, value) ∨ q ∈ m.maps := fun q => mem_insertIdx hle
      simp only [BValueMap.addMapAt_maps]
      refine ⟨Items.of_table (hins _ rfl) ?_ ?_, .inr ⟨?_, index, by rwa [← hmaps], by rw [hmaps]⟩⟩
      · intro p hp
        rcases (hmem p).1 hp with rfl | hp
        · exact hn
        · exact hi.normal p hp
      · intro p hp
        rcases (hmem p).1 hp with rfl | hp
        · exact hpr
        · exact hi.proper p hp
      · rintro ⟨q, hq, hqs⟩
        rw [← hmaps] at hq
        exact hfresh q hq hqs

theorem addNewMap_of_mem {m : BValueMap SValue} (hi : Items m.maps) {i : ℕ} {q : Pair}
    (hq : m.maps[i]? = some q) {key value : SValue} (hp : isProper (key, value) = true)
    (hs : slot q = slot (key, value)) : m.addNewMap key value = m := by
  have hsearch := BValueMap.getIndexOf_eq_search hi.keyed (keyed_of_isProper hp)
  rw [← hs, search_mem hi.table hq] at hsearch
  unfold BValueMap.addNewMap
  split
  · rw [hsearch]
  · rfl

theorem beginEditItem_some (hp : Partial this) (h : this.beginEditItem key = some (m, i)) :
    this = map m ∧ key.isWild = false ∧
      ∃ k cur, m.maps[i]? = some (k, cur) ∧ k.isWild = false ∧ k.code = key.code := by
  unfold beginEditItem at h
  split at h
  · cases h
  rename_i hkey
  have hkey : key.isWild = false := by simpa using hkey
  cases this with
  | map m' =>
    obtain ⟨j, hj, hji⟩ := Option.map_eq_some_iff.1 h
    cases hji
    refine ⟨rfl, hkey, ?_⟩
    have hk : Keyed (key, undefined) := fun hw => by rw [hkey] at hw; cases hw
    unfold BValueMap.indexFor at hj
    rw [BValueMap.getIndexOf_eq_search hp.keyed hk] at hj
    split at hj
    · rename_i index hs
      cases hj
      obtain ⟨⟨k, cur⟩, hq, hqs⟩ := search_found (Items.table hp) hs
      rcases slot_eq_iff.1 hqs with ⟨-, hw, -⟩ | ⟨hkw, -, hc⟩
      · rw [hkey] at hw; cases hw
      · exact ⟨k, cur, hq, hkw, hc⟩
    · cases hj
  | _ => cases h

theorem beginEditItem_none (hp : Partial this) (hkey : key.isWild = false)
    (h : this.beginEditItem key = none) (value : SValue) :
    slot (key, value) ∉ slots this.items := by
  have hk : Keyed (key, undefined) := fun hw => by rw [hkey] at hw; cases hw
  have hslot : slot (key, value) = slot (key, undefined) := by rw [slot_key hkey, slot_key hkey]
  rw [hslot]
  unfold beginEditItem at h
  rw [if_neg (by simp [hkey])] at h
  cases this with
  | map m =>
    have h : m.indexFor key undefined = none := by simpa using h
    unfold BValueMap.indexFor at h
    rw [BValueMap.getIndexOf_eq_search hp.keyed hk] at h
    split at h
    · cases h
    · rename_i index hs
      rintro ⟨q, hq, hqs⟩
      exact (search_not_found (Items.table hp) hs).1 q hq hqs
  | _ =>
    rintro ⟨⟨k, v⟩, hq, hqs⟩
    have hkw := items_wild_key (by simp) _ hq
    rcases slot_eq_iff.1 hqs with ⟨-, hw, -⟩ | ⟨hkf, -, -⟩
    · rw [hkey] at hw; cases hw
    · simp only at hkw; rw [hkf] at hkw; cases hkw

theorem shrinkMap_eq (h : m.maps ≠ []) (hr : isRedundant m.maps = false) :
    shrinkMap m = map m := by
  unfold shrinkMap
  split
  · rename_i he; exact absurd he h
  · rename_i key value he
    rw [he] at hr
    rw [if_neg (by simpa [isRedundant] using hr)]
  · rfl

theorem errorCheck_of_isError (h : v.isError = false) : v.errorCheck = 0 := by
  cases v with
  | small type data =>
    have : type.1 ≠ kErrorTypeCode := by simpa [isError, mType] using h
    simp [errorCheck, this]
  | _ => rfl

theorem modify_eq_set (cur : SValue) (h : l[i]? = some (k, v)) :
    (l.modify i fun p => (p.1, cur)) = l.set i (k, cur) := by
  refine ext_getElem? fun j => ?_
  rw [List.getElem?_modify, List.getElem?_set]
  by_cases hj : i = j
  · subst hj
    have hlt := (List.getElem?_eq_some_iff.1 h).1
    rw [h, if_pos rfl, if_pos hlt]
    simp
  · simp [hj]

theorem mem_set_iff (cur : SValue) (ht : Table cmpCode slot l)
 (h : l[i]? = some (k, v)) (q : Pair) :
    q ∈ l.set i (k, cur) ↔ q = (k, cur) ∨ (q ∈ l ∧ q ≠ (k, v)) := by
  have hlt := (List.getElem?_eq_some_iff.1 h).1
  constructor
  · intro hq
    obtain ⟨j, hj⟩ := mem_iff_getElem?.1 hq
    rw [List.getElem?_set] at hj
    split at hj
    · rename_i hij
      exact .inl (Option.some.inj hj).symm
    · rename_i hij
      refine .inr ⟨mem_of_getElem? hj, ?_⟩
      rintro rfl
      exact hij (ht.getElem?_inj h hj rfl)
  · rintro (rfl | ⟨hq, hne⟩)
    · exact mem_of_getElem? (i := i) (by rw [List.getElem?_set, if_pos rfl, if_pos hlt])
    · obtain ⟨j, hj⟩ := mem_iff_getElem?.1 hq
      refine mem_of_getElem? (i := j) ?_
      rw [List.getElem?_set, if_neg ?_]
      · exact hj
      · rintro rfl
        rw [h] at hj
        exact hne (Option.some.inj hj).symm

/-- **Ending an edit** that left something puts it in the place of what was there,
unless it is an error. -/
theorem endEditItem_spec (hi : Items m.maps) (h : m.maps[i]? = some (k, v)) (hk : k.isWild = false)
    {cur : SValue} (hd : cur.isDefined = true) (hn : cur.isNormal = true) :
    (cur.errorCheck < 0 ∧
        endEditItem m i cur = some (error (BitVec.ofInt 32 cur.errorCheck))) ∨
      (¬ cur.errorCheck < 0 ∧
        endEditItem m i cur = some (map { m with dataSize := none, maps := m.maps.set i (k, cur) }) ∧
        Items (m.maps.set i (k, cur))) := by
  unfold endEditItem BValueMap.endEditMapAt
  simp only [hd, if_true, modify_eq_set cur h, Option.bind_eq_bind, Option.bind_some]
  have hmem := mem_set_iff cur hi.table h
  by_cases hc : cur.errorCheck < 0
  · exact .inl ⟨hc, if_pos hc⟩
  · refine .inr ⟨hc, ?_, Items.of_table (hi.table.set h ?_) ?_ ?_⟩
    · rw [if_neg hc, shrinkMap_eq]
      · rfl
      · have hin : (k, cur) ∈ m.maps.set i (k, cur) := (hmem _).2 (.inl rfl)
        intro he
        simp only at he
        rw [he] at hin; cases hin
      · have hin : (k, cur) ∈ m.maps.set i (k, cur) := (hmem _).2 (.inl rfl)
        simp only
        unfold isRedundant
        split
        · rename_i k' v' he
          rw [he, mem_singleton] at hin
          cases hin; exact hk
        · rfl
    · rw [slot_key hk, slot_key hk]
    · intro p hp
      rcases (hmem p).1 hp with rfl | ⟨hp, -⟩
      · exact ⟨(hi.normal _ (mem_of_getElem? h)).1, hn⟩
      · exact hi.normal p hp
    · intro p hp
      rcases (hmem p).1 hp with rfl | ⟨hp, -⟩
      · have hkd := (isProper_iff.1 (hi.proper _ (mem_of_getElem? h))).1
        exact isProper_iff.2 ⟨hkd, hd, fun hw => by rw [hk] at hw; cases hw⟩
      · exact hi.proper p hp

theorem exists_slot_ne (h : (map m).isNormal = true) (c : List ℤ) :
    ∃ s ∈ slots m.maps, s ≠ c ++ [0] := by
  obtain ⟨hi, hne, hr⟩ := isNormal_map.1 h
  by_contra hall
  have hall : ∀ p ∈ m.maps, slot p = c ++ [0] := by
    intro p hp
    by_contra hs
    exact hall ⟨slot p, ⟨p, hp, rfl⟩, hs⟩
  match hm : m.maps with
  | [] => exact hne hm
  | [(k, v)] =>
    have hs := hall (k, v) (by simp [hm])
    rw [hm] at hr
    rw [slot_key hr] at hs
    have := (append_inj' hs rfl).2
    simp at this
  | p :: q :: l =>
    have h1 := hall p (by simp [hm])
    have h2 := hall q (by simp [hm])
    have := hi.table
    rw [hm] at this
    have hlt := (pairwise_cons.1 this).1 q mem_cons_self
    rw [h1, h2] at hlt
    exact cmp_irrefl _ hlt

end SValue

end OpenBinder
