import OpenBinder.Remote.Values
import OpenBinder.Stream.Effect

/-!
# Tables of arguments

A table of arguments is made by joining one item after the other under keys that are not in it yet.
What was joined is found under its key again; a `NULL` is found too, though its key is put into a
set.

* `SValue.IsArguments`: the values that are made so.
* `SValue.IsArguments.joinItem`: what an item that is joined changes.
-/

namespace OpenBinder.SValue

open Lib List

theorem getIndexOf_keyed {m : BValueMap SValue} (h : ∀ p ∈ m.maps, Keyed p) {k v : SValue}
    (hk : Keyed (k, v)) : m.getIndexOf k v = search cmpCode slot m.maps (slot (k, v)) := by
  unfold BValueMap.getIndexOf search
  congr 1
  funext i
  unfold verdict
  cases hi : m.maps[i]? with
  | none => rfl
  | some p => exact compareMap_eq (h p (mem_of_getElem? hi)) hk

theorem compareMap_congr {p p' : Pair} (h : p.1.code = p'.1.code ∧ p.2.code = p'.2.code) (q : Pair) :
    compareMap p q = compareMap p' q := by
  have hcmp : ∀ a b c : SValue, a.code = b.code → a.compare c = b.compare c := by
    intro a b c hab
    rw [compare_code, compare_code, hab]
  have hwild := isWild_code h.1
  unfold compareMap
  cases hp : p'.1.isWild with
  | true =>
    rw [hp] at hwild
    simp only [hwild, if_true, mType_eq_of_code h.2, isSimple_code h.2, hcmp _ _ _ h.2,
      hcmp _ _ _ h.1]
  | false =>
    rw [hp] at hwild
    simp only [hwild, Bool.false_eq_true, if_false, mType_eq_of_code h.1, isSimple_code h.1,
      hcmp _ _ _ h.1]

theorem indexFor_congr {m m' : BValueMap SValue} (h : (map m).Equal (map m')) (k v : SValue) :
    m.indexFor k v = m'.indexFor k v := by
  have hpairs := forall₂_of_code h.code
  have hindex : m.getIndexOf k v = m'.getIndexOf k v := by
    unfold BValueMap.getIndexOf BValueMap.countMaps
    rw [hpairs.length_eq]
    congr 1
    funext i
    rcases getElem?_of_forall₂ hpairs i with ⟨h1, h2⟩ | ⟨p, p', h1, h2, hpp⟩
    · rw [h1, h2]
    · rw [h1, h2]
      exact compareMap_congr hpp (k, v)
  unfold BValueMap.indexFor
  rw [hindex]

theorem Equal.valueFor {v w : SValue} (h : v.Equal w) (k : SValue) :
    (v.valueFor k).Equal (w.valueFor k) := by
  by_cases hk : k.isWild = true
  · unfold SValue.valueFor
    rw [if_pos hk, if_pos hk]
    exact h
  cases v with
  | small type data =>
    obtain ⟨data', rfl⟩ := h.small
    have hcmp : k.compare (SValue.small type data') = k.compare (SValue.small type data) := by
      rw [compare_code, compare_code, h.code]
    simp only [SValue.valueFor, hk, if_false, Bool.false_eq_true, ← h.isWild, hcmp,
      ← isError_code h.code]
    by_cases hw : (SValue.small type data).isWild = true
    · rw [if_pos hw, if_pos hw]
      exact Equal.refl _
    · rw [if_neg hw, if_neg hw]
      by_cases heq : k.compare (SValue.small type data) = .eq
      · rw [if_pos heq, if_pos heq]
        exact Equal.refl _
      · rw [if_neg heq, if_neg heq]
        by_cases he : (SValue.small type data).isError = true
        · rw [if_pos he, if_pos he]
          exact h
        · rw [if_neg he, if_neg he]
          exact Equal.refl _
  | large type buffer =>
    rw [h.large]
    exact Equal.refl _
  | map m =>
    obtain ⟨m', rfl⟩ := h.map
    simp only [SValue.valueFor, hk, if_false, Bool.false_eq_true, indexFor_congr h]
    cases m'.indexFor k with
    | none => exact Equal.refl _
    | some i =>
      rcases getElem?_of_forall₂ (forall₂_of_code h.code) i with ⟨h1, h2⟩ | ⟨p, p', h1, h2, hpp⟩
      · simp only [h1, h2]
        exact Equal.refl _
      · simp only [h1, h2]
        exact equal_of_code hpp.2

/-- **A value that arguments were joined into**: its keys are simple, and so are the items of its
set. -/
structure IsArguments (this : SValue) : Prop where
  error : this.isError = false
  wild : this.isWild = false
  keys : ∀ p ∈ this.items, p.1.IsKey ∨ p.1.isWild = true ∧ p.2.IsKey
  sorted : Table cmpCode slot this.items

/-- Nothing is known of a key. -/
def Absent (this k : SValue) : Prop :=
  ∀ p ∈ this.items, slot p ≠ k.code ++ [0] ∧ slot p ≠ k.code ++ [1]

theorem IsKey.keyed {k : SValue} (h : k.IsKey) (v : SValue) : Keyed (k, v) :=
  fun hw => absurd (h.wild.symm.trans hw) Bool.false_ne_true

theorem IsKey.keyed_set {k : SValue} (h : k.IsKey) : Keyed (SValue.wild, k) := fun _ => h.simple

theorem IsKey.items {k : SValue} (h : k.IsKey) : k.items = [(SValue.wild, k)] := by
  rw [items_of_isSimple h.simple, h.error, h.defined]
  rfl

variable {this k k' v : SValue}

theorem isArguments_undefined : undefined.IsArguments where
  error := by decide
  wild := by decide
  keys := fun _ hp => absurd hp not_mem_nil
  sorted := Table.nil

namespace IsArguments

theorem keyed (h : this.IsArguments) : ∀ p ∈ this.items, Keyed p := by
  rintro ⟨k, v⟩ hp
  rcases h.keys _ hp with hk | ⟨-, hv⟩
  · exact hk.keyed v
  · exact fun _ => hv.simple

variable {p : Pair}

theorem slot_of_isSimple (hs : this.isSimple = true) (hp : p ∈ this.items) :
    slot p = this.code ++ [0] := by
  rw [items_of_isSimple hs] at hp
  split at hp
  · cases hp
  · split at hp
    · rw [mem_singleton.1 hp]
      exact slot_wild (by decide) _
    · cases hp

theorem append_ne (c c' : List ℤ) : c ++ [0] ≠ c' ++ [1] := by
  intro heq
  have hlast := (append_inj' heq rfl).2
  exact absurd hlast (by decide)

theorem valueFor_key (h : this.IsArguments) (hk : k.IsKey) (hp : p ∈ this.items)
    (hslot : slot p = k.code ++ [1]) : this.valueFor k = p.2 := by
  by_cases hs : this.isSimple = true
  · rw [slot_of_isSimple hs hp] at hslot
    exact absurd hslot (append_ne _ _)
  · obtain ⟨m, rfl⟩ := isSimple_eq_false.1 (by simpa using hs)
    obtain ⟨i, hi⟩ := mem_iff_getElem?.1 hp
    have hfound : m.getIndexOf k undefined = (true, i) := by
      rw [getIndexOf_keyed h.keyed (hk.keyed _), slot_key hk.wild, ← hslot]
      exact search_mem h.sorted hi
    have hget : m.maps[i]? = some p := hi
    simp [valueFor, hk.wild, BValueMap.indexFor, hfound, hget]

theorem indexFor_none {m : BValueMap SValue} (h : (map m).IsArguments) (hk : Keyed (k, v))
    (hno : ∀ p ∈ m.maps, slot p ≠ slot (k, v)) : m.indexFor k v = none := by
  unfold BValueMap.indexFor
  rw [getIndexOf_keyed h.keyed hk]
  cases hs : search cmpCode slot m.maps (slot (k, v)) with
  | mk hit i =>
    cases hit with
    | false => rfl
    | true =>
      obtain ⟨p, hp, hslot⟩ := search_found h.sorted hs
      exact absurd hslot (hno p (mem_of_getElem? hp))

theorem valueFor_set (h : this.IsArguments) (hk : k.IsKey) (hp : p ∈ this.items)
    (hslot : slot p = k.code ++ [0]) (hno : ∀ q ∈ this.items, slot q ≠ k.code ++ [1]) :
    this.valueFor k = null := by
  by_cases hs : this.isSimple = true
  · rw [slot_of_isSimple hs hp] at hslot
    have heq : k.compare this = .eq := compare_eq_iff.2 (append_inj' hslot rfl).1.symm
    cases this with
    | map m => exact absurd hs (by rw [isSimple_map]; decide)
    | small type data => simp only [valueFor, hk.wild, h.wild, heq]; rfl
    | large type buffer => simp only [valueFor, hk.wild, h.wild, heq]; rfl
  · obtain ⟨m, rfl⟩ := isSimple_eq_false.1 (by simpa using hs)
    obtain ⟨i, hi⟩ := mem_iff_getElem?.1 hp
    have hkey : m.indexFor k = none := by
      apply indexFor_none h (hk.keyed _)
      intro q hq
      rw [slot_key hk.wild]
      exact hno q hq
    have hfound : m.getIndexOf SValue.wild k = (true, i) := by
      rw [getIndexOf_keyed h.keyed hk.keyed_set, slot_wild (by decide), ← hslot]
      exact search_mem h.sorted hi
    have hset : m.indexFor SValue.wild k = some i := by
      unfold BValueMap.indexFor
      rw [hfound]
    simp [valueFor, hk.wild, hkey, hset]

theorem valueFor_absent (h : this.IsArguments) (hk : k.IsKey) (habs : this.Absent k) :
    this.valueFor k = undefined := by
  by_cases hs : this.isSimple = true
  · have hne : this.isDefined = true → k.compare this ≠ .eq := by
      intro hd heq
      have hitem : (SValue.wild, this) ∈ this.items := by
        rw [items_of_isSimple hs, h.error, hd]
        exact mem_singleton_self _
      apply (habs _ hitem).1
      rw [slot_wild (by decide), compare_eq_iff.1 heq]
    have hne' : k.compare this ≠ .eq := by
      by_cases hd : this.isDefined = true
      · exact hne hd
      · intro heq
        exact hd (Equal.isDefined heq ▸ hk.defined)
    exact valueFor_simple hk hs h.wild h.error hne'
  · obtain ⟨m, rfl⟩ := isSimple_eq_false.1 (by simpa using hs)
    have hkey : m.indexFor k = none := by
      apply indexFor_none h (hk.keyed _)
      intro q hq
      rw [slot_key hk.wild]
      exact (habs q hq).2
    have hset : m.indexFor SValue.wild k = none := by
      apply indexFor_none h hk.keyed_set
      intro q hq
      rw [slot_wild (k := SValue.wild) rfl]
      exact (habs q hq).1
    simp [valueFor, hk.wild, hkey, hset]

theorem of_added {r : SValue} (h : this.IsArguments) (hr : r.IsArguments)
    (hitems : ∀ q, q ∈ r.items ↔ q = p ∨ q ∈ this.items)
    (hslot : slot p = k.code ++ [0] ∨ slot p = k.code ++ [1]) (hk' : k'.IsKey)
    (hne : k'.code ≠ k.code) :
    r.valueFor k' = this.valueFor k' ∧ (this.Absent k' → r.Absent k') := by
  -- the pair is not about the key
  have hother : ∀ n : ℤ, slot p ≠ k'.code ++ [n] := by
    intro n heq
    rcases hslot with hslot | hslot
    · exact hne (append_inj' (hslot.symm.trans heq) rfl).1.symm
    · exact hne (append_inj' (hslot.symm.trans heq) rfl).1.symm
  have hmiss : ∀ n : ℤ, (∀ q ∈ this.items, slot q ≠ k'.code ++ [n]) →
      ∀ q ∈ r.items, slot q ≠ k'.code ++ [n] := by
    intro n hno q hq
    rcases (hitems q).1 hq with rfl | hq
    · exact hother n
    · exact hno q hq
  have habsent : this.Absent k' → r.Absent k' := by
    intro habs q hq
    exact ⟨hmiss 0 (fun q hq => (habs q hq).1) q hq, hmiss 1 (fun q hq => (habs q hq).2) q hq⟩
  refine ⟨?_, habsent⟩
  by_cases hone : ∃ q ∈ this.items, slot q = k'.code ++ [1]
  · obtain ⟨q, hq, hslotq⟩ := hone
    rw [h.valueFor_key hk' hq hslotq, hr.valueFor_key hk' ((hitems q).2 (.inr hq)) hslotq]
  · replace hone : ∀ q ∈ this.items, slot q ≠ k'.code ++ [1] := fun q hq hs => hone ⟨q, hq, hs⟩
    by_cases hzero : ∃ q ∈ this.items, slot q = k'.code ++ [0]
    · obtain ⟨q, hq, hslotq⟩ := hzero
      rw [h.valueFor_set hk' hq hslotq hone,
        hr.valueFor_set hk' ((hitems q).2 (.inr hq)) hslotq (hmiss 1 hone)]
    · have habs : this.Absent k' := fun q hq => ⟨fun hs => hzero ⟨q, hq, hs⟩, hone q hq⟩
      rw [h.valueFor_absent hk' habs, hr.valueFor_absent hk' (habsent habs)]

theorem addItem (h : this.IsArguments) (hkey : k.IsKey ∨ k.isWild = true ∧ v.IsKey)
    (hv : v.isDefined = true) (hnew : ∀ p ∈ this.items, slot p ≠ slot (k, v)) :
    ∃ m, SValue.addItem this k v = map m ∧ (map m).IsArguments ∧
      ∀ q, q ∈ m.maps ↔ q = (k, v) ∨ q ∈ this.items := by
  obtain ⟨m, hm, hmaps⟩ := editMap_spec h.error h.wild
  have hkeyed : Keyed (k, v) := hkey.elim (fun hk => hk.keyed v) fun hset _ => hset.2.simple
  have hcond : (v.isDefined && k.isDefined && (!v.isWild || !k.isWild)) = true := by
    rcases hkey with hk | ⟨hk, hset⟩
    · simp [hv, hk.defined, hk.wild]
    · simp [hv, hset.wild, isDefined_of_isWild hk]
  have hsearch : m.getIndexOf k v = search cmpCode slot this.items (slot (k, v)) := by
    rw [← hmaps]
    exact getIndexOf_keyed (hmaps ▸ h.keyed) hkeyed
  refine ⟨m.addNewMap k v, by rw [SValue.addItem, hm], ?_⟩
  unfold BValueMap.addNewMap
  rw [if_pos hcond, hsearch]
  cases hs : search cmpCode slot this.items (slot (k, v)) with
  | mk hit index =>
    cases hit with
    | true =>
      obtain ⟨q, hq, hslot⟩ := search_found h.sorted hs
      exact absurd hslot (hnew q (mem_of_getElem? hq))
    | false =>
      obtain ⟨-, hle, hins⟩ := search_not_found h.sorted hs
      have hmem : ∀ q, q ∈ this.items.insertIdx index (k, v) ↔ q = (k, v) ∨ q ∈ this.items :=
        fun q => mem_insertIdx hle
      have hpairs : (BValueMap.addMapAt { m with dataSize := none } index k v).maps =
          this.items.insertIdx index (k, v) := by
        rw [BValueMap.addMapAt_maps, hmaps]
      refine ⟨⟨isError_map _, isWild_map _, ?_, ?_⟩, ?_⟩
      · intro p hp
        rw [items_map, hpairs] at hp
        rcases (hmem p).1 hp with rfl | hp
        · exact hkey
        · exact h.keys p hp
      · rw [items_map, hpairs]
        exact hins _ rfl
      · intro q
        rw [hpairs]
        exact hmem q

end IsArguments

/-- What `JoinItem` makes of a value, where its key was absent. -/
structure Argued (this k v r : SValue) : Prop where
  arguments : r.IsArguments
  value : (r.valueFor k).Equal v
  others : ∀ k' : SValue, k'.IsKey → k'.code ≠ k.code → r.valueFor k' = this.valueFor k'
  absent : ∀ k' : SValue, k'.IsKey → k'.code ≠ k.code → this.Absent k' → r.Absent k'

variable {r : SValue}

theorem joined_pair (h : this.IsArguments) (hk : k.IsKey) (hr : r.IsArguments)
    (hitems : ∀ q, q ∈ r.items ↔ q = (k, v) ∨ q ∈ this.items) : Argued this k v r where
  arguments := hr
  value := by
    rw [hr.valueFor_key hk ((hitems _).2 (.inl rfl)) (slot_key hk.wild v)]
    exact Equal.refl v
  others := fun k' hk' hne => (h.of_added hr hitems (.inr (slot_key hk.wild v)) hk' hne).1
  absent := fun k' hk' hne => (h.of_added hr hitems (.inr (slot_key hk.wild v)) hk' hne).2

theorem equal_null (h : v.isNull = true) : v.Equal null := by
  have htype : v.mType = kNullTypeCode := by simpa [isNull] using h
  apply equal_of_code
  cases v with
  | map m => exact absurd h (by rw [isNull_map]; decide)
  | small type data =>
    have htype : type.1 = kNullTypeCode := htype
    have hlen : unpackTypeLength kNullTypeCode = 0 := by decide
    simp only [code, null, htype, hlen, localKey, localBytes]
    rfl
  | large type buffer =>
    have htype : type.1 = kNullTypeCode := htype
    have hlarge := type.2
    rw [htype] at hlarge
    exact absurd hlarge (by decide)

theorem joined_set (h : this.IsArguments) (hk : k.IsKey) (habs : this.Absent k)
    (hv : v.isNull = true) (hr : r.IsArguments)
    (hitems : ∀ q, q ∈ r.items ↔ q = (wild, k) ∨ q ∈ this.items) : Argued this k v r where
  arguments := hr
  value := by
    have hslot : slot (wild, k) = k.code ++ [0] := slot_wild (by decide) k
    rw [hr.valueFor_set hk ((hitems _).2 (.inl rfl)) hslot]
    · exact (equal_null hv).symm
    · intro q hq
      rcases (hitems q).1 hq with rfl | hq
      · rw [hslot]
        exact IsArguments.append_ne _ _
      · exact (habs q hq).2
  others := fun k' hk' hne => (h.of_added hr hitems (.inl (slot_wild (by decide) k)) hk' hne).1
  absent := fun k' hk' hne => (h.of_added hr hitems (.inl (slot_wild (by decide) k)) hk' hne).2

theorem IsKey.isArguments (hk : k.IsKey) : k.IsArguments where
  error := hk.error
  wild := hk.wild
  keys := by
    intro p hp
    rw [hk.items] at hp
    cases mem_singleton.1 hp
    exact .inr ⟨rfl, hk⟩
  sorted := by
    rw [hk.items]
    exact Table.singleton _

theorem join_key (flags : Flags) (this : SValue) (hk : k.IsKey) :
    join flags this k = joinWith this k (some (this.addItem wild k)) := by
  have hbegin : this.beginEditItem wild = none := if_pos rfl
  have hloop : k.items.foldlM (fun this p => joinPair flags this p.1 p.2 fun _ => none) this =
      some (this.addItem wild k) := by
    rw [hk.items]
    simp [joinPair, hbegin]
  cases k with
  | map m => exact absurd hk.simple (by rw [isSimple_map]; decide)
  | small type data =>
    rw [join, hloop]
    simp
  | large type buffer =>
    rw [join, hloop]
    simp

theorem IsArguments.beginEditItem (h : this.IsArguments) (hk : k.IsKey) (habs : this.Absent k) :
    this.beginEditItem k = none := by
  by_cases hs : this.isSimple = true
  · cases this with
    | map m => exact absurd hs (by rw [isSimple_map]; decide)
    | small type data => simp [SValue.beginEditItem]
    | large type buffer => simp [SValue.beginEditItem]
  · obtain ⟨m, rfl⟩ := isSimple_eq_false.1 (by simpa using hs)
    have hkey : m.indexFor k = none := by
      apply IsArguments.indexFor_none h (hk.keyed _)
      intro q hq
      rw [slot_key hk.wild]
      exact (habs q hq).2
    simp [SValue.beginEditItem, hkey]

theorem isMap_map (m : BValueMap SValue) : (map m).isMap = true := by
  rw [isMap_eq_not_isSimple, isSimple_map]
  rfl

section

variable (h : this.IsArguments) (hk : k.IsKey) (habs : this.Absent k)
include h hk habs

/-- **What is joined under an absent key**: the pair, or the key into the set for a `NULL`. The
result is a table, or the key if it is all there is. -/
theorem IsArguments.joinItem_items (hv : v.isError = false) (hd : v.isDefined = true) :
    ∃ r, SValue.joinItem this k v Flags.none = some r ∧ r.IsArguments ∧
      (∀ q, q ∈ r.items ↔ q = (if v.isNull = true then (SValue.wild, k) else (k, v)) ∨ q ∈ this.items) ∧
      if this.isDefined = false ∧ v.isNull = true then r = k else r.isMap = true := by
  have hfinal : this.isFinal = false := by simp [isFinal, h.wild, h.error]
  have hkmap : k.isMap = false := by rw [isMap_eq_not_isSimple, hk.simple, Bool.not_true]
  by_cases hnull : v.isNull = true
  · -- the key goes into the set
    have hjoin : SValue.joinItem this k v Flags.none = SValue.join Flags.none this k := by
      simp [SValue.joinItem, joinItemWith, hfinal, hk.defined, hd, hk.wild, hnull]
    have hkfinal : k.isFinal = false := by simp [isFinal, hk.wild, hk.error]
    rw [hjoin, join_key Flags.none this hk, if_pos hnull]
    unfold joinWith
    rw [hkfinal]
    by_cases hthis : this.isDefined = true
    · have hnew : ∀ p ∈ this.items, slot p ≠ slot (SValue.wild, k) := by
        intro p hp
        rw [slot_wild (k := SValue.wild) rfl]
        exact (habs p hp).1
      obtain ⟨m, hadd, hm, hitems⟩ := h.addItem (.inr ⟨rfl, hk⟩) hk.defined hnew
      have hspec : this.isSpecified = true := by simp [isSpecified, hthis, h.wild]
      have hne : this.isMap = true ∨ this.compare k ≠ .eq := by
        by_cases hs : this.isSimple = true
        · right
          intro heq
          have hitem : (SValue.wild, this) ∈ this.items := by
            rw [items_of_isSimple hs, h.error, hthis]
            exact mem_singleton_self _
          apply (habs _ hitem).1
          rw [slot_wild (k := SValue.wild) rfl, compare_eq_iff.1 heq]
        · left
          rw [isMap_eq_not_isSimple]
          simpa using hs
      refine ⟨map m, ?_, hm, hitems, ?_⟩
      · simp [hspec, hne, hadd]
      · rw [if_neg (by simp [hthis])]
        exact isMap_map m
    · -- the value was undefined, and is the key now
      have hspec : this.isSpecified = false := by simp [isSpecified, hthis]
      have hempty : this.items = [] := by
        cases this with
        | map m => exact absurd (isDefined_map m) hthis
        | small type data => simp [items, h.error, hthis]
        | large type buffer => simp [items, h.error, hthis]
      refine ⟨k, ?_, hk.isArguments, ?_, ?_⟩
      · simp [hspec, hthis]
      · intro q
        rw [hempty, hk.items]
        simp
      · rw [if_pos ⟨by simpa using hthis, hnull⟩]
  · have hnew : ∀ p ∈ this.items, slot p ≠ slot (k, v) := by
      intro p hp
      rw [slot_key hk.wild]
      exact (habs p hp).2
    obtain ⟨m, hadd, hm, hitems⟩ := h.addItem (.inl hk) hd hnew
    rw [if_neg hnull]
    refine ⟨map m, ?_, hm, hitems, ?_⟩
    · have hbegin := h.beginEditItem hk habs
      simp [SValue.joinItem, joinItemWith, hfinal, hk.defined, hd, hk.wild, hnull, hkmap, hk.error,
        hv, joinPair, hbegin, hadd]
    · rw [if_neg (by simp [hnull])]
      exact isMap_map m

theorem IsArguments.argued (hr : r.IsArguments)
    (hitems : ∀ q, q ∈ r.items ↔
      q = (if v.isNull = true then (SValue.wild, k) else (k, v)) ∨ q ∈ this.items) :
    Argued this k v r := by
  by_cases hnull : v.isNull = true
  · rw [if_pos hnull] at hitems
    exact joined_set h hk habs hnull hr hitems
  · rw [if_neg hnull] at hitems
    exact joined_pair h hk hr hitems

theorem IsArguments.joinItem (hv : v.isError = false) :
    ∃ r, SValue.joinItem this k v Flags.none = some r ∧ Argued this k v r := by
  by_cases hd : v.isDefined = true
  · obtain ⟨r, hr, hargs, hitems, -⟩ := h.joinItem_items hk habs hv hd
    exact ⟨r, hr, h.argued hk habs hargs hitems⟩
  · refine ⟨this, by simp [SValue.joinItem, joinItemWith, hd], h, ?_, fun _ _ _ => rfl,
      fun _ _ _ habs => habs⟩
    rw [h.valueFor_absent hk habs]
    exact equal_of_code (eq_undefined_code (by simpa using hd)).symm

end

theorem initAsMap_argued (hk : k.IsKey) (hv : v.isError = false) :
    ∃ r, initAsMap Flags.none k v = some r ∧ Argued undefined k v r := by
  by_cases hd : v.isDefined = true
  · refine ⟨one k v, initAsMap_key hk hd hv, joined_pair isArguments_undefined hk ?_ ?_⟩
    · refine ⟨isError_map _, isWild_map _, ?_, Table.singleton _⟩
      intro p hp
      cases mem_singleton.1 hp
      exact .inl hk
    · intro q
      have hempty : undefined.items = [] := rfl
      rw [hempty]
      exact mem_singleton.trans (by simp)
  · refine ⟨undefined, ?_, isArguments_undefined, ?_, fun _ _ _ => rfl, fun _ _ _ habs => habs⟩
    · cases k with
      | map m => exact absurd hk.simple (by rw [isSimple_map]; decide)
      | small type data => simp [initAsMap, initAsMapWith, hk.error, hv, hd]
      | large type buffer => simp [initAsMap, initAsMapWith, hk.error, hv, hd]
    · rw [valueFor_undefined hk]
      exact equal_of_code (eq_undefined_code (by simpa using hd)).symm

theorem joinItem_isError (h : this.isFinal = false) (hk : k.IsKey) (hv : v.isError = true) :
    SValue.joinItem this k v Flags.none = some v := by
  have hd : v.isDefined = true := isDefined_of_isError hv
  have hfinal : v.isFinal = true := by rw [isFinal, hv, Bool.or_true]
  have hnull : v.isNull = false := by
    rw [isError, beq_iff_eq] at hv
    rw [isNull, hv]
    decide
  have hmade : initAsMap Flags.none k v = some v := by
    cases k with
    | map m => exact absurd hk.simple (by rw [isSimple_map]; decide)
    | small type data => simp [initAsMap, initAsMapWith, hk.error, hv]
    | large type buffer => simp [initAsMap, initAsMapWith, hk.error, hv]
  have hjoin : join Flags.none this v = some v := by
    cases v with
    | map m => exact absurd hv (by rw [isError_map]; decide)
    | small type data =>
      rw [join, joinWith, if_pos hfinal]
      simp
    | large type buffer =>
      rw [join, joinWith, if_pos hfinal]
      simp
  simp [SValue.joinItem, joinItemWith, h, hk.defined, hd, hk.wild, hnull, hv, hmade, hjoin]

theorem valueFor_isError (hk : k.IsKey) (hv : v.isError = true) : v.valueFor k = v := by
  have hne : k.compare v ≠ .eq := by
    intro heq
    have herror := hk.error
    rw [isError_code (compare_eq_iff.1 heq), hv] at herror
    cases herror
  have hwild : v.isWild = false := by
    rw [isError, beq_iff_eq] at hv
    rw [isWild, hv]
    decide
  cases v with
  | map m => exact absurd hv (by rw [isError_map]; decide)
  | small type data => simp [valueFor, hk.wild, hwild, hne, hv]
  | large type buffer => simp [valueFor, hk.wild, hwild, hne, hv]

theorem word_of_code {type : SmallType} {data data' : BitVec 32}
    (hlen : unpackTypeLength type.1 = 4) (h : (small type data).code = (small type data').code) :
    data = data' := by
  rw [code, code, hlen] at h
  have htail : localKey 4 data = localKey 4 data' := (List.cons.inj h).2
  exact BitVec.eq_of_toInt_eq (List.cons.inj htail).1

theorem int32_code_ne {n m : BitVec 32} (h : n ≠ m) : (int32 n).code ≠ (int32 m).code := by
  intro heq
  have hlen : unpackTypeLength (packSmallType int32Type 4) = 4 := by decide
  exact h (word_of_code hlen heq)

theorem absent_undefined (k : SValue) : undefined.Absent k := fun _ hp => absurd hp not_mem_nil

end OpenBinder.SValue
