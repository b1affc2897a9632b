import Mathlib.Data.List.Perm.Basic
import Mathlib.Data.List.Nodup
import OpenBinder.Lib.Table

/-!
# Keyed tables

A **keyed table** is a strictly sorted table of pairs. Its keys are looked up by bisection, an
item is added at the place where the search ended and replaces an item of the same key.

* `Keyed.valueFor_eq_some`: the value for a key is the one it is paired with.
* `Keyed.valueFor_add`, `Keyed.valueFor_remove`: what a change does to every key.
-/

namespace OpenBinder.Lib

open List

/-- A table of pairs, strictly sorted by key. -/
structure Keyed {κ : Type} (cmp : κ → κ → Ordering) (ν : Type) where
  items : List (κ × ν)
  sorted : Table cmp Prod.fst items

namespace Keyed

variable {κ ν : Type} {cmp : κ → κ → Ordering}

/-- The table without items. -/
def empty : Keyed cmp ν := ⟨[], Table.nil⟩

/-- Where a key is, or where it belongs. -/
def find (t : Keyed cmp ν) (k : κ) : Bool × ℕ := search cmp Prod.fst t.items k

/-- The position of a key. -/
def indexOf (t : Keyed cmp ν) (k : κ) : Option ℕ :=
  if (t.find k).1 then some (t.find k).2 else none

/-- The value for a key. -/
def valueFor (t : Keyed cmp ν) (k : κ) : Option ν :=
  (t.indexOf k).bind fun i => (t.items[i]?).map Prod.snd

/-- Whether there is an item of the key. -/
def has (t : Keyed cmp ν) (k : κ) : Bool := (t.indexOf k).isSome

variable [Std.TransCmp cmp] [Std.LawfulEqCmp cmp]

variable {t : Keyed cmp ν} {k : κ} {v : ν}

theorem find_hit (h : (t.find k).1 = true) :
    ∃ v, t.items[(t.find k).2]? = some (k, v) := by
  have hs : search cmp Prod.fst t.items k = (true, (t.find k).2) := Prod.ext h rfl
  obtain ⟨⟨k', v⟩, hi, rfl⟩ := search_found t.sorted hs
  exact ⟨v, hi⟩

theorem find_miss (h : (t.find k).1 = false) :
    (∀ p ∈ t.items, p.1 ≠ k) ∧ (t.find k).2 ≤ t.items.length ∧
      ∀ v, Table cmp Prod.fst (t.items.insertIdx (t.find k).2 (k, v)) := by
  have hs : search cmp Prod.fst t.items k = (false, (t.find k).2) := Prod.ext h rfl
  obtain ⟨hne, hle, hins⟩ := search_not_found t.sorted hs
  exact ⟨hne, hle, fun v => hins (k, v) rfl⟩

/-- The item is added, or takes the place of the one with its key. -/
def add (t : Keyed cmp ν) (k : κ) (v : ν) : Keyed cmp ν :=
  if h : (t.find k).1 = true then
    ⟨t.items.set (t.find k).2 (k, v), by
      obtain ⟨_, hi⟩ := find_hit h
      exact t.sorted.set hi rfl⟩
  else
    ⟨t.items.insertIdx (t.find k).2 (k, v), (find_miss (Bool.eq_false_iff.2 h)).2.2 v⟩

omit [Std.TransCmp cmp] [Std.LawfulEqCmp cmp] in
/-- The item at a position goes. -/
def removeAt (t : Keyed cmp ν) (i : ℕ) : Keyed cmp ν := ⟨t.items.eraseIdx i, t.sorted.eraseIdx i⟩

omit [Std.TransCmp cmp] [Std.LawfulEqCmp cmp] in
/-- The item of a key goes, if there is one. -/
def remove (t : Keyed cmp ν) (k : κ) : Keyed cmp ν :=
  match t.indexOf k with
  | some i => t.removeAt i
  | none => t

/-- **An item is found at its position.** -/
theorem find_eq {i : ℕ} (h : t.items[i]? = some (k, v)) :
    t.find k = (true, i) := search_mem t.sorted h

theorem indexOf_eq_some {i : ℕ} :
    t.indexOf k = some i ↔ ∃ v, t.items[i]? = some (k, v) := by
  constructor
  · intro h
    unfold indexOf at h
    split at h
    · rename_i hhit
      obtain ⟨⟩ := h
      exact find_hit hhit
    · cases h
  · rintro ⟨v, h⟩
    simp [indexOf, find_eq h]

theorem indexOf_eq_none :
    t.indexOf k = none ↔ ∀ p ∈ t.items, p.1 ≠ k := by
  constructor
  · rintro h ⟨k', v⟩ hp rfl
    obtain ⟨i, hi⟩ := mem_iff_getElem?.1 hp
    have := indexOf_eq_some.2 ⟨v, hi⟩
    rw [h] at this
    cases this
  · intro h
    cases hi : t.indexOf k with
    | none => rfl
    | some i =>
      obtain ⟨v, hv⟩ := indexOf_eq_some.1 hi
      exact absurd rfl (h _ (mem_of_getElem? hv))

/-- **The value for a key** is the one it is paired with. -/
theorem valueFor_eq_some :
    t.valueFor k = some v ↔ (k, v) ∈ t.items := by
  unfold valueFor
  constructor
  · intro h
    obtain ⟨i, hi, hv⟩ := Option.bind_eq_some_iff.1 h
    obtain ⟨v', hv'⟩ := indexOf_eq_some.1 hi
    rw [hv', Option.map_some] at hv
    obtain ⟨⟩ := hv
    exact mem_of_getElem? hv'
  · intro h
    obtain ⟨i, hi⟩ := mem_iff_getElem?.1 h
    rw [indexOf_eq_some.2 ⟨v, hi⟩, Option.bind_some, hi, Option.map_some]

theorem valueFor_eq_none :
    t.valueFor k = none ↔ ∀ p ∈ t.items, p.1 ≠ k := by
  constructor
  · intro h p hp hk
    have := valueFor_eq_some.2 (hk ▸ hp : (k, p.2) ∈ t.items)
    rw [h] at this
    cases this
  · intro h
    cases hv : t.valueFor k with
    | none => rfl
    | some v => exact absurd rfl (h _ (valueFor_eq_some.1 hv))

theorem has_iff : t.has k = true ↔ ∃ v, t.valueFor k = some v := by
  unfold has
  cases h : t.indexOf k with
  | none =>
    have hn := valueFor_eq_none.2 (indexOf_eq_none.1 h)
    simp [hn]
  | some i =>
    obtain ⟨v, hv⟩ := indexOf_eq_some.1 h
    simp [valueFor_eq_some.2 (mem_of_getElem? hv)]

theorem has_eq_false : t.has k = false ↔ t.valueFor k = none := by
  rw [Bool.eq_false_iff, Ne, has_iff, Option.eq_none_iff_forall_ne_some]
  exact not_exists

omit [Std.LawfulEqCmp cmp] in
theorem nodup_keys (t : Keyed cmp ν) : (t.items.map Prod.fst).Nodup := by
  refine pairwise_map.2 (t.sorted.imp ?_)
  intro p q hlt heq
  rw [heq] at hlt
  exact cmp_irrefl _ hlt

/-- What is in a table after an addition. -/
theorem mem_add {p : κ × ν} :
    p ∈ (t.add k v).items ↔ p = (k, v) ∨ p ∈ t.items ∧ p.1 ≠ k := by
  unfold add
  split
  · rename_i h
    obtain ⟨w, hw⟩ := find_hit h
    rw [mem_iff_getElem?]
    constructor
    · rintro ⟨j, hj⟩
      rw [List.getElem?_set] at hj
      split at hj
      · rw [if_pos (List.getElem?_eq_some_iff.1 hw).1] at hj
        exact .inl (Option.some.inj hj).symm
      · rename_i hne
        refine .inr ⟨mem_of_getElem? hj, fun hk => hne ?_⟩
        exact t.sorted.getElem?_inj hw hj hk.symm
    · rintro (rfl | ⟨hp, hk⟩)
      · refine ⟨(t.find k).2, ?_⟩
        rw [List.getElem?_set, if_pos rfl, if_pos (List.getElem?_eq_some_iff.1 hw).1]
      · obtain ⟨j, hj⟩ := mem_iff_getElem?.1 hp
        refine ⟨j, ?_⟩
        rw [List.getElem?_set, if_neg, hj]
        rintro rfl
        rw [hw] at hj
        exact hk (Option.some.inj hj ▸ rfl)
  · rename_i h
    obtain ⟨hne, hle, -⟩ := find_miss (t := t) (k := k) (Bool.eq_false_iff.2 h)
    rw [mem_insertIdx hle]
    refine or_congr_right ⟨fun hp => ⟨hp, hne p hp⟩, And.left⟩

/-- **An addition changes one key.** -/
theorem valueFor_add (t : Keyed cmp ν) (k k' : κ) (v : ν) [Decidable (k' = k)] :
    (t.add k v).valueFor k' = if k' = k then some v else t.valueFor k' := by
  apply Option.ext
  intro w
  rw [valueFor_eq_some, mem_add]
  split
  · rename_i hk
    subst hk
    constructor
    · rintro (h | h)
      · rw [(Prod.mk.inj h).2]
      · exact absurd rfl h.2
    · intro h
      rw [Option.some.inj h]
      exact .inl rfl
  · rename_i hk
    rw [valueFor_eq_some]
    refine ⟨?_, fun h => .inr ⟨h, hk⟩⟩
    rintro (h | h)
    · exact absurd (Prod.mk.inj h).1 hk
    · exact h.1

theorem mem_remove {p : κ × ν} :
    p ∈ (t.remove k).items ↔ p ∈ t.items ∧ p.1 ≠ k := by
  unfold remove
  split
  · rename_i i hi
    obtain ⟨v, hv⟩ := indexOf_eq_some.1 hi
    show p ∈ t.items.eraseIdx i ↔ _
    rw [mem_eraseIdx_iff_getElem?]
    constructor
    · rintro ⟨j, hji, hj⟩
      refine ⟨mem_of_getElem? hj, fun hk => hji ?_⟩
      exact t.sorted.getElem?_inj hj hv hk
    · rintro ⟨hp, hk⟩
      obtain ⟨j, hj⟩ := mem_iff_getElem?.1 hp
      refine ⟨j, ?_, hj⟩
      rintro rfl
      rw [hv] at hj
      exact hk (Option.some.inj hj ▸ rfl)
  · rename_i hn
    exact ⟨fun hp => ⟨hp, indexOf_eq_none.1 hn p hp⟩, And.left⟩

/-- **A removal changes one key.** -/
theorem valueFor_remove (t : Keyed cmp ν) (k k' : κ) [Decidable (k' = k)] :
    (t.remove k).valueFor k' = if k' = k then none else t.valueFor k' := by
  apply Option.ext
  intro w
  rw [valueFor_eq_some, mem_remove]
  split
  · rename_i hk
    simp [hk]
  · rename_i hk
    rw [valueFor_eq_some]
    exact ⟨And.left, fun h => ⟨h, hk⟩⟩

theorem perm_of_valueFor (h : t.valueFor k = some v) :
    t.items.Perm ((k, v) :: (t.remove k).items) := by
  obtain ⟨i, hi⟩ := mem_iff_getElem?.1 (valueFor_eq_some.1 h)
  obtain ⟨hlt, hget⟩ := List.getElem?_eq_some_iff.1 hi
  have hindex : t.indexOf k = some i := indexOf_eq_some.2 ⟨v, hi⟩
  have hrest : (t.remove k).items = t.items.eraseIdx i := by
    unfold remove
    rw [hindex]
    rfl
  rw [hrest, ← hget]
  exact (getElem_cons_eraseIdx_perm hlt).symm

theorem remove_of_none (h : t.valueFor k = none) : t.remove k = t := by
  unfold remove
  rw [indexOf_eq_none.2 (valueFor_eq_none.1 h)]

/-- **What an addition makes**: the item and the rest. -/
theorem perm_add (t : Keyed cmp ν) (k : κ) (v : ν) :
    (t.add k v).items.Perm ((k, v) :: (t.remove k).items) := by
  have hmem : ∀ p, p ∈ (t.add k v).items ↔ p ∈ (k, v) :: (t.remove k).items := by
    intro p
    rw [mem_add, mem_cons, mem_remove]
  have hnodup : ((k, v) :: (t.remove k).items).Nodup := by
    refine nodup_cons.2 ⟨fun hp => (mem_remove.1 hp).2 rfl, ?_⟩
    exact List.Nodup.of_map Prod.fst (t.remove k).nodup_keys
  exact (perm_ext_iff_of_nodup (List.Nodup.of_map Prod.fst (t.add k v).nodup_keys) hnodup).2 hmem

end Keyed

end OpenBinder.Lib
