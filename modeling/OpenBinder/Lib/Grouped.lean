import Mathlib.Data.List.Induction
import OpenBinder.Lib.Keyed

/-!
# Values grouped by key

Values are put into a table one after the other, each under its key. The first one of a key is the
value of the key, and every later one is merged into it.

* `Keyed.merge`: one value is put into the table.
* `Keyed.given`, `Keyed.merged`: the values of a key, and what they are merged to.
* `Keyed.valueFor_group`: what is under a key after all.

A table of lists has many values of a key.

* `Keyed.entries`: the values, each with its key.
* `Keyed.entries_add`, `Keyed.entries_remove`: what a change does to them.
-/

namespace OpenBinder.Lib

namespace Keyed

variable {κ ν : Type} {cmp : κ → κ → Ordering}

/-- Values merged one after the other, from the first one on. -/
def merged (f : ν → ν → ν) : List ν → Option ν
  | [] => none
  | v :: rest => some (rest.foldl f v)

@[simp] theorem merged_eq_none {f : ν → ν → ν} {l : List ν} : merged f l = none ↔ l = [] := by
  cases l <;> simp [merged]

theorem merged_append (f : ν → ν → ν) (l : List ν) (v : ν) :
    merged f (l ++ [v]) = some (match merged f l with
      | some w => f w v
      | none => v) := by
  cases l with
  | nil => rfl
  | cons w rest => simp [merged]

/-- The values of a table of lists, each with its key. -/
def entries (t : Keyed cmp (List ν)) : List (κ × ν) := t.items.flatMap fun p => p.2.map (p.1, ·)

theorem mem_entries {t : Keyed cmp (List ν)} {e : κ × ν} :
    e ∈ t.entries ↔ ∃ l, (e.1, l) ∈ t.items ∧ e.2 ∈ l := by
  unfold entries
  rw [List.mem_flatMap]
  constructor
  · rintro ⟨p, hp, he⟩
    obtain ⟨v, hv, rfl⟩ := List.mem_map.1 he
    exact ⟨p.2, hp, hv⟩
  · rintro ⟨l, hp, he⟩
    exact ⟨(e.1, l), hp, List.mem_map.2 ⟨e.2, he, rfl⟩⟩

/-- The values that a key is given. -/
def given [DecidableEq κ] (l : List (κ × ν)) (k : κ) : List ν :=
  (l.filter (·.1 = k)).map Prod.snd

theorem given_append [DecidableEq κ] (l l' : List (κ × ν)) (k : κ) :
    given (l ++ l') k = given l k ++ given l' k := by
  simp [given]

variable [Std.TransCmp cmp] [Std.LawfulEqCmp cmp]

/-- The value is put under its key, or merged into the one that is there. -/
def merge (f : ν → ν → ν) (t : Keyed cmp ν) (p : κ × ν) : Keyed cmp ν :=
  match t.valueFor p.1 with
  | some w => t.add p.1 (f w p.2)
  | none => t.add p.1 p.2

/-- The values of a list, grouped. -/
def group (f : ν → ν → ν) (l : List (κ × ν)) : Keyed cmp ν := l.foldl (merge f) empty

theorem group_append (f : ν → ν → ν) (l : List (κ × ν)) (p : κ × ν) :
    (group f (l ++ [p]) : Keyed cmp ν) = merge f (group f l) p := List.foldl_concat ..

theorem valueFor_merge [DecidableEq κ] (f : ν → ν → ν) (t : Keyed cmp ν) (p : κ × ν) (k : κ) :
    (merge f t p).valueFor k = if k = p.1 then some (match t.valueFor p.1 with
      | some w => f w p.2
      | none => p.2) else t.valueFor k := by
  unfold merge
  cases t.valueFor p.1 with
  | some w => exact valueFor_add t p.1 k (f w p.2)
  | none => exact valueFor_add t p.1 k p.2

/-- **What a key has** is all that it was given, merged. -/
theorem valueFor_group [DecidableEq κ] (f : ν → ν → ν) (l : List (κ × ν)) (k : κ) :
    (group f l : Keyed cmp ν).valueFor k = merged f (given l k) := by
  induction l using List.reverseRecOn with
  | nil => exact valueFor_eq_none.2 fun _ hp => absurd hp List.not_mem_nil
  | append_singleton l p ih =>
    rw [group_append, valueFor_merge, given_append]
    by_cases hk : k = p.1
    · subst hk
      rw [if_pos rfl, ih]
      simp [given, merged_append]
    · rw [if_neg hk, ih]
      simp [given, Ne.symm hk]

/-! ### Tables of lists -/

theorem perm_entries (t : Keyed cmp (List ν)) (k : κ) :
    t.entries.Perm (((t.valueFor k).getD []).map (k, ·) ++ (t.remove k).entries) := by
  cases h : t.valueFor k with
  | none => rw [remove_of_none h]; exact .refl _
  | some l => exact (perm_of_valueFor h).flatMap_right _

theorem ne_of_mem_remove {t : Keyed cmp (List ν)} {k : κ} {e : κ × ν}
    (h : e ∈ (t.remove k).entries) : e.1 ≠ k := by
  obtain ⟨l, hl, -⟩ := mem_entries.1 h
  exact (mem_remove.1 hl).2

/-- **Other values for a key.** -/
theorem entries_add (t : Keyed cmp (List ν)) (k : κ) (l : List ν) :
    (t.add k l).entries.Perm (l.map (k, ·) ++ (t.remove k).entries) :=
  (perm_add t k l).flatMap_right _

end Keyed

end OpenBinder.Lib
