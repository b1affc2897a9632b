import Mathlib.Order.Lattice
import Mathlib.Data.List.Pairwise

/-!
# Sorted chains

A chain of a hash table, as a list of keys with values, the largest key first. Operations walk
over the keys that are larger and then look at the next one only. On a chain without equal keys
they do what they do to a finite map.
-/

namespace OpenBinder.Lib

open List

variable {K V : Type*} [LinearOrder K]

/-- The value of a key. -/
def chainFind (k : K) : List (K × V) → Option V
  | [] => none
  | e :: l => if k < e.1 then chainFind k l else if k = e.1 then some e.2 else none

/-- A key put in front of those that are not larger. -/
def chainInsert (k : K) (v : V) : List (K × V) → List (K × V)
  | [] => [(k, v)]
  | e :: l => if k < e.1 then e :: chainInsert k v l else (k, v) :: e :: l

/-- A key taken out. -/
def chainErase (k : K) : List (K × V) → List (K × V)
  | [] => []
  | e :: l => if k < e.1 then e :: chainErase k l else if k = e.1 then l else e :: l

/-- The keys go down. -/
def Sorted (l : List (K × V)) : Prop := l.Pairwise fun e e' => e'.1 < e.1

variable {l : List (K × V)} {k : K}

/-- **Looking up** a key of a sorted chain. -/
theorem chainFind_iff (h : Sorted l) {v : V} :
    chainFind k l = some v ↔ (k, v) ∈ l := by
  induction l with
  | nil => simp [chainFind]
  | cons e l ih =>
    obtain ⟨hlt, hl⟩ := pairwise_cons.1 h
    rw [chainFind, mem_cons]
    by_cases hk : k < e.1
    · rw [if_pos hk, ih hl]
      refine ⟨.inr, fun hm => hm.resolve_left ?_⟩
      rintro rfl
      exact lt_irrefl _ hk
    · rw [if_neg hk]
      have hnot : (k, v) ∉ l := fun hm => hk (hlt _ hm)
      by_cases he : k = e.1
      · rw [if_pos he, Option.some.injEq]
        constructor
        · rintro rfl
          exact .inl (Prod.ext he rfl)
        · intro hm
          rw [← hm.resolve_right hnot]
      · rw [if_neg he]
        refine ⟨fun hm => (by cases hm), fun hm => absurd ?_ he⟩
        rw [← hm.resolve_right hnot]

theorem chainFind_eq_none (h : Sorted l) (hk : chainFind k l = none) (v : V) :
    (k, v) ∉ l := fun hm => by
  rw [(chainFind_iff h).2 hm] at hk
  cases hk

theorem mem_chainInsert {v : V} {e : K × V} :
    e ∈ chainInsert k v l ↔ e = (k, v) ∨ e ∈ l := by
  induction l with
  | nil => simp [chainInsert]
  | cons e' l ih =>
    rw [chainInsert]
    split
    · rw [mem_cons, ih, mem_cons]
      exact or_left_comm
    · rw [mem_cons]

/-- **A key that is not there** is put where it belongs. -/
theorem Sorted.insert (h : Sorted l) {v : V} (hk : ∀ v, (k, v) ∉ l) :
    Sorted (chainInsert k v l) := by
  induction l with
  | nil => exact pairwise_singleton _ _
  | cons e l ih =>
    obtain ⟨hlt, hl⟩ := pairwise_cons.1 h
    rw [chainInsert]
    split
    · rename_i hke
      refine pairwise_cons.2 ⟨fun e' he' => ?_, ih hl fun v hv => hk v (mem_cons_of_mem _ hv)⟩
      rcases mem_chainInsert.1 he' with rfl | he'
      · exact hke
      · exact hlt e' he'
    · rename_i hke
      have hne : k ≠ e.1 := fun he => hk e.2 (by rw [he]; exact mem_cons_self)
      have hlt' : e.1 < k := lt_of_le_of_ne (not_lt.1 hke) hne.symm
      refine pairwise_cons.2 ⟨fun e' he' => ?_, h⟩
      rcases mem_cons.1 he' with rfl | he'
      · exact hlt'
      · exact (hlt e' he').trans hlt'

theorem chainErase_sublist (k : K) (l : List (K × V)) : (chainErase k l).Sublist l := by
  induction l with
  | nil => exact List.Sublist.slnil
  | cons e l ih =>
    rw [chainErase]
    split
    · exact ih.cons_cons e
    · split
      · exact sublist_cons_self e l
      · exact List.Sublist.refl _

theorem Sorted.erase (h : Sorted l) (k : K) : Sorted (chainErase k l) :=
  h.sublist (chainErase_sublist k l)

/-- **The other keys stay.** -/
theorem mem_chainErase (h : Sorted l) {e : K × V} :
    e ∈ chainErase k l ↔ e ∈ l ∧ e.1 ≠ k := by
  induction l with
  | nil => simp [chainErase]
  | cons e' l ih =>
    obtain ⟨hlt, hl⟩ := pairwise_cons.1 h
    rw [chainErase]
    by_cases hk : k < e'.1
    · rw [if_pos hk, mem_cons, mem_cons, ih hl]
      constructor
      · rintro (rfl | ⟨h1, h2⟩)
        · exact ⟨.inl rfl, hk.ne'⟩
        · exact ⟨.inr h1, h2⟩
      · rintro ⟨rfl | h1, h2⟩
        · exact .inl rfl
        · exact .inr ⟨h1, h2⟩
    · rw [if_neg hk]
      have hne : ∀ e ∈ l, e.1 ≠ k := fun e he heq => hk (heq ▸ hlt e he)
      by_cases he : k = e'.1
      · rw [if_pos he, mem_cons]
        constructor
        · intro hm
          exact ⟨.inr hm, hne e hm⟩
        · rintro ⟨rfl | hm, h2⟩
          · exact absurd he.symm h2
          · exact hm
      · rw [if_neg he, mem_cons]
        refine ⟨fun hm => ⟨hm, ?_⟩, fun hm => hm.1⟩
        rcases hm with rfl | hm
        · exact fun heq => he heq.symm
        · exact hne e hm

end OpenBinder.Lib
