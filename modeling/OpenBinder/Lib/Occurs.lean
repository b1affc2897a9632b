import Mathlib.Data.List.Infix
import Mathlib.Data.Int.Order.Basic

/-!
# Where a pattern occurs in a list

* `OccursAt`: a list is in another one at a position.
* `IsFirst`, `IsLast`: what a search forwards from an offset, or backwards from a limit, is to give:
  the least or the greatest position, or `-1` where there is none.
-/

namespace OpenBinder.Lib

variable {α : Type*} {p s : List α} {k o : ℕ} {r r' limit : ℤ}

/-- A pattern is in a list at a position. -/
def OccursAt (p s : List α) (k : ℕ) : Prop := p <+: s.drop k

theorem occursAt_iff : OccursAt p s k ↔ ∀ t < p.length, p[t]? = s[k + t]? := by
  rw [OccursAt, List.prefix_iff_getElem?]
  simp only [List.getElem?_drop]
  constructor
  · intro h t ht
    rw [h t ht, List.getElem?_eq_getElem ht]
  · intro h t ht
    rw [← h t ht, List.getElem?_eq_getElem ht]

theorem OccursAt.add_le (h : OccursAt p s k) (hp : p ≠ []) : k + p.length ≤ s.length := by
  have hle := h.length_le
  have hpos := List.length_pos_of_ne_nil hp
  rw [List.length_drop] at hle
  omega

/-- The result of a search for the first occurrence at or after an offset. -/
def IsFirst (p s : List α) (o : ℕ) (r : ℤ) : Prop :=
  (∃ k : ℕ, r = k ∧ o ≤ k ∧ OccursAt p s k ∧ ∀ j, o ≤ j → OccursAt p s j → k ≤ j) ∨
    r = -1 ∧ ∀ j, o ≤ j → ¬ OccursAt p s j

/-- The result of a search for the last occurrence that ends at or before a limit. -/
def IsLast (p s : List α) (limit : ℤ) (r : ℤ) : Prop :=
  (∃ k : ℕ, r = k ∧ k + p.length ≤ limit ∧ OccursAt p s k ∧
      ∀ j : ℕ, j + p.length ≤ limit → OccursAt p s j → j ≤ k) ∨
    r = -1 ∧ ∀ j : ℕ, j + p.length ≤ limit → ¬ OccursAt p s j

theorem IsFirst.unique (h : IsFirst p s o r) (h' : IsFirst p s o r') : r = r' := by
  rcases h with ⟨k, rfl, hok, hk, hleast⟩ | ⟨rfl, hnone⟩
  · rcases h' with ⟨k', rfl, hok', hk', hleast'⟩ | ⟨-, hnone'⟩
    · have h1 := hleast k' hok' hk'
      have h2 := hleast' k hok hk
      omega
    · exact absurd hk (hnone' k hok)
  · rcases h' with ⟨k', -, hok', hk', -⟩ | ⟨rfl, -⟩
    · exact absurd hk' (hnone k' hok')
    · rfl

theorem IsLast.unique (h : IsLast p s limit r) (h' : IsLast p s limit r') : r = r' := by
  rcases h with ⟨k, rfl, hok, hk, hmost⟩ | ⟨rfl, hnone⟩
  · rcases h' with ⟨k', rfl, hok', hk', hmost'⟩ | ⟨-, hnone'⟩
    · have h1 := hmost k' hok' hk'
      have h2 := hmost' k hok hk
      omega
    · exact absurd hk (hnone' k hok)
  · rcases h' with ⟨k', -, hok', hk', -⟩ | ⟨rfl, -⟩
    · exact absurd hk' (hnone k' hok')
    · rfl

end OpenBinder.Lib
