import Mathlib.Data.List.Basic

/-!
# Overwriting a part of a list

`overwrite l i xs` is the list `l` with `xs` put over the elements from position `i` on.

* `getElem?_overwrite`: what is then at a position.
-/

namespace OpenBinder.Lib

variable {α : Type}

/-- The list with others put over its elements from a position on. -/
def overwrite (l : List α) (i : ℕ) (xs : List α) : List α :=
  l.take i ++ (xs ++ l.drop (i + xs.length))

theorem length_overwrite {l xs : List α} {i : ℕ} (h : i + xs.length ≤ l.length) :
    (overwrite l i xs).length = l.length := by
  simp only [overwrite, List.length_append, List.length_take, List.length_drop]
  omega

/-- **What is at a position** after overwriting. -/
theorem getElem?_overwrite {l xs : List α} {i : ℕ} (h : i + xs.length ≤ l.length) (j : ℕ) :
    (overwrite l i xs)[j]? = if i ≤ j ∧ j < i + xs.length then xs[j - i]? else l[j]? := by
  have htake : (l.take i).length = i := by
    rw [List.length_take]; omega
  unfold overwrite
  by_cases h1 : j < i
  · rw [List.getElem?_append_left (by omega), List.getElem?_take, if_pos h1, if_neg (by omega)]
  · rw [List.getElem?_append_right (by omega), htake]
    by_cases h2 : j < i + xs.length
    · rw [List.getElem?_append_left (by omega), if_pos ⟨by omega, h2⟩]
    · rw [List.getElem?_append_right (by omega), List.getElem?_drop, if_neg (by omega)]
      congr 1
      omega

end OpenBinder.Lib
