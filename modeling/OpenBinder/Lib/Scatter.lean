import Mathlib.Algebra.Ring.Nat
import Mathlib.Data.List.Basic

/-!
# Scattering a list

`fill` gives the elements of a list out to parts of the given lengths, one after the other, as
long as there are any.

* `sum_fill`: how many the parts get.
* `share`: how many each part gets, as numbers.
-/

namespace OpenBinder.Lib

variable {α : Type}

/-- The parts: as long as asked for, until there is nothing left. -/
def fill : List ℕ → List α → List (List α)
  | [], _ => []
  | _ :: _, [] => []
  | len :: vector, b :: bytes => (b :: bytes).take len :: fill vector ((b :: bytes).drop len)

theorem fill_cons (len : ℕ) (vector : List ℕ) {bytes : List α} (h : bytes ≠ []) :
    fill (len :: vector) bytes = bytes.take len :: fill vector (bytes.drop len) := by
  cases bytes with
  | nil => exact absurd rfl h
  | cons b bytes => rfl

@[simp] theorem fill_nil (vector : List ℕ) : fill vector ([] : List α) = [] := by
  cases vector <;> rfl

/-- **How much the parts get.** -/
theorem sum_fill (vector : List ℕ) : ∀ bytes : List α,
    ((fill vector bytes).map List.length).sum = min vector.sum bytes.length := by
  induction vector with
  | nil => intro bytes; simp [fill]
  | cons len vector ih =>
    intro bytes
    by_cases hnil : bytes = []
    · subst hnil
      simp
    · rw [fill_cons _ _ hnil, List.map_cons, List.sum_cons, ih, List.length_take,
        List.length_drop, List.sum_cons]
      omega

/-- How many of `n` elements each part gets, one part after the other. -/
def share : List ℕ → ℕ → List ℕ
  | [], _ => []
  | len :: vector, n => min len n :: share vector (n - len)

theorem sum_share (vector : List ℕ) : ∀ n, (share vector n).sum = min n vector.sum := by
  induction vector with
  | nil => intro n; simp [share]
  | cons len vector ih =>
    intro n
    rw [share, List.sum_cons, ih, List.sum_cons]
    omega

theorem share_zero (vector : List ℕ) : share vector 0 = vector.map fun _ => 0 := by
  induction vector with
  | nil => rfl
  | cons len vector ih => rw [share, Nat.min_zero, Nat.zero_sub, ih, List.map_cons]

theorem share_of_le {vector : List ℕ} : ∀ {n : ℕ}, vector.sum ≤ n → share vector n = vector := by
  induction vector with
  | nil => intro n _; rfl
  | cons len vector ih =>
    intro n h
    rw [List.sum_cons] at h
    rw [share, ih (by omega), min_eq_left (by omega)]

end OpenBinder.Lib
