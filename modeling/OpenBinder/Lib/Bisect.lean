import Mathlib.Data.Nat.Basic
import Mathlib.Tactic.Set

/-!
# Binary search at a cut

A search over the positions `0, …, n - 1` is driven by a verdict `c : ℕ → Ordering`:
`lt` sends it to the right, `gt` to the left, `eq` ends it. The verdicts form a
**cut** (`Cut`) when everything at or after a position that is not `lt` is `gt`,
which is what a strictly sorted table gives for any key.

* `bisect_spec`: on a cut the search returns the position of the only hit, or the
  position where a hit would have to be inserted.
* `bisect_eq_iff`: without a cut, a hit is returned exactly if the verdicts on the way lead to it.
* `leads_iff`: the way to a position, as the list of what is looked at (`met`).
-/

namespace OpenBinder.Lib

open Nat

/-- The verdicts of a strictly sorted table of length `n`: after a position that
is not `lt` everything is `gt`. -/
def Cut (c : ℕ → Ordering) (n : ℕ) : Prop :=
  ∀ i j, i < j → j < n → c i ≠ .lt → c j = .gt

/-- Binary search on the window `[low, high)` with the midpoint rounded down
within the closed window `[low, high - 1]`; `fuel` bounds the number of rounds. -/
def bisect (c : ℕ → Ordering) : ℕ → ℕ → ℕ → Bool × ℕ
  | 0, low, _ => (false, low)
  | fuel + 1, low, high =>
    if low < high then
      let mid := (low + (high - 1)) / 2
      match c mid with
      | .gt => bisect c fuel low mid
      | .lt => bisect c fuel (mid + 1) high
      | .eq => (true, mid)
    else (false, low)

variable {c : ℕ → Ordering} {n : ℕ}

variable {i : ℕ}

theorem Cut.lt_of_ne_gt (hc : Cut c n) {j : ℕ} (hij : i < j) (hj : j < n) (h : c j ≠ .gt) :
    c i = .lt := by
  by_contra hi
  exact h (hc i j hij hj hi)

/-- **The search within a window.** If everything below the window is `lt` and
everything above it is `gt`, the search ends at the hit or at the insertion point. -/
theorem bisect_window (hc : Cut c n) : ∀ fuel low high, high - low ≤ fuel → low ≤ high → high ≤ n →
    (∀ i, i < low → c i = .lt) → (∀ i, high ≤ i → i < n → c i = .gt) →
    (bisect c fuel low high).2 ≤ n ∧
      (∀ i, i < (bisect c fuel low high).2 → c i = .lt) ∧
      ((bisect c fuel low high).1 = true →
        (bisect c fuel low high).2 < n ∧ c (bisect c fuel low high).2 = .eq) ∧
      ((bisect c fuel low high).1 = false →
        ∀ i, (bisect c fuel low high).2 ≤ i → i < n → c i = .gt) := by
  intro fuel
  induction fuel with
  | zero =>
    intro low high hf hle hn hlo hhi
    have : low = high := by omega
    subst this
    exact ⟨hn, hlo, by simp [bisect], fun _ => hhi⟩
  | succ fuel ih =>
    intro low high hf hle hn hlo hhi
    unfold bisect
    by_cases hw : low < high
    · rw [if_pos hw]
      have hmid' : low ≤ (low + (high - 1)) / 2 := by omega
      set mid := (low + (high - 1)) / 2 with hm
      simp only
      cases hcm : c mid with
      | gt =>
        refine ih low mid (by omega) hmid' (by omega) hlo fun i hi hin => ?_
        rcases Nat.eq_or_lt_of_le hi with rfl | hlt
        · exact hcm
        · exact hc mid i hlt hin (by simp [hcm])
      | lt =>
        refine ih (mid + 1) high (by omega) (by omega) hn (fun i hi => ?_) hhi
        rcases Nat.eq_or_lt_of_le (Nat.lt_succ_iff.1 hi) with rfl | hlt
        · exact hcm
        · exact hc.lt_of_ne_gt hlt (by omega) (by simp [hcm])
      | eq =>
        simp only
        refine ⟨by omega, fun i hi => ?_, fun _ => ⟨by omega, hcm⟩, by simp⟩
        exact hc.lt_of_ne_gt hi (by omega) (by simp [hcm])
    · rw [if_neg hw]
      have : low = high := by omega
      subst this
      exact ⟨hn, hlo, by simp, fun _ => hhi⟩

/-- **Binary search is exact on a cut.** -/
theorem bisect_spec (hc : Cut c n) :
    (bisect c n 0 n).2 ≤ n ∧
      (∀ i, i < (bisect c n 0 n).2 → c i = .lt) ∧
      ((bisect c n 0 n).1 = true → (bisect c n 0 n).2 < n ∧ c (bisect c n 0 n).2 = .eq) ∧
      ((bisect c n 0 n).1 = false → ∀ i, (bisect c n 0 n).2 ≤ i → i < n → c i = .gt) :=
  bisect_window hc n 0 n (by omega) (zero_le n) (le_refl n) (by simp) (by omega)

/-- **The search ends by itself**: more rounds than there are positions change nothing. -/
theorem bisect_fuel (c : ℕ → Ordering) : ∀ fuel fuel' low high, high - low ≤ fuel →
    fuel ≤ fuel' → bisect c fuel' low high = bisect c fuel low high := by
  intro fuel
  induction fuel with
  | zero =>
    intro fuel' low high hf _
    cases fuel' with
    | zero => rfl
    | succ fuel' =>
      unfold bisect
      rw [if_neg (by omega)]
  | succ fuel ih =>
    intro fuel' low high hf hle
    obtain ⟨fuel', rfl⟩ : ∃ n, fuel' = n + 1 := ⟨fuel' - 1, by omega⟩
    unfold bisect
    by_cases hw : low < high
    · rw [if_pos hw, if_pos hw]
      simp only
      -- either side of the middle is shorter than the window
      rw [ih fuel' low _ (by omega) (by omega), ih fuel' _ high (by omega) (by omega)]
    · rw [if_neg hw, if_neg hw]

/-! ### Without a cut -/

/-- **The verdicts on the way to a position lead to it**: what is looked at in front of it is `lt`,
and what is looked at behind it is `gt`. -/
def Leads (c : ℕ → Ordering) (i : ℕ) : ℕ → ℕ → ℕ → Prop
  | 0, _, _ => False
  | fuel + 1, low, high =>
    let mid := (low + (high - 1)) / 2
    if mid < i then c mid = .lt ∧ Leads c i fuel (mid + 1) high
    else if i < mid then c mid = .gt ∧ Leads c i fuel low mid
    else True

/-- The search ends in its window, and at a hit if it says so. -/
theorem bisect_within : ∀ fuel low high, low ≤ high →
    low ≤ (bisect c fuel low high).2 ∧ (bisect c fuel low high).2 ≤ high ∧
      ((bisect c fuel low high).1 = true →
        (bisect c fuel low high).2 < high ∧ c (bisect c fuel low high).2 = .eq) := by
  intro fuel
  induction fuel with
  | zero =>
    intro low high hle
    exact ⟨le_refl low, hle, fun h => absurd h Bool.false_ne_true⟩
  | succ fuel ih =>
    intro low high hle
    unfold bisect
    by_cases hw : low < high
    · rw [if_pos hw]
      have hmid : (low + (high - 1)) / 2 < high := by omega
      have hmid' : low ≤ (low + (high - 1)) / 2 := by omega
      set mid := (low + (high - 1)) / 2
      simp only
      cases hcm : c mid with
      | gt =>
        obtain ⟨h1, h2, h3⟩ := ih low mid hmid'
        exact ⟨h1, le_trans h2 (le_of_lt hmid), fun h => ⟨lt_trans (h3 h).1 hmid, (h3 h).2⟩⟩
      | lt =>
        obtain ⟨h1, h2, h3⟩ := ih (mid + 1) high hmid
        exact ⟨le_trans (le_succ_of_le hmid') h1, h2, h3⟩
      | eq => exact ⟨hmid', le_of_lt hmid, fun _ => ⟨hmid, hcm⟩⟩
    · rw [if_neg hw]
      exact ⟨le_refl low, hle, fun h => absurd h Bool.false_ne_true⟩

theorem bisect_hit (h : bisect c n 0 n = (true, i)) : i < n ∧ c i = .eq := by
  have hw := (@bisect_within c n 0 n (zero_le n)).2.2
  rw [h] at hw
  exact hw rfl

/-- **When a hit is found.** -/
theorem bisect_eq_iff (hi : c i = .eq) : ∀ fuel low high, high - low ≤ fuel → low ≤ i →
    i < high → (bisect c fuel low high = (true, i) ↔ Leads c i fuel low high) := by
  intro fuel
  induction fuel with
  | zero =>
    intro low high hf hlo hhi
    omega
  | succ fuel ih =>
    intro low high hf hlo hhi
    unfold bisect Leads
    rw [if_pos (show low < high by omega)]
    have hmid : (low + (high - 1)) / 2 < high := by omega
    have hmid' : low ≤ (low + (high - 1)) / 2 := by omega
    set mid := (low + (high - 1)) / 2
    simp only
    rcases lt_trichotomy mid i with hlt | heq | hgt
    · rw [if_pos hlt]
      cases hcm : c mid with
      | lt => simpa using ih (mid + 1) high (by omega) hlt hhi
      | eq => simp [Nat.ne_of_lt hlt]
      | gt =>
        -- the search stays in front of the hit
        have hbelow := (bisect_within (c := c) fuel low mid hmid').2.1
        simp only [reduceCtorEq, false_and, iff_false]
        intro h
        rw [h] at hbelow
        omega
    · subst heq
      rw [hi]
      simp
    · rw [if_neg (by omega), if_pos hgt]
      cases hcm : c mid with
      | gt => simpa using ih low mid (by omega) hlo hgt
      | eq => simp [ne_of_gt hgt]
      | lt =>
        -- the search stays behind the hit
        have habove := (bisect_within (c := c) fuel (mid + 1) high hmid).1
        simp only [reduceCtorEq, false_and, iff_false]
        intro h
        rw [h] at habove
        omega

/-- The positions that a search looks at on its way to a position. -/
def met (i : ℕ) : ℕ → ℕ → ℕ → List ℕ
  | 0, _, _ => []
  | fuel + 1, low, high =>
    let mid := (low + (high - 1)) / 2
    if mid < i then mid :: met i fuel (mid + 1) high
    else if i < mid then mid :: met i fuel low mid
    else []

/-- **The verdicts lead to a position** exactly if they do at each position on the way. -/
theorem leads_iff : ∀ fuel low high, high - low ≤ fuel → low ≤ i → i < high →
    (Leads c i fuel low high ↔
      ∀ j ∈ met i fuel low high, (j < i → c j = .lt) ∧ (i < j → c j = .gt)) := by
  intro fuel
  induction fuel with
  | zero =>
    intro low high hf hlo hhi
    omega
  | succ fuel ih =>
    intro low high hf hlo hhi
    unfold Leads met
    set mid := (low + (high - 1)) / 2
    rcases lt_trichotomy mid i with hlt | heq | hgt
    · rw [if_pos hlt, if_pos hlt, ih (mid + 1) high (by omega) hlt hhi, List.forall_mem_cons]
      exact and_congr_left' ⟨fun h => ⟨fun _ => h, fun h' => by omega⟩, fun h => h.1 hlt⟩
    · rw [if_neg (by omega), if_neg (by omega), if_neg (by omega), if_neg (by omega)]
      simp
    · rw [if_neg (by omega), if_pos hgt, if_neg (by omega), if_pos hgt,
        ih low mid (by omega) hlo hgt, List.forall_mem_cons]
      exact and_congr_left' ⟨fun h => ⟨fun h' => by omega, fun _ => h⟩, fun h => h.2 hgt⟩

end OpenBinder.Lib
