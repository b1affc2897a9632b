import Mathlib.Order.Nat
import Mathlib.Tactic.Common
import Mathlib.Data.Int.Order.Basic

/-!
# Searching with a failure table

The method of Knuth, Morris and Pratt for a pattern `p` of `m` symbols, given by its symbols: where
symbol `i` of the pattern is not the one in the text, the search goes on with symbol `next i`, the
longest border of the first `i` symbols that goes on with another symbol.

* `Building`: what holds between two steps of the loop that fills the table, with `Building.start`,
  `Building.match` and `Building.fall` for its start and its two branches.
* `Scanning`: the same for the loop over the text. `Scanning.found` and `Scanning.over` are its ends.
-/

namespace OpenBinder.Lib.Kmp

variable {α : Type*} {p s : ℕ → α} {next : ℕ → ℤ} {a b i m n o ii : ℕ} {j jj f : ℤ}

/-- The first `b` symbols of the pattern, fewer than `i`, are also the last of its first `i`. -/
def Border (p : ℕ → α) (b i : ℕ) : Prop := b < i ∧ ∀ t < b, p t = p (i - b + t)

theorem Border.trans (h : Border p a b) (h' : Border p b i) : Border p a i := by
  refine ⟨lt_trans h.1 h'.1, fun t ht => ?_⟩
  rw [h.2 t ht, h'.2 (b - a + t) (by have := h.1; omega)]
  congr 1
  have := h.1
  have := h'.1
  omega

theorem Border.of_lt (h : Border p a i) (h' : Border p b i) (hab : a < b) : Border p a b := by
  refine ⟨hab, fun t ht => ?_⟩
  rw [h.2 t ht, h'.2 (b - a + t) (by omega)]
  congr 1
  have := h'.1
  omega

theorem border_succ : Border p (b + 1) (i + 1) ↔ Border p b i ∧ p b = p i := by
  constructor
  · intro h
    have hlt := h.1
    refine ⟨⟨by omega, fun t ht => ?_⟩, ?_⟩
    · rw [h.2 t (by omega)]
      congr 1
      omega
    · rw [h.2 b (by omega)]
      congr 1
      omega
  · rintro ⟨h, hbi⟩
    have hlt := h.1
    refine ⟨by omega, fun t ht => ?_⟩
    rcases Nat.lt_succ_iff_lt_or_eq.1 ht with ht | rfl
    · rw [h.2 t ht]
      congr 1
      omega
    · rw [hbi]
      congr 1
      omega

/-- Where the search goes on when symbol `i` is not the right one. -/
structure IsNext (p : ℕ → α) (i : ℕ) (f : ℤ) : Prop where
  most : ∀ b, Border p b i → p b ≠ p i → (b : ℤ) ≤ f
  border : f = -1 ∨ ∃ b : ℕ, f = b ∧ Border p b i ∧ p b ≠ p i

theorem IsNext.lt (h : IsNext p i f) : f < i := by
  rcases h.border with rfl | ⟨b, rfl, hb, -⟩
  · omega
  · exact_mod_cast hb.1

theorem IsNext.le (h : IsNext p i f) : -1 ≤ f := by
  rcases h.border with rfl | ⟨b, rfl, -, -⟩ <;> omega

theorem isNext_zero : IsNext p 0 (-1) :=
  ⟨fun _ h _ => absurd h.1 (Nat.not_lt_zero _), .inl rfl⟩

/-- **An entry from the longest border**: the border itself, or where it goes on with the same symbol
its own entry. -/
theorem IsNext.of_longest (hb : Border p b i) (hmost : ∀ a, Border p a i → a ≤ b)
    (hnext : IsNext p b f) [Decidable (p b = p i)] :
    IsNext p i (if p b = p i then f else (b : ℤ)) := by
  by_cases heq : p b = p i
  · rw [if_pos heq]
    constructor
    · intro a ha hne
      -- a border with another symbol is not the longest one, so it is a border of that
      have hab : a < b := lt_of_le_of_ne (hmost a ha) (by rintro rfl; exact hne heq)
      exact hnext.most a (ha.of_lt hb hab) (heq ▸ hne)
    · rcases hnext.border with hf | ⟨a, hf, ha, hne⟩
      · exact .inl hf
      · exact .inr ⟨a, hf, ha.trans hb, heq ▸ hne⟩
  · rw [if_neg heq]
    exact ⟨fun a ha _ => by exact_mod_cast hmost a ha, .inr ⟨b, rfl, hb, heq⟩⟩

/-! ### The table -/

/-- The table is filled up to `i`, and `j` is the longest border that can still be that of `i + 1`
without its last symbol. -/
structure Building (p : ℕ → α) (next : ℕ → ℤ) (i : ℕ) (j : ℤ) : Prop where
  table : ∀ k ≤ i, IsNext p k (next k)
  border : j = -1 ∨ ∃ b : ℕ, j = b ∧ Border p b i
  most : ∀ b, Border p b i → p b = p i → (b : ℤ) ≤ j

theorem Building.start (h0 : next 0 = -1) : Building p next 0 (-1) where
  table k hk := by
    rw [Nat.le_zero.1 hk, h0]
    exact isNext_zero
  border := .inl rfl
  most _ h _ := absurd h.1 (Nat.not_lt_zero _)

section

variable (h : Building p next i j)
include h

theorem Building.lt : j < i := by
  rcases h.border with rfl | ⟨b, rfl, hb⟩
  · omega
  · exact_mod_cast hb.1

theorem Building.le : -1 ≤ j := by
  rcases h.border with rfl | ⟨b, rfl, -⟩ <;> omega

/-- One symbol more is in the border. -/
theorem Building.match [DecidableEq α] (hj : j = -1 ∨ p i = p j.toNat) :
    Building p (Function.update next (i + 1)
      (if p (j + 1).toNat = p (i + 1) then next (j + 1).toNat else j + 1)) (i + 1) (j + 1) := by
  obtain ⟨b, hb⟩ : ∃ b : ℕ, j + 1 = b := ⟨(j + 1).toNat, by have := h.le; omega⟩
  have hlt := h.lt
  have hborder : Border p b (i + 1) := by
    rcases h.border with rfl | ⟨c, rfl, hc⟩
    · obtain rfl : b = 0 := by omega
      exact ⟨Nat.succ_pos i, fun t ht => absurd ht (Nat.not_lt_zero t)⟩
    · obtain rfl : b = c + 1 := by omega
      rcases hj with hj | hj
      · omega
      · exact border_succ.2 ⟨hc, by simpa using hj.symm⟩
  have hmost : ∀ a, Border p a (i + 1) → a ≤ b := by
    intro a ha
    cases a with
    | zero => exact Nat.zero_le b
    | succ a =>
      have ha := border_succ.1 ha
      have := h.most a ha.1 ha.2
      omega
  rw [hb, Int.toNat_natCast]
  refine ⟨fun k hk => ?_, .inr ⟨b, rfl, hborder⟩, fun a ha _ => by exact_mod_cast hmost a ha⟩
  rcases Nat.lt_or_eq_of_le hk with hk | rfl
  · rw [Function.update_of_ne (by omega)]
    exact h.table k (by omega)
  · rw [Function.update_self]
    exact .of_longest hborder hmost (h.table b (by omega))

/-- The border does not go on, and the next shorter one is tried. -/
theorem Building.fall (hj : j ≠ -1) (hne : p i ≠ p j.toNat) : Building p next i (next j.toNat) := by
  rcases h.border with hj' | ⟨b, rfl, hb⟩
  · exact absurd hj' hj
  rw [Int.toNat_natCast] at hne ⊢
  have hnext := h.table b hb.1.le
  refine ⟨h.table, ?_, fun a ha heq => ?_⟩
  · rcases hnext.border with hf | ⟨c, hf, hc, -⟩
    · exact .inl hf
    · exact .inr ⟨c, hf, hc.trans hb⟩
  · have hle : a ≤ b := by exact_mod_cast h.most a ha heq
    have hab : a < b := lt_of_le_of_ne hle (by rintro rfl; exact hne heq.symm)
    exact hnext.most a (ha.of_lt hb hab) (fun h => hne (heq.symm.trans h))

/-- The measure that makes the loops end: falling back shortens the border. -/
theorem Building.fall_lt (hj : j ≠ -1) : next j.toNat < j := by
  rcases h.border with hj' | ⟨b, rfl, hb⟩
  · exact absurd hj' hj
  rw [Int.toNat_natCast]
  exact (h.table b hb.1.le).lt

end

/-! ### The text -/

/-- The pattern is in the text at a position. -/
def Matches (p : ℕ → α) (m : ℕ) (s : ℕ → α) (k : ℕ) : Prop := ∀ t < m, p t = s (k + t)

/-- The first `jj` symbols of the pattern are in front of `ii`, and no match begins before them. -/
structure Scanning (p : ℕ → α) (m : ℕ) (s : ℕ → α) (o ii : ℕ) (jj : ℤ) : Prop where
  border : jj = -1 ∧ o ≤ ii ∨ ∃ b : ℕ, jj = b ∧ b < m ∧ o + b ≤ ii ∧ ∀ t < b, p t = s (ii - b + t)
  least : ∀ k, o ≤ k → Matches p m s k → (ii : ℤ) - jj ≤ k

theorem Scanning.start (hm : 0 < m) : Scanning p m s o o 0 where
  border := .inr ⟨0, rfl, hm, le_rfl, fun t ht => absurd ht (Nat.not_lt_zero t)⟩
  least k hk _ := by omega

section

variable (h : Scanning p m s o ii jj)
include h

theorem Scanning.lt (hm : 0 < m) : jj < m := by
  rcases h.border with ⟨rfl, -⟩ | ⟨b, rfl, hb, -⟩ <;> omega

theorem Scanning.le : -1 ≤ jj := by
  rcases h.border with ⟨rfl, -⟩ | ⟨b, rfl, -⟩ <;> omega

theorem Scanning.symbol (hj : jj = -1 ∨ p jj.toNat = s ii) :
    ∃ b : ℕ, jj + 1 = b ∧ o + b ≤ ii + 1 ∧ ∀ t < b, p t = s (ii + 1 - b + t) := by
  rcases h.border with ⟨rfl, hle⟩ | ⟨b, rfl, -, hle, hb⟩
  · exact ⟨0, rfl, by omega, fun t ht => absurd ht (Nat.not_lt_zero t)⟩
  · refine ⟨b + 1, by omega, by omega, fun t ht => ?_⟩
    rcases Nat.lt_succ_iff_lt_or_eq.1 ht with ht | rfl
    · rw [hb t ht]
      congr 1
      omega
    · rcases hj with hj | hj
      · omega
      · rw [Int.toNat_natCast] at hj
        rw [hj]
        congr 1
        omega

theorem Scanning.match (hj : jj = -1 ∨ p jj.toNat = s ii) (hlt : jj + 1 < m) :
    Scanning p m s o (ii + 1) (jj + 1) := by
  obtain ⟨b, hb, hle, hmatch⟩ := h.symbol hj
  refine ⟨.inr ⟨b, hb, by omega, hle, hmatch⟩, fun k hk hmk => ?_⟩
  have := h.least k hk hmk
  omega

/-- **The last symbol is matched**: the match is the first one. -/
theorem Scanning.found (hm : 0 < m) (hj : jj = -1 ∨ p jj.toNat = s ii) (hge : (m : ℤ) ≤ jj + 1) :
    ∃ k : ℕ, (ii : ℤ) + 1 - (jj + 1) = k ∧ o ≤ k ∧ Matches p m s k ∧
      ∀ k', o ≤ k' → Matches p m s k' → k ≤ k' := by
  obtain ⟨b, hb, hle, hmatch⟩ := h.symbol hj
  have hlt := h.lt hm
  obtain rfl : b = m := by omega
  refine ⟨ii + 1 - b, by omega, by omega, hmatch, fun k' hk' hmk' => ?_⟩
  have := h.least k' hk' hmk'
  omega

/-- The symbol is not the right one, and the border of the table is tried. -/
theorem Scanning.fall (htable : ∀ k < m, IsNext p k (next k)) (hj : jj ≠ -1)
    (hne : p jj.toNat ≠ s ii) : Scanning p m s o ii (next jj.toNat) := by
  rcases h.border with ⟨hj', -⟩ | ⟨b, rfl, hbm, hle, hb⟩
  · exact absurd hj' hj
  rw [Int.toNat_natCast] at hne ⊢
  have hnext := htable b hbm
  constructor
  · rcases hnext.border with hf | ⟨c, hf, hc, -⟩
    · exact .inl ⟨hf, by omega⟩
    · have hcb := hc.1
      refine .inr ⟨c, hf, by omega, by omega, fun t ht => ?_⟩
      rw [hc.2 t ht, hb (b - c + t) (by omega)]
      congr 1
      omega
  · intro k hk hmk
    by_contra hlt
    have hge := h.least k hk hmk
    have hf1 := hnext.le
    -- a match between begins with a border of what is matched, which goes on with another symbol
    have hborder : Border p (ii - k) b ∨ ii - k = b := by
      rcases Nat.lt_or_ge (ii - k) b with hkb | hkb
      · refine .inl ⟨hkb, fun t ht => ?_⟩
        rw [hmk t (by omega), hb (b - (ii - k) + t) (by omega)]
        congr 1
        omega
      · exact .inr (by omega)
    have hat : p (ii - k) = s ii := by
      rw [hmk (ii - k) (by omega)]
      congr 1
      omega
    rcases hborder with hborder | heq
    · have := hnext.most (ii - k) hborder (fun h => hne (h ▸ hat))
      omega
    · exact hne (heq ▸ hat)

/-- **The text is over**: there is no match in it. -/
theorem Scanning.over (hm : 0 < m) (hn : n ≤ ii) {k : ℕ} (hk : o ≤ k) (hkn : k + m ≤ n) :
    ¬ Matches p m s k := by
  intro hmk
  have h1 := h.least k hk hmk
  have h2 := h.lt hm
  omega

end

end OpenBinder.Lib.Kmp
