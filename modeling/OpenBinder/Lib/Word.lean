import Mathlib.Data.Int.Order.Basic
import Mathlib.Data.List.Basic
import Mathlib.Algebra.Ring.Nat
import Mathlib.Algebra.Ring.Int.Defs

/-!
# Words in memory

Little-endian 32-bit words as bytes, and the two readings of a 32-bit word as a number: `ssize`
wraps a number around to a signed word, `size` to an unsigned one.
-/

namespace OpenBinder.Lib

open BitVec

abbrev Byte := BitVec 8

/-- The four bytes of a word, lowest first. -/
def wordBytes (w : BitVec 32) : List Byte :=
  [w.extractLsb' 0 8, w.extractLsb' 8 8, w.extractLsb' 16 8, w.extractLsb' 24 8]

/-- The word that four bytes make. -/
def wordOf : List Byte → BitVec 32
  | [a, b, c, d] => d ++ c ++ b ++ a
  | _ => 0

@[simp] theorem wordBytes_length (w : BitVec 32) : (wordBytes w).length = 4 := rfl

/-- **A word is read back from its bytes.** -/
@[simp] theorem wordOf_wordBytes (w : BitVec 32) : wordOf (wordBytes w) = w := by
  unfold wordBytes wordOf
  apply eq_of_getLsbD_eq
  intro i hi
  simp only [getLsbD_append, getLsbD_extractLsb']
  by_cases h1 : i < 8
  · simp [h1]
  by_cases h2 : i < 16
  · have h : i - 8 < 8 := by omega
    simp [h1, h]
    congr 1
    omega
  by_cases h3 : i < 24
  · have h : ¬ i - 8 < 8 := by omega
    have h' : i - 8 - 8 < 8 := by omega
    simp [h1, h, h']
    congr 1
    omega
  · have h : ¬ i - 8 < 8 := by omega
    have h' : ¬ i - 8 - 8 < 8 := by omega
    have h'' : i - 8 - 8 - 8 < 8 := by omega
    simp [h1, h, h', h'']
    congr 1
    omega

/-- **Four bytes are those of their word.** -/
theorem wordBytes_wordOf {l : List Byte} (h : l.length = 4) : wordBytes (wordOf l) = l := by
  obtain ⟨a, b, c, d, rfl⟩ := List.length_eq_four.1 h
  have hbits : ∀ {n : ℕ} (w : BitVec n) (x : Byte) (k : ℕ),
      (∀ i < 8, w.getLsbD (k + i) = x.getLsbD i) → w.extractLsb' k 8 = x := by
    intro n w x k hw
    apply eq_of_getLsbD_eq
    intro i hi
    rw [getLsbD_extractLsb', hw i hi, decide_eq_true hi, Bool.true_and]
  have ha : (d ++ c ++ b ++ a).extractLsb' 0 8 = a := by
    apply hbits
    intro i hi
    rw [zero_add, getLsbD_append, if_pos hi]
  have hb : (d ++ c ++ b ++ a).extractLsb' 8 8 = b := by
    apply hbits
    intro i hi
    rw [getLsbD_append, if_neg (by omega), Nat.add_sub_cancel_left, getLsbD_append,
      if_pos hi]
  have hc : (d ++ c ++ b ++ a).extractLsb' 16 8 = c := by
    apply hbits
    intro i hi
    rw [getLsbD_append, if_neg (by omega), getLsbD_append, if_neg (by omega),
      show 16 + i - 8 - 8 = i by omega, getLsbD_append, if_pos hi]
  have hd : (d ++ c ++ b ++ a).extractLsb' 24 8 = d := by
    apply hbits
    intro i hi
    rw [getLsbD_append, if_neg (by omega), getLsbD_append, if_neg (by omega),
      getLsbD_append, if_neg (by omega), show 24 + i - 8 - 8 - 8 = i by omega]
  show [_, _, _, _] = [a, b, c, d]
  exact congrArg₂ _ ha (congrArg₂ _ hb (congrArg₂ _ hc (congrArg₂ _ hd rfl)))

/-- A number as a signed word. -/
def ssize (n : ℤ) : ℤ := Int.bmod n (2 ^ 32)

/-- A number as an unsigned word. -/
def size (n : ℤ) : ℤ := n % 2 ^ 32

theorem ssize_of_lt {n : ℤ} (h0 : -2 ^ 31 ≤ n) (h : n < 2 ^ 31) : ssize n = n := by
  unfold ssize
  rw [Int.bmod_eq_of_le] <;> omega

@[simp] theorem ssize_add_ssize (m n : ℤ) : ssize (m + ssize n) = ssize (m + n) :=
  Int.add_bmod_bmod

@[simp] theorem ssize_ssize_add (m n : ℤ) : ssize (ssize m + n) = ssize (m + n) :=
  Int.bmod_add_bmod

@[simp] theorem ssize_ssize_sub (m n : ℤ) : ssize (ssize m - n) = ssize (m - n) :=
  Int.bmod_sub_bmod

/-- **What a signed word does not show** is a multiple of its range. -/
theorem ssize_add_eq_self {m n : ℤ} (h0 : -2 ^ 31 ≤ m) (h : m < 2 ^ 31) :
    ssize (m + n) = m ↔ (2 : ℤ) ^ 32 ∣ n := by
  unfold ssize
  have hb := @Int.bmod_emod (m + n) (2 ^ 32)
  constructor
  · intro he
    rw [he] at hb
    omega
  · rintro ⟨c, rfl⟩
    have : Int.bmod (m + 2 ^ 32 * c) (2 ^ 32) = Int.bmod m (2 ^ 32) := by
      exact Int.add_mul_bmod_self_left m (2 ^ 32) c
    rw [this]
    exact ssize_of_lt h0 h

theorem size_of_lt {n : ℤ} (h0 : 0 ≤ n) (h : n < 2 ^ 32) : size n = n := by
  unfold size
  omega

theorem ssize_eq (n : ℤ) : ssize n = (n + 2 ^ 31) % 2 ^ 32 - 2 ^ 31 := by
  unfold ssize Int.bmod
  push_cast
  split <;> omega

theorem ssize_lt (n : ℤ) : ssize n < 2 ^ 31 := by
  rw [ssize_eq]
  omega

theorem and_one_eq_zero_iff {x : BitVec 32} : x &&& 1 = 0 ↔ x.toNat % 2 = 0 := by
  have hnat : (x &&& 1).toNat = x.toNat % 2 := by
    rw [toNat_and]
    exact Nat.and_one_is_mod _
  rw [← hnat]
  exact ⟨fun h => by rw [h]; rfl, fun h => eq_of_toNat_eq h⟩

theorem setWidth_signExtend {n m : ℕ} (h : n ≤ m) (x : BitVec n) :
    (x.signExtend m).setWidth n = x := by
  ext i hi
  rw [getElem_setWidth, getLsbD_eq_getElem (by omega), getElem_signExtend,
    dif_pos hi]

end OpenBinder.Lib
