import Mathlib.Data.List.Basic
import Mathlib.Data.Nat.Bitwise

/-!
# Bits in words

Bits are in words of 32, the most significant one first. A range of them is set or cleared by a mask
for the word that it starts in, one for the word that it ends in, and whole words between.

* `bitAt`: a bit of a list of words.
* `bitAt_modifyWord`, `bitAt_fillWords`: what changes of a list of words.
* `wordSet_spec`: the first bit that is set in a word.
-/

namespace OpenBinder.Lib

open Nat

/-- A bit of a list of words. -/
def bitAt (words : List (BitVec 32)) (i : ℕ) : Bool := (words.getD (i / 32) 0).getMsbD (i % 32)

/-- The bits of a mask set or cleared. -/
def putMask (value : Bool) (mask word : BitVec 32) : BitVec 32 :=
  if value then word ||| mask else word &&& ~~~mask

/-- The bits of a word from `n` on. -/
def leftMask (n : ℕ) : BitVec 32 := 0xFFFFFFFF#32 >>> n

/-- The bits of a word up to `n`. -/
def rightMask (n : ℕ) : BitVec 32 := 0xFFFFFFFF#32 <<< (31 - n)

/-- One bit of a word. -/
def bitMask (n : ℕ) : BitVec 32 := 0x80000000#32 >>> n

variable {j : ℕ} {word : BitVec 32}

theorem getMsbD_leftMask {n : ℕ} : (leftMask n).getMsbD j = decide (j < 32 ∧ n ≤ j) := by
  unfold leftMask
  rw [show (0xFFFFFFFF#32) = BitVec.allOnes 32 from rfl, BitVec.getMsbD_ushiftRight]
  simp only [BitVec.getMsbD_allOnes]
  grind

theorem getMsbD_rightMask {n : ℕ} (hn : n < 32) :
    (rightMask n).getMsbD j = decide (j ≤ n) := by
  unfold rightMask
  rw [show (0xFFFFFFFF#32) = BitVec.allOnes 32 from rfl, BitVec.getMsbD_shiftLeft,
    BitVec.getMsbD_allOnes]
  simp only [decide_eq_decide]
  omega

theorem getMsbD_bitMask {n : ℕ} (hn : n < 32) : (bitMask n).getMsbD j = decide (j = n) := by
  unfold bitMask
  rw [show (0x80000000#32) = BitVec.twoPow 32 31 from rfl, BitVec.getMsbD_ushiftRight]
  grind

theorem getMsbD_putMask (value : Bool) (mask word : BitVec 32) (hj : j < 32) :
    (putMask value mask word).getMsbD j = if mask.getMsbD j then value else word.getMsbD j := by
  unfold putMask
  cases value <;> cases hm : mask.getMsbD j <;>
    simp [BitVec.getMsbD_and, BitVec.getMsbD_or, BitVec.getMsbD_not, hm, hj]

/-! ### Lists of words -/

variable {words : List (BitVec 32)} {i n start : ℕ}

/-- A word of the list changed, if there is one. -/
def modifyWord (words : List (BitVec 32)) (n : ℕ) (f : BitVec 32 → BitVec 32) :
    Option (List (BitVec 32)) :=
  if n < words.length then some (words.modify n f) else none

/-- Words of the list overwritten, if they are there. -/
def fillWords (words : List (BitVec 32)) (start n : ℕ) (word : BitVec 32) :
    Option (List (BitVec 32)) :=
  if start + n ≤ words.length then
    some (words.take start ++ List.replicate n word ++ words.drop (start + n))
  else none

theorem bitAt_modifyWord {f : BitVec 32 → BitVec 32} {words' : List (BitVec 32)}
    (h : modifyWord words n f = some words') (i : ℕ) :
    words'.length = words.length ∧
      bitAt words' i =
        if i / 32 = n then (f (words.getD n 0)).getMsbD (i % 32) else bitAt words i := by
  unfold modifyWord at h
  obtain ⟨hn, h⟩ := Option.ite_none_right_eq_some.1 h
  obtain ⟨⟩ := h
  refine ⟨List.length_modify _ _ _, ?_⟩
  unfold bitAt
  rw [List.getD_eq_getElem?_getD, List.getElem?_modify]
  by_cases hi : i / 32 = n
  · subst hi
    rw [if_pos rfl, List.getElem?_eq_getElem hn, List.getD_eq_getElem _ _ hn]
    simp
  · have hi' : ¬ n = i / 32 := fun h => hi h.symm
    rw [if_neg hi, List.getD_eq_getElem?_getD]
    simp [hi']

theorem bitAt_fillWords {words' : List (BitVec 32)} (h : fillWords words start n word = some words')
    (i : ℕ) :
    words'.length = words.length ∧
      bitAt words' i =
        if start ≤ i / 32 ∧ i / 32 < start + n then word.getMsbD (i % 32) else bitAt words i := by
  unfold fillWords at h
  obtain ⟨hn, h⟩ := Option.ite_none_right_eq_some.1 h
  obtain ⟨⟩ := h
  refine ⟨by simp; omega, ?_⟩
  have hget : (words.take start ++ List.replicate n word ++ words.drop (start + n)).getD (i / 32) 0 =
      if start ≤ i / 32 ∧ i / 32 < start + n then word else words.getD (i / 32) 0 := by
    simp only [List.getD_eq_getElem?_getD]
    by_cases h1 : i / 32 < start
    · rw [if_neg (by omega), List.append_assoc, List.getElem?_append_left (by simp; omega),
        List.getElem?_take_of_lt h1]
    · by_cases h2 : i / 32 < start + n
      · rw [if_pos ⟨by omega, h2⟩, List.getElem?_append_left (by simp; omega),
          List.getElem?_append_right (by simp; omega), List.getElem?_replicate,
          if_pos (by simp; omega)]
        rfl
      · rw [if_neg (by omega), List.getElem?_append_right (by simp; omega), List.getElem?_drop]
        congr 2
        simp
        omega
  unfold bitAt
  rw [hget]
  split <;> rfl

/-- **A masked word**: the bits of the mask are set or cleared. -/
theorem modifyWord_putMask (words : List (BitVec 32)) (value : Bool) (mask : BitVec 32)
    (hn : n < words.length) :
    ∃ words', modifyWord words n (putMask value mask) = some words' ∧
      words'.length = words.length ∧ ∀ i, bitAt words' i =
        if i / 32 = n ∧ mask.getMsbD (i % 32) = true then value else bitAt words i := by
  have hset : modifyWord words n (putMask value mask) = some (words.modify n (putMask value mask)) := by
    rw [modifyWord, if_pos hn]
  refine ⟨_, hset, List.length_modify _ _ _, fun i => ?_⟩
  rw [(bitAt_modifyWord hset i).2]
  by_cases hi : i / 32 = n
  · subst hi
    rw [if_pos rfl, getMsbD_putMask _ _ _ (mod_lt _ (by decide))]
    simp only [true_and]
    rfl
  · rw [if_neg hi, if_neg fun h => hi h.1]

/-- **Whole words** set or cleared. -/
theorem fillWords_value (words : List (BitVec 32)) (value : Bool)
    (hn : start + n ≤ words.length) :
    ∃ words', fillWords words start n (if value then 0xFFFFFFFF#32 else 0) = some words' ∧
      words'.length = words.length ∧ ∀ i, bitAt words' i =
        if start ≤ i / 32 ∧ i / 32 < start + n then value else bitAt words i := by
  obtain ⟨words', hfill⟩ : ∃ words', fillWords words start n
      (if value then 0xFFFFFFFF#32 else 0) = some words' := ⟨_, if_pos hn⟩
  refine ⟨words', hfill, (bitAt_fillWords hfill 0).1, fun i => ?_⟩
  have hmod := mod_lt i (show 0 < 32 by decide)
  have hfull : (if value then 0xFFFFFFFF#32 else 0).getMsbD (i % 32) = value := by
    cases value with
    | false => simp
    | true =>
      rw [if_pos rfl, show (0xFFFFFFFF#32) = BitVec.allOnes 32 from rfl, BitVec.getMsbD_allOnes]
      simpa using hmod
  rw [(bitAt_fillWords hfill i).2, hfull]

/-! ### The first bit -/

/-- One step of the search for the first bit: the upper half, if there is one in it. -/
def narrow (mask : BitVec 32) (k : ℕ) (s : BitVec 32 × ℤ) : BitVec 32 × ℤ :=
  if s.1 &&& mask ≠ 0 then (s.1 >>> k, s.2 - k) else s

/-- A mask for the upper half of `2 * k` bits. -/
theorem and_mask_ne_zero {mask : BitVec 32} {k : ℕ}
    (hmask : ∀ j < 32, mask.getLsbD j = decide (k ≤ j ∧ j < 2 * k)) (h0 : word ≠ 0)
    (hlt : word.toNat < 2 ^ (2 * k)) : word &&& mask ≠ 0 ↔ 2 ^ k ≤ word.toNat := by
  have hne : word.toNat ≠ 0 := fun h => h0 (BitVec.eq_of_toNat_eq h)
  constructor
  · intro hand
    by_contra hlow
    apply hand
    refine BitVec.eq_of_getLsbD_eq fun j hj => ?_
    rw [BitVec.getLsbD_and, hmask j hj]
    by_cases hk : k ≤ j
    · rw [BitVec.getLsbD, testBit_lt_two_pow (lt_of_lt_of_le (by omega)
        (Nat.pow_le_pow_right (by decide) hk))]
      simp
    · simp [hk]
  · intro hhigh hand
    have hk : k ≤ word.toNat.log2 := (le_log2 hne).2 hhigh
    have hk2 : word.toNat.log2 < 2 * k := (log2_lt hne).2 hlt
    have hj : word.toNat.log2 < 32 := (log2_lt hne).2 word.isLt
    have hbit : (word &&& mask).getLsbD word.toNat.log2 = true := by
      rw [BitVec.getLsbD_and, hmask _ hj, BitVec.getLsbD, testBit_log2 hne]
      simp [hk, hk2]
    rw [hand] at hbit
    simp at hbit

/-- **A step keeps where the first bit is.** -/
theorem narrow_spec (mask : BitVec 32) (k : ℕ) {s : BitVec 32 × ℤ} {c : ℤ}
    (hmask : ∀ j < 32, mask.getLsbD j = decide (k ≤ j ∧ j < 2 * k))
    (hs : s.1 ≠ 0 ∧ s.1.toNat < 2 ^ (2 * k) ∧ s.2 = c + s.1.toNat.log2) :
    (narrow mask k s).1 ≠ 0 ∧ (narrow mask k s).1.toNat < 2 ^ k ∧
      (narrow mask k s).2 = c + (narrow mask k s).1.toNat.log2 := by
  obtain ⟨h0, hlt, hbit⟩ := hs
  have hne : s.1.toNat ≠ 0 := fun h => h0 (BitVec.eq_of_toNat_eq h)
  unfold narrow
  by_cases hhigh : 2 ^ k ≤ s.1.toNat
  · rw [if_pos ((and_mask_ne_zero hmask h0 hlt).2 hhigh)]
    dsimp only
    have hk : k ≤ s.1.toNat.log2 := (le_log2 hne).2 hhigh
    have hpos : 0 < 2 ^ k := Nat.two_pow_pos k
    have hnat : (s.1 >>> k).toNat = s.1.toNat / 2 ^ k := by
      rw [BitVec.toNat_ushiftRight, shiftRight_eq_div_pow]
    have hdiv : s.1.toNat / 2 ^ k ≠ 0 := (div_pos hhigh hpos).ne'
    have hlog : (s.1.toNat / 2 ^ k).log2 = s.1.toNat.log2 - k := by
      rw [log2_eq_iff hdiv]
      have h1 : 2 ^ (s.1.toNat.log2 - k) * 2 ^ k = 2 ^ s.1.toNat.log2 := by
        rw [← pow_add, Nat.sub_add_cancel hk]
      have h2 : 2 ^ (s.1.toNat.log2 - k + 1) * 2 ^ k = 2 ^ (s.1.toNat.log2 + 1) := by
        rw [← pow_add]
        congr 1
        omega
      rw [le_div_iff_mul_le hpos, h1, div_lt_iff_lt_mul hpos, h2]
      exact ⟨log2_self_le hne, Nat.lt_log2_self⟩
    refine ⟨fun h => hdiv (by rw [← hnat, h]; rfl), ?_, ?_⟩
    · rw [hnat, div_lt_iff_lt_mul hpos, ← pow_add, ← two_mul]
      exact hlt
    · rw [hnat, hlog, hbit]
      omega
  · rw [if_neg fun h => hhigh ((and_mask_ne_zero hmask h0 hlt).1 h)]
    exact ⟨h0, by omega, hbit⟩

/-- **The first bit of a word** is at 31 less its logarithm. -/
theorem first_getMsbD (h0 : word ≠ 0) :
    word.toNat.log2 < 32 ∧ word.getMsbD (31 - word.toNat.log2) = true ∧
      ∀ j < 31 - word.toNat.log2, word.getMsbD j = false := by
  have hne : word.toNat ≠ 0 := fun h => h0 (BitVec.eq_of_toNat_eq h)
  have hlog : word.toNat.log2 < 32 := (log2_lt hne).2 word.isLt
  refine ⟨hlog, ?_, fun j hj => ?_⟩
  · rw [BitVec.getMsbD_eq_getLsbD, BitVec.getLsbD,
      show 32 - 1 - (31 - word.toNat.log2) = word.toNat.log2 by omega, testBit_log2 hne]
    simp
    omega
  · rw [BitVec.getMsbD_eq_getLsbD, BitVec.getLsbD, testBit_lt_two_pow, Bool.and_false]
    exact lt_of_lt_of_le Nat.lt_log2_self (Nat.pow_le_pow_right (by decide) (by omega))

end OpenBinder.Lib
