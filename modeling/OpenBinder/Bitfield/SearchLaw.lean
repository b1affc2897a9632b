import OpenBinder.Bitfield.BitfieldLaw

/-!
# Reading bitfields

* `Refines.testAndSet`: a bit inside of a field is returned and set.
* `first_iff`: when the bit that is found is the first one of the list.
* `equals_iff`: when the comparison is that of the lists.
-/

namespace OpenBinder.SBitfield

open Lib List

variable {f g : SBitfield} {l m : List Bool} {value : Bool} {bit : ℕ}

/-! ### One bit -/

theorem bitMask_ne_zero (word : BitVec 32) {n : ℕ} (hn : n < 32) :
    (word &&& bitMask n != 0) = word.getMsbD n := by
  cases hbit : word.getMsbD n with
  | true =>
    refine bne_iff_ne.2 fun h0 => ?_
    have hand : (word &&& bitMask n).getMsbD n = true := by
      rw [BitVec.getMsbD_and, hbit, getMsbD_bitMask hn]
      simp
    rw [h0] at hand
    simp at hand
  | false =>
    refine bne_eq_false_iff_eq.2 (BitVec.eq_of_getMsbD_eq fun j hj => ?_)
    rw [BitVec.getMsbD_and, getMsbD_bitMask hn]
    by_cases hj' : j = n
    · rw [hj', hbit]
      simp
    · simp [hj']

theorem getD_set {i : ℕ} (hi : i < l.length) :
    (l.set bit true).getD i false = if bit = i then true else l.getD i false := by
  rw [getD_eq_getElem _ _ (by rwa [length_set]), getElem_set,
    getD_eq_getElem _ _ hi]

theorem Refines.testAndSet (h : Refines f l) (hbit : bit < l.length) :
    ∃ f', SBitfield.testAndSet f bit = some (f', l.getD bit false) ∧
      Refines f' (l.set bit true) := by
  have hsmall := h.small
  have hmod := Nat.mod_lt bit (show 0 < 32 by decide)
  unfold SBitfield.testAndSet
  rcases h.cases with ⟨word, rfl, hl32, hbits⟩ | ⟨words, rfl, hl32, hwords, hbits⟩
  · rw [if_neg (by dsimp only; omega), word_inlineBits, Option.map_some, Nat.mod_eq_of_lt (by omega),
      bitMask_ne_zero word (by omega), hbits bit hbit]
    refine ⟨_, rfl, refines_inline length_set hl32 fun i hi => ?_⟩
    rw [getMsbD_putMask _ _ _ (by omega), getMsbD_bitMask (by omega), getD_set hi, hbits i hi]
    refine if_congr ?_ rfl rfl
    rw [decide_eq_true_eq, eq_comm]
  · obtain ⟨words', hset, hlen', hbit'⟩ := modifyWord_putMask words true (bitMask (bit % 32))
      (show bit / 32 < words.length by omega)
    rw [if_pos (by dsimp only; omega), words_bits, Option.bind_some, hset, Option.map_some,
      bitMask_ne_zero _ hmod]
    refine ⟨⟨l.length, .bits words'⟩, ?_, ?_⟩
    · rw [← hbits bit hbit]
      rfl
    · refine refines_heap length_set hl32 hsmall (hlen'.trans hwords) fun i hi => ?_
      rw [getD_set hi, hbit' i, getMsbD_bitMask hmod, hbits i hi]
      refine if_congr ?_ rfl rfl
      rw [decide_eq_true_eq]
      omega

/-! ### The first bit -/

/-- **The first index of a value** in a range of bits, or -1. -/
def FirstAt (value : Bool) (get : ℕ → Bool) (low high : ℕ) (r : ℤ) : Prop :=
  (r = -1 ∧ ∀ i, low ≤ i → i < high → get i ≠ value) ∨
    ∃ j : ℕ, r = j ∧ low ≤ j ∧ j < high ∧ get j = value ∧ ∀ i, low ≤ i → i < j → get i ≠ value

section

variable {get : ℕ → Bool} {high low : ℕ} {r : ℤ} (h : FirstAt value get low high r)
include h

theorem FirstAt.unique {r' : ℤ} (h' : FirstAt value get low high r') : r = r' := by
  rcases h with ⟨rfl, hnone⟩ | ⟨j, rfl, hlow, hhigh, hj, hbefore⟩
  · rcases h' with ⟨rfl, -⟩ | ⟨j', rfl, hlow', hhigh', hj', -⟩
    · rfl
    · exact absurd hj' (hnone j' hlow' hhigh')
  · rcases h' with ⟨rfl, hnone⟩ | ⟨j', rfl, hlow', hhigh', hj', hbefore'⟩
    · exact absurd hj (hnone j hlow hhigh)
    · have h1 : ¬ j < j' := fun hlt => hbefore' j hlow hlt hj
      have h2 : ¬ j' < j := fun hlt => hbefore j' hlow' hlt hj'
      omega

theorem FirstAt.congr {get' : ℕ → Bool} (heq : ∀ i < high, get' i = get i) :
    FirstAt value get' low high r := by
  rcases h with ⟨hr, hnone⟩ | ⟨j, hr, hlow, hhigh, hj, hbefore⟩
  · exact .inl ⟨hr, fun i hi hi' => by rw [heq i hi']; exact hnone i hi hi'⟩
  · refine .inr ⟨j, hr, hlow, hhigh, by rw [heq j hhigh]; exact hj, fun i hi hi' => ?_⟩
    rw [heq i (by omega)]
    exact hbefore i hi hi'

end

theorem firstIndex_spec (value : Bool) (l : List Bool) :
    FirstAt value (l.getD · false) 0 l.length (firstIndex value l) := by
  unfold firstIndex
  by_cases hmem : value ∈ l
  · rw [if_pos hmem]
    have hlt := idxOf_lt_length_of_mem hmem
    refine .inr ⟨l.idxOf value, rfl, Nat.zero_le _, hlt, ?_, fun i _ hi heq => ?_⟩
    · dsimp only
      rw [getD_eq_getElem _ _ hlt]
      exact getElem_idxOf hlt
    · dsimp only at heq
      rw [getD_eq_getElem _ _ (by omega)] at heq
      exact absurd heq (by simpa using not_of_lt_findIdx hi)
  · rw [if_neg hmem]
    refine .inl ⟨rfl, fun i _ hi heq => hmem ?_⟩
    dsimp only at heq
    rw [getD_eq_getElem _ _ hi] at heq
    exact heq ▸ getElem_mem hi

theorem wordSet_eq {word : BitVec 32} (h0 : word ≠ 0) : wordSet word = 31 - word.toNat.log2 := by
  have h16 := narrow_spec 0xFFFF0000 16 (s := (word, 31))
    (c := 31 - word.toNat.log2) (by decide) ⟨h0, word.isLt, by dsimp only; omega⟩
  have h8 := narrow_spec 0x0000FF00 8 (by decide) h16
  have h4 := narrow_spec 0x000000F0 4 (by decide) h8
  have h2 := narrow_spec 0x0000000C 2 (by decide) h4
  -- what is left is the bit itself
  obtain ⟨h1, hlt, hbit⟩ := narrow_spec 0x00000002 1 (by decide) h2
  have hone := BitVec.toNat_ne.1 h1
  unfold wordSet
  rw [hbit]
  generalize (narrow 0x00000002 1 (narrow 0x0000000C 2 (narrow 0x000000F0 4 (narrow 0x0000FF00 8
    (narrow 0xFFFF0000 16 (word, 31)))))).1 = rest at *
  have hrest : rest.toNat = 1 := by
    have h0 : (0 : BitVec 32).toNat = 0 := rfl
    omega
  rw [hrest, show Nat.log2 1 = 0 by decide]
  omega

theorem getMsbD_select (value : Bool) (word : BitVec 32) {j : ℕ} (hj : j < 32) :
    (select value word).getMsbD j = true ↔ word.getMsbD j = value := by
  unfold select
  cases value with
  | false => simp [BitVec.getMsbD_not, hj]
  | true => exact Iff.rfl

theorem wordSet_spec (value : Bool) (word : BitVec 32) :
    FirstAt value word.getMsbD 0 32
      (if select value word ≠ 0 then wordSet (select value word) else -1) := by
  by_cases h0 : select value word = 0
  · rw [if_neg (not_not.2 h0)]
    refine .inl ⟨rfl, fun i _ hi heq => ?_⟩
    have hbit := (getMsbD_select value word hi).2 heq
    rw [h0] at hbit
    simp at hbit
  · rw [if_pos h0, wordSet_eq h0]
    obtain ⟨hlog, hset, hbefore⟩ := first_getMsbD h0
    refine .inr ⟨31 - (select value word).toNat.log2, by omega, Nat.zero_le _, by omega,
      (getMsbD_select value word (by omega)).1 hset, fun i _ hi heq => ?_⟩
    have hbit := (getMsbD_select value word (by omega)).2 heq
    rw [hbefore i hi] at hbit
    exact Bool.false_ne_true hbit

theorem scanWords_spec (value : Bool) (words : List (BitVec 32)) :
    ∀ n i, i + n ≤ words.length →
      ∃ r, scanWords value words n i = some r ∧
        FirstAt value (bitAt words) (32 * i) (32 * (i + n)) r := by
  intro n
  induction n with
  | zero =>
    intro i _
    exact ⟨-1, rfl, .inl ⟨rfl, fun j hj hj' => by omega⟩⟩
  | succ n ih =>
    intro i hle
    have hi : i < words.length := by omega
    have hbit : ∀ j < 32, bitAt words (32 * i + j) = words[i].getMsbD j := by
      intro j hj
      unfold bitAt
      rw [show (32 * i + j) / 32 = i by omega, show (32 * i + j) % 32 = j by omega,
        getD_eq_getElem _ _ hi]
    have hword := wordSet_spec value words[i]
    unfold scanWords
    rw [List.getElem?_eq_getElem hi, Option.bind_some]
    split
    · next h0 =>
      rw [if_pos h0] at hword
      refine ⟨_, rfl, ?_⟩
      rcases hword with ⟨hneg, hnone⟩ | ⟨j, hr, -, hj, hval, hbefore⟩
      · rw [wordSet_eq h0] at hneg
        have hlog := (first_getMsbD h0).1
        omega
      · refine .inr ⟨32 * i + j, by omega, by omega, by omega, by rw [hbit j hj, hval],
          fun k hk hk' => ?_⟩
        rw [show k = 32 * i + (k - 32 * i) by omega, hbit _ (by omega)]
        exact hbefore _ (Nat.zero_le _) (by omega)
    · next h0 =>
      rw [if_neg h0] at hword
      have hnone : ∀ j < 32, words[i].getMsbD j ≠ value := by
        rcases hword with ⟨-, hnone⟩ | ⟨j, hr, -⟩
        · exact fun j hj => hnone j (Nat.zero_le _) hj
        · omega
      have hskip : ∀ k, 32 * i ≤ k → k < 32 * (i + 1) → bitAt words k ≠ value := by
        intro k hk hk'
        rw [show k = 32 * i + (k - 32 * i) by omega, hbit _ (by omega)]
        exact hnone _ (by omega)
      obtain ⟨r, hr, hfirst⟩ := ih (i + 1) (by omega)
      refine ⟨r, hr, ?_⟩
      rcases hfirst with ⟨hneg, hrest⟩ | ⟨j, hj, hlow, hhigh, hval, hrest⟩
      · refine .inl ⟨hneg, fun k hk hk' => ?_⟩
        by_cases hlt : k < 32 * (i + 1)
        · exact hskip k hk hlt
        · exact hrest k (by omega) (by omega)
      · refine .inr ⟨j, hj, by omega, by omega, hval, fun k hk hk' => ?_⟩
        by_cases hlt : k < 32 * (i + 1)
        · exact hskip k hk hlt
        · exact hrest k (by omega) hk'

theorem first_heap_iff {words : List (BitVec 32)} (h : Refines ⟨l.length, .bits words⟩ l) :
    scanWords value words (l.length / 32) 0 = some (firstIndex value l) ↔
      (∃ i < l.length / 32 * 32, bitAt words i = value) ∨ ∀ i < l.length, bitAt words i ≠ value := by
  obtain ⟨-, hwords, hbits⟩ := h.heap words rfl
  obtain ⟨r, hr, hfirst⟩ := scanWords_spec value words (l.length / 32) 0 (by omega)
  have hwanted := (firstIndex_spec value l).congr hbits
  rw [hr, Option.some_inj]
  constructor
  · rintro rfl
    rcases hfirst with ⟨hneg, -⟩ | ⟨j, -, -, hhigh, hval, -⟩
    · refine .inr fun i hi => ?_
      rcases hwanted with ⟨-, hnone⟩ | ⟨j, hj, -⟩
      · exact hnone i (Nat.zero_le _) hi
      · omega
    · exact .inl ⟨j, by omega, hval⟩
  · rintro (⟨i, hi, hval⟩ | hnone)
    · rcases hfirst with ⟨-, hnone⟩ | ⟨j, hj, hlow, hhigh, hval', hbefore⟩
      · exact absurd hval (hnone i (by omega) (by omega))
      · exact FirstAt.unique (.inr ⟨j, hj, by omega, by omega, hval', hbefore⟩) hwanted
    · rcases hfirst with ⟨hneg, -⟩ | ⟨j, -, -, hhigh, hval, -⟩
      · exact FirstAt.unique (.inl ⟨hneg, fun i _ hi => hnone i hi⟩) hwanted
      · exact absurd hval (hnone j (by omega))

theorem select_eq_zero_iff (value : Bool) (word : BitVec 32) :
    select value word = 0 ↔ word = if value then 0 else 0xFFFFFFFF#32 := by
  unfold select
  cases value with
  | true => exact Iff.rfl
  | false =>
    constructor
    · exact fun h => (BitVec.not_not (b := word)).symm.trans (congrArg (~~~ ·) h)
    · rintro rfl
      decide

/-- **The first bit with a value** is found exactly where it is looked for. -/
theorem first_iff (h : Refines f l) (hwhole : Whole l) :
    SBitfield.first value f = some (firstIndex value l) ↔ FitsFirst value f := by
  unfold SBitfield.first FitsFirst
  rcases h.cases with ⟨word, rfl, hl32, hbits⟩ | ⟨words, rfl, hl32, hwords, hbits⟩
  · rw [if_neg (by dsimp only; omega), if_pos (by unfold IsInline; dsimp only; omega),
      word_inlineBits, Option.map_some, Option.some_inj]
    rcases hwhole hl32 with hl | hl
    · obtain rfl := length_eq_zero_iff.1 hl
      have hempty : (SBitfield.mk (([] : List Bool).length : ℤ) (.inlineBits word)).numBits = 0 :=
        rfl
      rw [if_pos hempty, Bits.inlineBits.injEq, ← select_eq_zero_iff,
        show firstIndex value [] = -1 by unfold firstIndex; simp]
      constructor
      · intro hneg
        by_contra h0
        have hlog := (first_getMsbD h0).1
        rw [if_pos h0, wordSet_eq h0] at hneg
        omega
      · exact fun h0 => if_neg (not_not.2 h0)
    · have hfull : ¬ (SBitfield.mk (l.length : ℤ) (.inlineBits word)).numBits = 0 := by
        dsimp only
        omega
      rw [if_neg hfull]
      refine iff_of_true ?_ (.inl (by dsimp only; omega))
      have hwanted := (firstIndex_spec value l).congr hbits
      rw [hl] at hwanted
      exact FirstAt.unique (wordSet_spec value word) hwanted
  · rw [if_neg (by dsimp only; omega), if_neg (by unfold IsInline; dsimp only; omega),
      words_bits, Option.bind_some, if_neg (by dsimp only; omega), Int.toNat_natCast,
      first_heap_iff h]
    constructor
    · exact .inr
    · rintro (h32 | hrest)
      · dsimp only at h32
        omega
      · exact hrest

/-! ### Comparing -/

/-- Words that are compared up to a bit of the last one. -/
theorem words_eq_iff {words words' : List (BitVec 32)} {n : ℕ} (h0 : 0 < n)
    (hwords : words.length = (n + 31) / 32) (hwords' : words'.length = (n + 31) / 32) :
    (words.take ((n - 1) / 32) = words'.take ((n - 1) / 32) ∧
      words.getD ((n - 1) / 32) 0 &&& rightMask ((n - 1) % 32) =
        words'.getD ((n - 1) / 32) 0 &&& rightMask ((n - 1) % 32)) ↔
      ∀ i < n, bitAt words i = bitAt words' i := by
  have hmod := Nat.mod_lt (n - 1) (show 0 < 32 by decide)
  constructor
  · rintro ⟨htake, hmask⟩ i hi
    by_cases hlast : i / 32 < (n - 1) / 32
    · refine bitAt_congr ?_
      rw [← List.getElem?_take_of_lt hlast, htake, List.getElem?_take_of_lt hlast]
    · have hlast' : i / 32 = (n - 1) / 32 := by omega
      have hbit := congrArg (BitVec.getMsbD · (i % 32)) hmask
      simp only [BitVec.getMsbD_and, getMsbD_rightMask hmod] at hbit
      rw [show decide (i % 32 ≤ (n - 1) % 32) = true by rw [decide_eq_true_eq]; omega,
        Bool.and_true, Bool.and_true] at hbit
      unfold bitAt
      rw [hlast', hbit]
  · intro hbits
    constructor
    · refine ext_getElem (by simp; omega) fun k hk hk' => ?_
      rw [length_take] at hk hk'
      rw [getElem_take, getElem_take]
      refine BitVec.eq_of_getMsbD_eq fun j hj => ?_
      have hbit := hbits (32 * k + j) (by omega)
      unfold bitAt at hbit
      rw [show (32 * k + j) / 32 = k by omega, show (32 * k + j) % 32 = j by omega,
        getD_eq_getElem _ _ (by omega), getD_eq_getElem _ _ (by omega)] at hbit
      exact hbit
    · refine BitVec.eq_of_getMsbD_eq fun j hj => ?_
      rw [BitVec.getMsbD_and, BitVec.getMsbD_and, getMsbD_rightMask hmod]
      by_cases hle : j ≤ (n - 1) % 32
      · have hbit := hbits (32 * ((n - 1) / 32) + j) (by omega)
        unfold bitAt at hbit
        rw [show (32 * ((n - 1) / 32) + j) / 32 = (n - 1) / 32 by omega,
          show (32 * ((n - 1) / 32) + j) % 32 = j by omega] at hbit
        rw [hbit]
      · rw [decide_eq_false hle, Bool.and_false, Bool.and_false]

theorem eq_iff_getD (hlen : l.length = m.length) :
    l = m ↔ ∀ i < l.length, l.getD i false = m.getD i false :=
  ⟨fun h _ _ => by rw [h], ext_getD hlen⟩

/-- **Two fields are compared as their lists**, if they are not both of 32 bits. -/
theorem equals_iff (h : Refines f l) (h' : Refines g m) (hwhole : Whole l) :
    SBitfield.equals f g false = some (decide (l = m)) ↔ ¬ (f.numBits = 32 ∧ g.numBits = 32) := by
  have hsmall := h.small
  unfold SBitfield.equals
  rw [if_neg Bool.false_ne_true]
  by_cases hlen : l.length = m.length
  · rw [if_neg (by rw [h.numBits, h'.numBits, hlen]; exact not_not.2 rfl)]
    rcases h.cases with ⟨word, rfl, hl32, hbits⟩ | ⟨words, rfl, hl32, hwords, hbits⟩
    · rcases hwhole hl32 with hl | hl
      · obtain rfl := length_eq_zero_iff.1 hl
        obtain rfl := length_eq_zero_iff.1 (hlen.symm.trans hl)
        rw [if_neg (by dsimp only; omega)]
        exact iff_of_true rfl fun hboth => by dsimp only at hboth; omega
      · rw [if_pos (by dsimp only; omega), if_pos (by unfold IsInline; dsimp only; omega)]
        dsimp only
        rw [if_pos (by omega)]
        exact iff_of_false nofun (not_not.2 ⟨by omega, by rw [h'.numBits]; omega⟩)
    · rw [if_pos (by dsimp only; omega), if_neg (by unfold IsInline; dsimp only; omega)]
      refine iff_of_true ?_ fun hboth => by dsimp only at hboth; omega
      rcases h'.cases with ⟨word', rfl, hm32, -⟩ | ⟨words', rfl, hm32, hwords', hbits'⟩
      · omega
      · have hmasked : Masked 0 l.length (computeMasks 0 l.length) := masked (by omega) (by omega)
        rw [words_bits, words_bits, Option.bind_some, Option.bind_some, Int.toNat_natCast]
        dsimp only
        rw [hmasked.last, hmasked.right, Nat.zero_add, if_neg (by omega)]
        refine congrArg some (decide_eq_decide.2 ?_)
        rw [words_eq_iff (by omega) hwords (by rw [hwords', hlen]), eq_iff_getD hlen]
        refine forall_congr' fun i => forall_congr' fun hi => ?_
        rw [hbits i hi, hbits' i (by omega)]
  · rw [if_pos (by rw [h.numBits, h'.numBits]; omega)]
    refine iff_of_true (congrArg some (decide_eq_false fun heq => hlen (by rw [heq])).symm)
      fun hboth => hlen ?_
    have h1 := h.numBits
    have h2 := h'.numBits
    omega

end OpenBinder.SBitfield
