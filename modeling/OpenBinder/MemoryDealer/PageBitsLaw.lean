import OpenBinder.MemoryDealer.ChunkerLaw

/-!
# The bits of pages

Mapping and unmapping are one loop that gives all bits of some pages one value: it selects the bits
of a word that do not have it yet, and changes them run by run.

* `runs_spec`: the bits that were selected are changed.
* `loop_spec`: the pages from the first to the last have the value, and the others are kept.
-/

namespace OpenBinder.PageBits

open BitVec

/-! ### Bits of a word -/

theorem getLsbD_none (i : ℕ) : (0 : BitVec 32).getLsbD i = false := getLsbD_zero

theorem and_one_eq_zero (x : BitVec 32) : x &&& 1 = 0 ↔ x.getLsbD 0 = false := by
  constructor
  · intro h
    have hbit := congrArg (fun y => BitVec.getLsbD y 0) h
    simpa using hbit
  · intro h
    apply eq_of_getLsbD_eq
    intro i hi
    rw [getLsbD_and]
    cases i with
    | zero =>
      rw [h, Bool.false_and]
      rfl
    | succ i => simp

theorem getLsbD_ones {l j : ℕ} (hl : l < 32) :
    (((1 : BitVec 32) <<< l) - 1).getLsbD j = decide (j < l) := by
  have hpow : 2 ^ l < 2 ^ 32 := Nat.pow_lt_pow_right (by decide) hl
  have hpos : 0 < 2 ^ l := Nat.two_pow_pos l
  have hshift : ((1 : BitVec 32) <<< l).toNat = 2 ^ l := by
    rw [toNat_shiftLeft, Nat.shiftLeft_eq]
    show 1 * 2 ^ l % 2 ^ 32 = 2 ^ l
    rw [Nat.one_mul, Nat.mod_eq_of_lt hpow]
  have hones : ((1 : BitVec 32) <<< l) - 1 = BitVec.ofNat 32 (2 ^ l - 1) := by
    apply eq_of_toNat_eq
    rw [toNat_sub, hshift, toNat_ofNat]
    show (2 ^ 32 - 1 + 2 ^ l) % 2 ^ 32 = (2 ^ l - 1) % 2 ^ 32
    omega
  rw [hones, getLsbD_ofNat, Nat.testBit_two_pow_sub_one]
  by_cases hj : j < l
  · simp [hj]
    omega
  · simp [hj]

theorem getLsbD_maskOfRun {start length j : ℕ} (h : start + length ≤ 32) (hj : j < 32) :
    (maskOfRun start length).getLsbD j = decide (start ≤ j ∧ j < start + length) := by
  unfold maskOfRun
  by_cases hall : length = 32
  · rw [if_pos hall, getLsbD_not]
    rw [getLsbD_none, Bool.not_false, Bool.and_true, decide_eq_true hj]
    symm
    rw [decide_eq_true_eq]
    omega
  · rw [if_neg hall, getLsbD_shiftLeft, getLsbD_ones (by omega)]
    simp only [hj, decide_true, Bool.true_and]
    rw [← decide_not, ← Bool.decide_and, decide_eq_decide]
    omega

theorem getLsbD_pageMask {first last j : ℕ} (hj : j < 32) :
    (pageMask first last).getLsbD j =
      decide (first % 32 ≤ j ∧ (first / 32 = last / 32 → j ≤ last % 32)) := by
  unfold pageMask
  have htop : (~~~(((1 : BitVec 32) <<< (first % 32)) - 1)).getLsbD j = decide (first % 32 ≤ j) := by
    rw [getLsbD_not, getLsbD_ones (Nat.mod_lt _ (by decide)), ← decide_not]
    simp [hj]
  rw [getLsbD_and, htop]
  by_cases hsame : first / 32 = last / 32
  · rw [if_pos hsame, getLsbD_ushiftRight, getLsbD_not]
    rw [getLsbD_none, Bool.not_false, Bool.and_true, ← Bool.decide_and, decide_eq_decide]
    omega
  · rw [if_neg hsame, getLsbD_not]
    simp [hsame, hj]

/-! ### Runs of bits -/

theorem skipZeros_spec : ∀ (n : ℕ) (bits : BitVec 32) (start : ℕ),
    (∃ i < n, bits.getLsbD i = true) →
    ∃ k, skipZeros n bits start = (bits >>> k, start + k) ∧ (∀ j < k, bits.getLsbD j = false) ∧
      bits.getLsbD k = true := by
  intro n
  induction n with
  | zero => exact fun _ _ ⟨i, hi, _⟩ => absurd hi (Nat.not_lt_zero i)
  | succ n ih =>
    rintro bits start ⟨i, hi, hbit⟩
    rw [skipZeros]
    by_cases hzero : bits.getLsbD 0 = false
    · rw [if_pos ((and_one_eq_zero bits).2 hzero)]
      obtain ⟨i, rfl⟩ : ∃ m, i = m + 1 := Nat.exists_eq_succ_of_ne_zero fun h0 => by
        rw [h0, hzero] at hbit
        exact absurd hbit (by simp)
      obtain ⟨k, hk, hlow, hone⟩ := ih (bits >>> 1) (start + 1)
        ⟨i, by omega, by rw [getLsbD_ushiftRight, Nat.add_comm]; exact hbit⟩
      rw [getLsbD_ushiftRight, Nat.add_comm] at hone
      refine ⟨k + 1, ?_, fun j hj => ?_, hone⟩
      · rw [hk, Nat.add_comm k, shiftRight_add, Nat.add_assoc]
      · cases j with
        | zero => exact hzero
        | succ j =>
          have := hlow j (by omega)
          rwa [getLsbD_ushiftRight, Nat.add_comm] at this
    · rw [if_neg fun hand => hzero ((and_one_eq_zero bits).1 hand)]
      refine ⟨0, rfl, fun j hj => absurd hj (Nat.not_lt_zero j), ?_⟩
      simpa using hzero

theorem skipOnes_spec : ∀ (n : ℕ) (bits : BitVec 32) (length : ℕ),
    ∃ k, skipOnes n bits length = (bits >>> k, length + k) ∧ (∀ j < k, bits.getLsbD j = true) ∧
      (k = n ∨ bits.getLsbD k = false) := by
  intro n
  induction n with
  | zero => exact fun bits length => ⟨0, rfl, fun j hj => absurd hj (Nat.not_lt_zero j), .inl rfl⟩
  | succ n ih =>
    intro bits length
    rw [skipOnes]
    by_cases hzero : bits.getLsbD 0 = false
    · rw [if_neg (not_not.2 ((and_one_eq_zero bits).2 hzero))]
      exact ⟨0, rfl, fun j hj => absurd hj (Nat.not_lt_zero j), .inr hzero⟩
    · rw [if_pos fun hand => hzero ((and_one_eq_zero bits).1 hand)]
      obtain ⟨k, hk, hlow, hend⟩ := ih (bits >>> 1) (length + 1)
      rw [getLsbD_ushiftRight, Nat.add_comm] at hend
      refine ⟨k + 1, ?_, fun j hj => ?_, hend.imp (fun h => by rw [h]) id⟩
      · rw [hk, Nat.add_comm k, shiftRight_add, Nat.add_assoc]
      · cases j with
        | zero => simpa using hzero
        | succ j =>
          have := hlow j (by omega)
          rwa [getLsbD_ushiftRight, Nat.add_comm] at this

variable {select change : BitVec 32 → BitVec 32 → BitVec 32} {v : Bool}

/-- A change gives the bits of a mask one value. -/
def Gives (change : BitVec 32 → BitVec 32 → BitVec 32) (v : Bool) : Prop :=
  ∀ w mask j, j < 32 → (change w mask).getLsbD j = if mask.getLsbD j then v else w.getLsbD j

/-- What is selected of some pages does not have the value yet. -/
def Selects (select : BitVec 32 → BitVec 32 → BitVec 32) (v : Bool) : Prop :=
  ∀ pages w j, j < 32 → (select pages w).getLsbD j = (pages.getLsbD j && (w.getLsbD j != v))

/-- **The bits that were selected are changed**, run by run. -/
theorem runs_spec (hchange : Gives change v) : ∀ (n : ℕ) (bits : BitVec 32) (start : ℕ)
    (w : BitVec 32), start ≤ 32 → (∀ k, 32 ≤ start + k → bits.getLsbD k = false) →
      32 ≤ start + n → ∀ j < 32, (runs change n bits start w).getLsbD j =
        if start ≤ j ∧ bits.getLsbD (j - start) = true then v else w.getLsbD j := by
  intro n
  induction n with
  | zero =>
    intro bits start w _ _ hn j hj
    rw [runs, if_neg fun hno => absurd hno.1 (by omega)]
  | succ n ih =>
    intro bits start w hstart hhigh hn j hj
    rw [runs]
    by_cases hzero : bits = 0
    · rw [if_neg (not_not.2 hzero), if_neg]
      rw [hzero]
      simp
    · rw [if_pos hzero]
      have hset : ∃ i < 32, bits.getLsbD i = true := by
        by_contra hno
        refine hzero (eq_of_getLsbD_eq fun i hi => ?_)
        rw [getLsbD_none]
        exact Bool.eq_false_iff.2 fun hbit => hno ⟨i, hi, hbit⟩
      obtain ⟨k, hz, hlow, hone⟩ := skipZeros_spec 32 bits start hset
      obtain ⟨l, ho, hones, hend⟩ := skipOnes_spec 32 (bits >>> k) 0
      have hbit (i : ℕ) : (bits >>> k).getLsbD i = bits.getLsbD (k + i) :=
        getLsbD_ushiftRight _ _ _
      -- the run ends within the word
      have hfit : start + (k + l) ≤ 32 := by
        by_contra hno
        have hk : start + k < 32 := by
          by_contra hk
          rw [hhigh k (by omega)] at hone
          exact absurd hone (by simp)
        have := hones (32 - start - k) (by omega)
        rw [hbit, hhigh _ (by omega)] at this
        exact absurd this (by simp)
      have hl : 0 < l := by
        rcases Nat.eq_zero_or_pos l with rfl | hl
        · rcases hend with hend | hend
          · exact absurd hend (by decide)
          · rw [hbit, Nat.add_zero, hone] at hend
            exact absurd hend (by simp)
        · exact hl
      dsimp only
      rw [hz]
      rw [ho]
      rw [Nat.zero_add, ih _ _ _ (by omega) (fun i hi => ?_) (by omega) j hj, hchange _ _ _ hj,
        getLsbD_maskOfRun (by omega) hj]
      · rw [getLsbD_ushiftRight, hbit]
        by_cases hbefore : j < start + k
        · rw [if_neg (by omega), if_neg (by simp; omega), if_neg]
          rintro ⟨hle, hj'⟩
          rw [hlow _ (by omega)] at hj'
          exact absurd hj' (by simp)
        by_cases hin : j < start + (k + l)
        · rw [if_neg (by omega), if_pos (by simp; omega), if_pos]
          refine ⟨by omega, ?_⟩
          have := hones (j - start - k) (by omega)
          rwa [hbit, (by omega : k + (j - start - k) = j - start)] at this
        · have hindex : k + (l + (j - (start + k + l))) = j - start := by omega
          have hmask : ¬decide (start + k ≤ j ∧ j < start + k + l) = true := by simp; omega
          rw [hindex, if_neg hmask]
          exact if_congr (and_congr_left fun _ => iff_of_true (by omega) (by omega)) rfl rfl
      · rw [getLsbD_ushiftRight, hbit]
        exact hhigh _ (by omega)

/-! ### The pages -/

/-- The bit of a page. -/
def bit (mapped : List (BitVec 32)) (i : ℕ) : Bool := (mapped.getD (i / 32) 0).getLsbD (i % 32)

theorem bit_set {mapped : List (BitVec 32)} {index i : ℕ} {w w' : BitVec 32}
    (h : mapped[index]? = some w) :
    bit (mapped.set index w') i = if i / 32 = index then w'.getLsbD (i % 32) else bit mapped i := by
  have hlt : index < mapped.length := (List.getElem?_eq_some_iff.1 h).1
  unfold bit
  rw [List.getD_eq_getElem?_getD, List.getElem?_set, List.getD_eq_getElem?_getD]
  by_cases hi : i / 32 = index
  · rw [if_pos hi.symm, if_pos hi, if_pos (by omega)]
    rfl
  · rw [if_neg (Ne.symm hi), if_neg hi]

/-- **The pages from the first to the last** are given the value. -/
theorem loop_spec (hchange : Gives change v) (hselect : Selects select v) {last : ℕ}
    (hlast : last + 32 < 2 ^ 32) : ∀ (n first : ℕ) (mapped : List (BitVec 32)),
      last / 32 < mapped.length → 0 < n → (first ≤ last → last / 32 + 1 < first / 32 + n) →
      ∃ m, loop select change n first last mapped = some m ∧ m.length = mapped.length ∧
        ∀ i, bit m i = if first ≤ i ∧ i ≤ last then v else bit mapped i := by
  intro n
  induction n with
  | zero => exact fun _ _ _ h0 => absurd h0 (Nat.lt_irrefl 0)
  | succ n ih =>
    intro first mapped hlen _ hn
    rw [loop]
    by_cases hle : first ≤ last
    · have hindex : first / 32 < mapped.length := by omega
      have hw := List.getElem?_eq_getElem hindex
      have hnext : word (first + 32) &&& maskOf 32 = (first + 32) / 32 * 32 := by
        rw [word_of_lt (by omega)]
        exact and_maskOf (k := 5) (by omega)
      rw [if_pos hle, hw]
      rw [hnext]
      obtain ⟨m, hm, hmlen, hmbit⟩ := ih ((first + 32) / 32 * 32) (mapped.set (first / 32)
        (runs change 32 (select (pageMask first last) mapped[first / 32]) 0 mapped[first / 32]))
        (by rw [List.length_set]; exact hlen) (by have := hn hle; omega)
        (fun h => by have := hn hle; omega)
      refine ⟨m, hm, by rw [hmlen, List.length_set], fun i => ?_⟩
      have hold : bit mapped i = if i / 32 = first / 32 then mapped[first / 32].getLsbD (i % 32)
          else bit mapped i := by
        split
        · next hi =>
          rw [bit, hi, List.getD_eq_getElem?_getD, hw]
          rfl
        · rfl
      have hj : i % 32 < 32 := Nat.mod_lt _ (by decide)
      rw [hmbit, bit_set hw, runs_spec hchange _ _ _ _ (by decide)
        (fun k hk => getLsbD_of_ge _ _ (by omega)) (by decide) _ hj, Nat.sub_zero,
        hselect _ _ _ hj, getLsbD_pageMask hj]
      by_cases hi : i / 32 = first / 32
      · rw [if_pos hi] at hold
        rw [hold, if_pos hi, if_neg (by omega)]
        by_cases hin : first ≤ i ∧ i ≤ last
        · rw [if_pos hin]
          have hmask : decide (first % 32 ≤ i % 32 ∧ (first / 32 = last / 32 → i % 32 ≤ last % 32)) =
              true := by
            rw [decide_eq_true_eq]
            omega
          rw [hmask, Bool.true_and]
          by_cases hv : mapped[first / 32].getLsbD (i % 32) = v
          · rw [hv, if_neg]
            simp
          · rw [if_pos ⟨Nat.zero_le _, by simpa using hv⟩]
        · have hmask : decide (first % 32 ≤ i % 32 ∧ (first / 32 = last / 32 → i % 32 ≤ last % 32)) =
              false := by
            rw [decide_eq_false_iff_not]
            omega
          rw [hmask, Bool.false_and, if_neg hin, if_neg (by simp)]
      · rw [if_neg hi]
        exact if_congr (by omega) rfl rfl
    · rw [if_neg hle]
      exact ⟨mapped, rfl, rfl, fun i => by rw [if_neg (by omega)]⟩

end OpenBinder.PageBits
