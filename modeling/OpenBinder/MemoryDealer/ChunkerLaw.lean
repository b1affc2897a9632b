import OpenBinder.MemoryDealer.Heap
import Mathlib.Data.Nat.Bitwise
import Mathlib.Data.List.Pairwise

/-!
# The free list

What the free list covers. A byte is counted as often as it is in a chunk.

* `FreeList`: chunks in order, of whole quanta, no two of which abut.
* `alloc_spec`: the block that is allocated is what the list does not cover any more.
* `free_spec`: what is freed is covered in addition, and the chunks that it abuts are joined.
-/

namespace OpenBinder

open Lib List Nat

/-! ### Words and masks -/

theorem word_of_lt {n : ℕ} (h : n < 2 ^ 32) : word n = n := mod_eq_of_lt h

theorem wordSub_of_le {m n : ℕ} (h : n ≤ m) (hm : m < 2 ^ 32) : wordSub m n = m - n := by
  unfold wordSub word
  omega

theorem and_maskOf {n k : ℕ} (hn : n < 2 ^ 32) : n &&& maskOf (2 ^ k) = n / 2 ^ k * 2 ^ k := by
  rw [← shiftRight_eq_div_pow, ← shiftLeft_eq]
  apply eq_of_testBit_eq
  intro i
  have hones : (0xFFFFFFFF : ℕ) = 2 ^ 32 - 1 := rfl
  rw [maskOf, hones, testBit_and, testBit_xor, testBit_two_pow_sub_one,
    testBit_two_pow_sub_one, testBit_shiftLeft, testBit_shiftRight]
  by_cases hi : i < 32
  · by_cases hk : i < k
    · simp [hi, hk, not_le.2 hk]
    · have hki : k ≤ i := Nat.le_of_not_lt hk
      simp [hi, hk, hki]
  · have hzero : n.testBit i = false := testBit_lt_two_pow
      (Nat.lt_of_lt_of_le hn (Nat.pow_le_pow_right (by decide) (Nat.le_of_not_lt hi)))
    rw [hzero, Bool.false_and]
    by_cases hki : k ≤ i
    · simp [hki, hzero]
    · simp [hki]

theorem quantized_of_lt {n : ℕ} (h : n + 31 < 2 ^ 32) :
    Chunker.quantized n = (n + 31) / 32 * 32 := by
  have hmask := and_maskOf (k := 5) h
  rw [Chunker.quantized, Chunker.quantum, word_of_lt h]
  exact hmask

theorem quantized_of_ge {n : ℕ} (h : 2 ^ 32 ≤ n + 31) (hn : n < 2 ^ 32) :
    Chunker.quantized n = 0 := by
  have hlt : word (n + 31) < 32 := by
    unfold word
    omega
  have hmask := and_maskOf (k := 5) (lt_trans hlt (by decide))
  rw [Chunker.quantized, Chunker.quantum]
  refine hmask.trans ?_
  omega

/-! ### What chunks cover -/

/-- Whether a byte is in a chunk. -/
def Chunk.covers (c : Chunk) (b : ℕ) : Bool := c.start ≤ b && b < c.start + c.size

/-- How many chunks a byte is in. -/
def cover (l : List Chunk) (b : ℕ) : ℕ := l.countP fun c => c.covers b

variable {l rest : List Chunk} {c n : Chunk} {start size top : ℕ}

theorem cover_cons (c : Chunk) (l : List Chunk) (b : ℕ) :
    cover (c :: l) b = cover l b + if c.start ≤ b ∧ b < c.start + c.size then 1 else 0 := by
  rw [cover, countP_cons]
  congr 1
  simp [Chunk.covers]

theorem cover_empty (p : ℕ) (l : List Chunk) (b : ℕ) : cover (⟨p, 0⟩ :: l) b = cover l b := by
  rw [cover_cons, if_neg (by simp)]
  rfl

@[simp] theorem cover_nil (b : ℕ) : cover [] b = 0 := rfl

/-- **A free list**: chunks of whole quanta in order, no two of which abut. -/
structure FreeList (l : List Chunk) (top : ℕ) : Prop where
  sorted : l.Pairwise fun c d => c.start + c.size < d.start
  each : ∀ c ∈ l, 0 < c.size ∧ c.start + c.size ≤ top ∧ 32 ∣ c.start ∧ 32 ∣ c.size

theorem freeList_nil : FreeList [] top := ⟨.nil, fun _ h => (not_mem_nil h).elim⟩

theorem freeList_cons : FreeList (c :: l) top ↔
    (0 < c.size ∧ c.start + c.size ≤ top ∧ 32 ∣ c.start ∧ 32 ∣ c.size) ∧
      (∀ d ∈ l, c.start + c.size < d.start) ∧ FreeList l top := by
  constructor
  · rintro ⟨hs, he⟩
    obtain ⟨hc, hl⟩ := pairwise_cons.1 hs
    exact ⟨he c mem_cons_self, hc, hl, fun d hd => he d (mem_cons_of_mem c hd)⟩
  · rintro ⟨hc, hlt, hs, he⟩
    refine ⟨pairwise_cons.2 ⟨hlt, hs⟩, fun d hd => ?_⟩
    rcases mem_cons.1 hd with rfl | hd
    · exact hc
    · exact he d hd

theorem disjoint_of_cover (hc : c ∈ l) (hpos : 0 < c.size) (hsize : 0 < size)
    (h : ∀ b, start ≤ b → b < start + size → cover l b = 0) :
    c.start + c.size ≤ start ∨ start + size ≤ c.start := by
  by_contra hno
  rw [not_or] at hno
  have hzero := h (max c.start start) (by omega) (by omega)
  rw [cover, countP_eq_zero] at hzero
  refine hzero c hc ?_
  simp only [Chunk.covers, Bool.and_eq_true, decide_eq_true_eq]
  omega

namespace Chunker

/-! ### Allocating -/

/-- **A block is taken** from the list. -/
structure Taken (size : ℕ) (l : List Chunk) (r : List Chunk × ℕ × ℕ) (top : ℕ) : Prop where
  size_le : size ≤ r.2.2
  le : r.2.2 ≤ size + 31
  dvd : 32 ∣ r.2.2
  block : 0 < r.2.2 → 32 ∣ r.2.1 ∧ r.2.1 + r.2.2 ≤ top
  list : FreeList r.1 top
  cover : ∀ b, cover (⟨r.2.1, r.2.2⟩ :: r.1) b = OpenBinder.cover l b
  within : ∀ d ∈ r.1, ∃ c ∈ l, c.start ≤ d.start

/-- `Alloc`. There is no chunk that is large enough, or a block is taken. -/
theorem alloc_spec (htop : top < 2 ^ 32) (h32 : 32 ∣ top) (size : ℕ) : ∀ {l : List Chunk},
    FreeList l top → (∀ c ∈ l, c.size < size) ∧ 0 < size ∧ alloc size l = (l, nonzeroNull, 0) ∨
      Taken size l (alloc size l) top := by
  intro l
  induction l with
  | nil =>
    intro h
    rcases Nat.eq_zero_or_pos size with rfl | hpos
    · refine .inr ⟨le_rfl, by decide, by decide, fun h0 => absurd h0 (by decide), h, fun b => ?_,
        fun d hd => (not_mem_nil hd).elim⟩
      exact cover_empty _ _ b
    · exact .inl ⟨fun c hc => (not_mem_nil hc).elim, hpos, rfl⟩
  | cons it rest ih =>
    intro h
    obtain ⟨⟨hpos, hle, hd1, hd2⟩, hlt, hrest⟩ := freeList_cons.1 h
    by_cases hsmall : it.size < size
    · rw [alloc, if_pos hsmall]
      rcases ih hrest with ⟨hall, hsize, heq⟩ | htaken
      · rw [heq]
        refine .inl ⟨fun c hc => ?_, hsize, rfl⟩
        rcases mem_cons.1 hc with rfl | hc
        · exact hsmall
        · exact hall c hc
      · refine .inr ⟨htaken.size_le, htaken.le, htaken.dvd, htaken.block,
          freeList_cons.2 ⟨⟨hpos, hle, hd1, hd2⟩, fun d hd => ?_, htaken.list⟩, fun b => ?_,
          fun d hd => ?_⟩
        · obtain ⟨c, hc, hcd⟩ := htaken.within d hd
          have := hlt c hc
          omega
        · have hcover := htaken.cover b
          rw [cover_cons] at hcover
          rw [cover_cons, cover_cons, cover_cons]
          dsimp only at hcover ⊢
          omega
        · rcases mem_cons.1 hd with rfl | hd
          · exact ⟨d, mem_cons_self, le_rfl⟩
          · obtain ⟨c, hc, hcd⟩ := htaken.within d hd
            exact ⟨c, mem_cons_of_mem it hc, hcd⟩
    · right
      have hno : size + 31 < 2 ^ 32 := by omega
      rw [alloc, if_neg hsmall, quantum, word_of_lt hno]
      by_cases hwhole : it.size ≤ size + 31
      · rw [if_pos hwhole]
        exact ⟨Nat.le_of_not_lt hsmall, hwhole, hd2, fun _ => ⟨hd1, hle⟩, hrest, fun b => rfl,
          fun d hd => ⟨d, mem_cons_of_mem it hd, le_rfl⟩⟩
      · rw [if_neg hwhole, quantized_of_lt hno, word_of_lt (by omega),
          wordSub_of_le (by omega) (by omega)]
        refine ⟨?_, ?_, dvd_mul_left _ _, fun _ => ⟨hd1, ?_⟩,
          freeList_cons.2 ⟨⟨?_, ?_, ?_, ?_⟩, fun d hd => ?_, hrest⟩, fun b => ?_, fun d hd => ?_⟩
        · show size ≤ (size + 31) / 32 * 32
          omega
        · show (size + 31) / 32 * 32 ≤ size + 31
          omega
        · show it.start + (size + 31) / 32 * 32 ≤ top
          omega
        · show 0 < it.size - (size + 31) / 32 * 32
          omega
        · show it.start + (size + 31) / 32 * 32 + (it.size - (size + 31) / 32 * 32) ≤ top
          omega
        · show 32 ∣ it.start + (size + 31) / 32 * 32
          omega
        · show 32 ∣ it.size - (size + 31) / 32 * 32
          omega
        · have := hlt d hd
          show it.start + (size + 31) / 32 * 32 + (it.size - (size + 31) / 32 * 32) < d.start
          omega
        · rw [cover_cons, cover_cons, cover_cons]
          dsimp only
          split_ifs <;> omega
        · rcases mem_cons.1 hd with rfl | hd
          · exact ⟨it, mem_cons_self, le_add_right _ _⟩
          · exact ⟨d, mem_cons_of_mem it hd, le_rfl⟩

/-! ### Freeing -/

/-- **A block is given** to the list, as a part of a region of it. -/
structure Freed (start size : ℕ) (l : List Chunk) (r : List Chunk × Chunk) (top : ℕ) : Prop where
  list : FreeList r.1 top
  cover : ∀ b, cover r.1 b = OpenBinder.cover (⟨start, size⟩ :: l) b
  mem : r.2 ∈ r.1
  le : r.2.start ≤ start
  ge : start + size ≤ r.2.start + r.2.size
  within : ∀ d ∈ r.1, start ≤ d.start ∨ ∃ c ∈ l, c.start ≤ d.start

theorem Freed.cons {r : List Chunk × Chunk} (h : Freed start size l r top)
    (hc : FreeList (c :: l) top) (hlt : c.start + c.size < start) :
    Freed start size (c :: l) (c :: r.1, r.2) top := by
  obtain ⟨heach, hall, -⟩ := freeList_cons.1 hc
  refine ⟨freeList_cons.2 ⟨heach, fun d hd => ?_, h.list⟩, fun b => ?_, mem_cons_of_mem c h.mem,
    h.le, h.ge, fun d hd => ?_⟩
  · rcases h.within d hd with hle | ⟨e, he, hle⟩
    · omega
    · have := hall e he
      omega
  · have hcover := h.cover b
    rw [cover_cons] at hcover
    rw [cover_cons, cover_cons, cover_cons]
    dsimp only at hcover ⊢
    omega
  · rcases mem_cons.1 hd with rfl | hd
    · exact .inr ⟨d, mem_cons_self, le_rfl⟩
    · rcases h.within d hd with hle | ⟨e, he, hle⟩
      · exact .inl hle
      · exact .inr ⟨e, mem_cons_of_mem c he, hle⟩

section Block

variable (htop : top < 2 ^ 32) (hsize : 0 < size) (hend : start + size ≤ top)
  (hstart32 : 32 ∣ start) (hsize32 : 32 ∣ size)

include htop hsize hend hstart32 hsize32

theorem freeRight_spec (h : FreeList l top) (hall : ∀ c ∈ l, start + size ≤ c.start) :
    Freed start size l (freeRight start size l) top := by
  cases l with
  | nil =>
    refine ⟨freeList_cons.2 ⟨⟨hsize, hend, hstart32, hsize32⟩, fun d hd => ?_, h⟩, fun b => rfl,
      mem_cons_self, le_rfl, le_rfl, fun d hd => ?_⟩
    · exact absurd hd not_mem_nil
    · rw [mem_singleton.1 hd]
      exact .inl le_rfl
  | cons n rest =>
    obtain ⟨⟨hn, hnle, hn1, hn2⟩, hlt, hrest⟩ := freeList_cons.1 h
    have hle := hall n mem_cons_self
    rw [freeRight, word_of_lt (by omega)]
    by_cases habut : start + size = n.start
    · rw [if_neg (not_not.2 habut), wordSub_of_le (by omega) (by omega), word_of_lt (by omega)]
      refine ⟨freeList_cons.2 ⟨⟨?_, ?_, ?_, ?_⟩, fun d hd => ?_, hrest⟩, fun b => ?_,
        mem_cons_self, ?_, ?_, fun d hd => ?_⟩
      · dsimp only
        omega
      · dsimp only
        omega
      · dsimp only
        omega
      · dsimp only
        omega
      · have := hlt d hd
        dsimp only
        omega
      · rw [cover_cons, cover_cons, cover_cons]
        dsimp only
        split_ifs <;> omega
      · dsimp only
        omega
      · dsimp only
        omega
      · rcases mem_cons.1 hd with rfl | hd
        · left
          dsimp only
          omega
        · exact .inr ⟨d, mem_cons_of_mem n hd, le_rfl⟩
    · rw [if_pos habut]
      refine ⟨freeList_cons.2 ⟨⟨hsize, hend, hstart32, hsize32⟩, fun d hd => ?_, h⟩, fun b => rfl,
        mem_cons_self, le_rfl, le_rfl, fun d hd => ?_⟩
      · have := hall d hd
        rcases mem_cons.1 hd with rfl | hd
        · dsimp only
          omega
        · have := hlt d hd
          dsimp only
          omega
      · rcases mem_cons.1 hd with rfl | hd
        · exact .inl le_rfl
        · exact .inr ⟨d, hd, le_rfl⟩

theorem freeBetween_spec (h : FreeList (n :: rest) top) (hn : n.start + n.size ≤ start)
    (hall : ∀ c ∈ rest, start + size ≤ c.start) :
    Freed start size (n :: rest) (freeBetween start size n rest) top := by
  obtain ⟨⟨hpos, hle, hd1, hd2⟩, hlt, hrest⟩ := freeList_cons.1 h
  rw [freeBetween, word_of_lt (by omega)]
  by_cases habut : n.start + n.size = start
  · rw [if_pos habut]
    rw [word_of_lt (by omega : n.size + size < 2 ^ 32)]
    cases rest with
    | nil =>
      refine ⟨freeList_cons.2 ⟨⟨?_, ?_, hd1, ?_⟩, fun d hd => absurd hd not_mem_nil, hrest⟩,
        fun b => ?_, mem_cons_self, ?_, ?_, fun d hd => ?_⟩
      · dsimp only
        omega
      · dsimp only
        omega
      · dsimp only
        omega
      · rw [cover_cons, cover_cons, cover_cons]
        dsimp only
        split_ifs <;> omega
      · dsimp only
        omega
      · dsimp only
        omega
      · rw [mem_singleton.1 hd]
        exact .inr ⟨n, mem_cons_self, le_rfl⟩
    | cons m rest' =>
      obtain ⟨⟨hm, hmle, hm1, hm2⟩, hmlt, hrest'⟩ := freeList_cons.1 hrest
      have hmall := hall m mem_cons_self
      dsimp only
      rw [word_of_lt (by omega : n.start + (n.size + size) < 2 ^ 32)]
      by_cases hjoin : m.start = n.start + (n.size + size)
      · rw [if_pos hjoin, word_of_lt (by omega)]
        refine ⟨freeList_cons.2 ⟨⟨?_, ?_, hd1, ?_⟩, fun d hd => ?_, hrest'⟩, fun b => ?_,
          mem_cons_self, ?_, ?_, fun d hd => ?_⟩
        · dsimp only
          omega
        · dsimp only
          omega
        · dsimp only
          omega
        · have := hmlt d hd
          dsimp only
          omega
        · rw [cover_cons, cover_cons, cover_cons, cover_cons]
          dsimp only
          split_ifs <;> omega
        · dsimp only
          omega
        · dsimp only
          omega
        · rcases mem_cons.1 hd with rfl | hd
          · exact .inr ⟨n, mem_cons_self, le_rfl⟩
          · exact .inr ⟨d, by simp [hd], le_rfl⟩
      · rw [if_neg hjoin]
        refine ⟨freeList_cons.2 ⟨⟨?_, ?_, hd1, ?_⟩, fun d hd => ?_, hrest⟩, fun b => ?_,
          mem_cons_self, ?_, ?_, fun d hd => ?_⟩
        · dsimp only
          omega
        · dsimp only
          omega
        · dsimp only
          omega
        · have := hall d hd
          rcases mem_cons.1 hd with rfl | hd
          · dsimp only
            omega
          · have := hmlt d hd
            dsimp only
            omega
        · rw [cover_cons _ (m :: rest'), cover_cons _ (n :: m :: rest'), cover_cons _ (m :: rest')]
          dsimp only
          split_ifs <;> omega
        · dsimp only
          omega
        · dsimp only
          omega
        · rcases mem_cons.1 hd with rfl | hd
          · exact .inr ⟨n, mem_cons_self, le_rfl⟩
          · exact .inr ⟨d, mem_cons_of_mem n hd, le_rfl⟩
  · rw [if_neg habut]
    exact (freeRight_spec htop hsize hend hstart32 hsize32 hrest hall).cons h (by omega)

theorem freeWalk_spec : ∀ {l : List Chunk} {p : Chunk}, FreeList (p :: l) top → p.start ≤ start →
    (∀ c ∈ p :: l, c.start + c.size ≤ start ∨ start + size ≤ c.start) →
    Freed start size (p :: l) (freeWalk start size p l) top := by
  intro l
  induction l with
  | nil =>
    intro p h hp hall
    have := hall p mem_cons_self
    exact freeBetween_spec htop hsize hend hstart32 hsize32 h (by omega)
      fun c hc => absurd hc not_mem_nil
  | cons q rest ih =>
    intro p h hp hall
    have hpall := hall p mem_cons_self
    have hqall := hall q (by simp)
    obtain ⟨-, hlt, hrest⟩ := freeList_cons.1 h
    have hpq := hlt q mem_cons_self
    rw [freeWalk]
    by_cases hq : start < q.start
    · rw [if_pos hq]
      refine freeBetween_spec htop hsize hend hstart32 hsize32 h (by omega) fun c hc => ?_
      have := hall c (mem_cons_of_mem p hc)
      rcases mem_cons.1 hc with rfl | hc
      · omega
      · have := (freeList_cons.1 hrest).2.1 c hc
        omega
    · rw [if_neg hq]
      exact (ih hrest (by omega) fun c hc => hall c (mem_cons_of_mem p hc)).cons h (by omega)

theorem free_spec (h : FreeList l top) (hfree : ∀ b, start ≤ b → b < start + size → cover l b = 0) :
    Freed start size l (free start size l) top := by
  have hall : ∀ c ∈ l, c.start + c.size ≤ start ∨ start + size ≤ c.start := fun c hc =>
    disjoint_of_cover hc (h.each c hc).1 hsize hfree
  cases l with
  | nil =>
    exact freeRight_spec htop hsize hend hstart32 hsize32 h fun c hc => absurd hc not_mem_nil
  | cons p rest =>
    rw [free]
    by_cases hp : start < p.start
    · rw [if_pos hp]
      refine freeRight_spec htop hsize hend hstart32 hsize32 h fun c hc => ?_
      have := hall c hc
      rcases mem_cons.1 hc with rfl | hc
      · omega
      · have := (freeList_cons.1 h).2.1 c hc
        omega
    · rw [if_neg hp]
      exact freeWalk_spec htop hsize hend hstart32 hsize32 h (by omega) hall

end Block

end Chunker

end OpenBinder
