import OpenBinder.Bitfield.Bitfield

/-!
# Bitfields are lists of booleans

* `Refines.cases`: the two places the bits are in.
* `Refines.fill_fits`, `Refines.fits_of_fill`: which ranges are filled as those of the list.
* `Refines.resize`: what fits is resized as the list.
-/

namespace OpenBinder.SBitfield

open Lib List Option

variable {f f' : SBitfield} {l : List Bool} {value : Bool} {start len bits : ℕ}

/-! ### Reading a field -/

theorem Refines.cases (h : Refines f l) :
    (∃ word, f = ⟨l.length, .inlineBits word⟩ ∧ l.length ≤ 32 ∧
      ∀ i < l.length, word.getMsbD i = l.getD i false) ∨
    ∃ words, f = ⟨l.length, .bits words⟩ ∧ 32 < l.length ∧ words.length = (l.length + 31) / 32 ∧
      ∀ i < l.length, bitAt words i = l.getD i false := by
  obtain ⟨numBits, store⟩ := f
  obtain rfl : numBits = l.length := h.numBits
  cases store with
  | inlineBits word => exact .inl ⟨word, rfl, h.inline word rfl⟩
  | bits words => exact .inr ⟨words, rfl, h.heap words rfl⟩

variable {n : ℕ} {words : List (BitVec 32)} {memory : Memory}

theorem refines_inline {word : BitVec 32} (hn : l.length = n) (hle : n ≤ 32)
    (hbits : ∀ i < n, word.getMsbD i = l.getD i false) : Refines ⟨n, .inlineBits word⟩ l where
  numBits := by rw [hn]
  small := by omega
  inline := by
    rintro _ ⟨⟩
    exact ⟨by omega, fun i hi => hbits i (by omega)⟩
  heap := nofun

theorem refines_heap (hn : l.length = n) (hlt : 32 < n) (hsmall : n < 2 ^ 31)
    (hlen : words.length = (n + 31) / 32) (hbits : ∀ i < n, bitAt words i = l.getD i false) :
    Refines ⟨n, .bits words⟩ l where
  numBits := by rw [hn]
  small := by omega
  inline := nofun
  heap := by
    rintro _ ⟨⟩
    rw [hn]
    exact ⟨hlt, hlen, hbits⟩

theorem getD_fillList {i : ℕ} (hle : start + len ≤ l.length) (hi : i < l.length) :
    (fillList value l start len).1.getD i false =
      if start ≤ i ∧ i < start + len then value else l.getD i false := by
  unfold fillList
  rw [if_pos hle, getD_eq_getElem?_getD, List.getElem?_mapIdx, getD_eq_getElem?_getD,
    List.getElem?_eq_getElem hi]
  rfl

theorem length_fillList (value : Bool) (l : List Bool) (start len : ℕ) :
    (fillList value l start len).1.length = l.length := by
  unfold fillList
  split
  · exact length_mapIdx
  · rfl

/-! ### Filling a range -/

/-- The masks of a range that is not empty, or not at the start of a word. -/
structure Masked (start len : ℕ) (info : FillInfo) : Prop where
  first : info.startWord = start / 32
  last : info.endWord = (start + len - 1) / 32
  left : info.leftMask = leftMask (start % 32)
  right : info.rightMask = rightMask ((start + len - 1) % 32)
  between : info.startWord < info.endWord →
    info.numWords * 4 % 2 ^ 32 / 4 = info.endWord - info.startWord - 1

theorem masked (hsum : start + len < 2 ^ 31) (hlen : len = 0 → start % 32 ≠ 0) :
    Masked start len (computeMasks start len) := by
  have hlast : (start + len + (2 ^ 32 - 1)) % 2 ^ 32 = start + len - 1 := by omega
  refine ⟨rfl, ?_, rfl, ?_, fun hlt => ?_⟩
  · unfold computeMasks
    rw [hlast]
  · unfold computeMasks
    rw [hlast]
  · unfold computeMasks at hlt ⊢
    dsimp only at hlt ⊢
    rw [hlast] at hlt ⊢
    have hwords : ((start + len - 1) / 32 + 2 ^ 32 - start / 32) % 2 ^ 32 =
        (start + len - 1) / 32 - start / 32 := by omega
    rw [hwords, if_pos (by omega)]
    omega

theorem getMsbD_masks {a b j : ℕ} (hb : b < 32) (hj : j < 32) :
    (leftMask a &&& rightMask b).getMsbD j = decide (a ≤ j ∧ j ≤ b) := by
  rw [BitVec.getMsbD_and, getMsbD_leftMask, getMsbD_rightMask hb]
  grind

theorem fillHeap_spec (value : Bool) (words : List (BitVec 32)) {info : FillInfo}
    (hinfo : Masked start len info) (hsum : 0 < start + len) (hlen : len = 0 → start % 32 ≠ 0)
    (hle : start + len ≤ 32 * words.length) :
    ∃ words', fillHeap value info words = some words' ∧ words'.length = words.length ∧
      ∀ i, bitAt words' i = if start ≤ i ∧ i < start + len then value else bitAt words i := by
  obtain ⟨hfirst, hlast, hleft, hright, hbetween⟩ := hinfo
  unfold fillHeap
  by_cases hone : info.startWord = info.endWord
  · rw [if_pos hone]
    obtain ⟨words', hset, hlen', hbit⟩ := modifyWord_putMask words value
      (info.leftMask &&& info.rightMask) (show info.startWord < words.length by omega)
    refine ⟨words', hset, hlen', fun i => ?_⟩
    rw [hbit, hleft, hright, getMsbD_masks (Nat.mod_lt _ (by decide)) (Nat.mod_lt _ (by decide))]
    refine if_congr ?_ rfl rfl
    simp only [decide_eq_true_eq]
    omega
  · have hlt : info.startWord < info.endWord := by omega
    rw [if_neg hone]
    obtain ⟨words₁, hset₁, hlen₁, hbit₁⟩ := modifyWord_putMask words value info.leftMask
      (show info.startWord < words.length by omega)
    rw [hset₁, bind_some]
    -- the whole words, if there are any
    obtain ⟨words₂, hset₂, hlen₂, hbit₂⟩ : ∃ words₂, (if info.numWords ≠ 0 then
          fillWords words₁ (info.startWord + 1) (info.numWords * 4 % 2 ^ 32 / 4)
            (if value then 0xFFFFFFFF#32 else 0)
        else some words₁) = some words₂ ∧ words₂.length = words₁.length ∧
          ∀ i, bitAt words₂ i =
            if info.startWord < i / 32 ∧ i / 32 < info.endWord then value else bitAt words₁ i := by
      by_cases h0 : info.numWords ≠ 0
      · rw [if_pos h0, hbetween hlt]
        obtain ⟨words₂, hfill, hlen₂, hbit₂⟩ := fillWords_value words₁ value
          (show info.startWord + 1 + (info.endWord - info.startWord - 1) ≤ words₁.length by omega)
        refine ⟨words₂, hfill, hlen₂, fun i => ?_⟩
        rw [hbit₂]
        refine if_congr ?_ rfl rfl
        omega
      · rw [if_neg h0]
        have hnone := hbetween hlt
        rw [not_not.1 h0] at hnone
        refine ⟨words₁, rfl, rfl, fun i => ?_⟩
        rw [if_neg (by omega)]
    rw [hset₂, bind_some]
    obtain ⟨words₃, hset₃, hlen₃, hbit₃⟩ := modifyWord_putMask words₂ value info.rightMask
      (show info.endWord < words₂.length by omega)
    refine ⟨words₃, hset₃, by omega, fun i => ?_⟩
    rw [hbit₃, hbit₂, hbit₁, hleft, hright, getMsbD_rightMask (Nat.mod_lt _ (by decide)),
      getMsbD_leftMask]
    simp only [decide_eq_true_eq]
    split
    · rw [if_pos (by omega)]
    · split
      · rw [if_pos (by omega)]
      · refine if_congr ?_ rfl rfl
        omega

theorem Refines.fill (h : Refines f l) (value : Bool) (hle : start + len ≤ l.length)
    (hlen : len = 0 → start % 32 ≠ 0) :
    ∃ f', SBitfield.fill value f start len = some (f', true) ∧
      Refines f' (fillList value l start len).1 := by
  have hsmall := h.small
  have hpos : 0 < start + len := by
    by_contra h0
    omega
  obtain ⟨hfirst, hlast, hleft, hright, hbetween⟩ := masked (by omega) hlen
  set info := computeMasks start len with hinfo
  have hcheck : ¬ f.numBits < ssize (start + len) := by
    rw [h.numBits, ssize_of_lt (by omega) (by omega)]
    omega
  unfold SBitfield.fill
  rw [if_neg hcheck]
  rw [← hinfo]
  rcases h.cases with ⟨word, rfl, hl32, hbits⟩ | ⟨words, rfl, hl32, hwords, hbits⟩
  · rw [if_pos (by unfold IsInline; dsimp only; omega)]
    refine ⟨_, rfl, ?_⟩
    refine refines_inline (length_fillList value l start len) hl32 fun i hi => ?_
    rw [getD_fillList hle hi, getMsbD_putMask _ _ _ (by omega), hleft, hright,
      getMsbD_masks (Nat.mod_lt _ (by decide)) (by omega), hbits i hi]
    simp only [decide_eq_true_eq]
    refine if_congr ?_ rfl rfl
    omega
  · rw [if_neg (by unfold IsInline; dsimp only; omega)]
    obtain ⟨words', hfill, hlen', hbit⟩ := fillHeap_spec value words
      ⟨hfirst, hlast, hleft, hright, hbetween⟩ hpos hlen (by omega)
    refine ⟨⟨l.length, .bits words'⟩, ?_, ?_⟩
    · show (fillHeap value info words).map _ = _
      rw [hfill]
      rfl
    · refine refines_heap (length_fillList value l start len) hl32 hsmall (hlen'.trans hwords)
        fun i hi => ?_
      rw [getD_fillList hle hi, hbit, hbits i hi]

/-- An inline field has no bits, or 32. -/
def Whole (l : List Bool) : Prop := l.length ≤ 32 → l.length = 0 ∨ l.length = 32

theorem fillList_empty (value : Bool) (l : List Bool) (start : ℕ) :
    (fillList value l start 0).1 = l := by
  unfold fillList
  split
  · refine ext_getElem? fun i => ?_
    have hout : ¬ (start ≤ i ∧ i < start + 0) := by omega
    rw [List.getElem?_mapIdx]
    simp only [hout, if_false, Option.map_id']
  · rfl

/-- The masks of an empty range at the start of a word are those of all of it. -/
theorem computeMasks_empty (hstart : start % 32 = 0) (hlt : start < 2 ^ 31) :
    (computeMasks start 0).leftMask &&& (computeMasks start 0).rightMask = 0xFFFFFFFF#32 ∧
      (computeMasks start 0).startWord = start / 32 ∧
      (computeMasks start 0).startWord ≠ (computeMasks start 0).endWord ∧
      2 ^ 27 - 2 ≤ (computeMasks start 0).numWords * 4 % 2 ^ 32 / 4 := by
  have hlast : (start + 0 + (2 ^ 32 - 1)) % 2 ^ 32 % 32 = 31 := by omega
  unfold computeMasks
  dsimp only
  rw [hlast, hstart]
  refine ⟨by decide, rfl, ?_, ?_⟩
  · by_cases h0 : start = 0
    · subst h0
      decide
    · omega
  · by_cases h0 : start = 0
    · subst h0
      decide
    · have hwords : ((start + 0 + (2 ^ 32 - 1)) % 2 ^ 32 / 32 + 2 ^ 32 - start / 32) % 2 ^ 32 =
          2 ^ 32 - 1 := by omega
      rw [hwords]
      decide

theorem fillHeap_empty (value : Bool) (hstart : start % 32 = 0) (hlt : start < 2 ^ 31)
    (hwords : words.length ≤ 2 ^ 26) :
    fillHeap value (computeMasks start 0) words = none := by
  obtain ⟨-, hfirst, hne, hlarge⟩ := computeMasks_empty hstart hlt
  unfold fillHeap
  rw [if_neg hne]
  cases hm : modifyWord words (computeMasks start 0).startWord
    (putMask value (computeMasks start 0).leftMask) with
  | none => rfl
  | some words₁ =>
    have hlen := (bitAt_modifyWord hm 0).1
    rw [bind_some, if_pos, fillWords, if_neg (by omega)]
    · rfl
    · intro h0
      rw [h0] at hlarge
      exact absurd hlarge (by decide)

theorem putMask_allOnes (value : Bool) (word : BitVec 32) :
    putMask value 0xFFFFFFFF#32 word = if value then 0xFFFFFFFF#32 else 0 := by
  unfold putMask
  cases value with
  | false => exact (congrArg (word &&& ·) (by decide)).trans BitVec.and_zero
  | true => exact BitVec.or_allOnes

/-- **A range is filled as in the list**, where it is filled right. -/
theorem Refines.fill_fits (h : Refines f l) (hfits : FitsFill value f start len) :
    ∃ f', SBitfield.fill value f start len = some (f', (fillList value l start len).2) ∧
      Refines f' (fillList value l start len).1 := by
  have hsmall := h.small
  by_cases hreject : f.numBits < ssize (start + len)
  · have hout : ¬ start + len ≤ l.length := by
      intro hle
      rw [h.numBits, ssize_of_lt (by omega) (by omega)] at hreject
      omega
    unfold SBitfield.fill fillList
    rw [if_pos hreject, if_neg hout]
    exact ⟨f, rfl, h⟩
  · obtain ⟨hle, hempty⟩ := hfits.resolve_left hreject
    have hle' : start + len ≤ l.length := by
      rw [h.numBits] at hle
      exact_mod_cast hle
    have hok : (fillList value l start len).2 = true := by
      unfold fillList
      rw [if_pos hle']
    rw [hok]
    by_cases hbad : len = 0 ∧ start % 32 = 0
    · obtain ⟨rfl, hstart⟩ := hbad
      rw [fillList_empty]
      have hcase := (hempty rfl).resolve_left (not_not.2 hstart)
      obtain ⟨hmask, -⟩ := computeMasks_empty hstart (by omega)
      unfold SBitfield.fill
      rw [if_neg hreject]
      dsimp only
      rw [hmask]
      rcases h.cases with ⟨word, rfl, hl32, hbits⟩ | ⟨words, rfl, hl32, -⟩
      · rw [if_pos (by unfold IsInline; dsimp only; omega)]
        refine ⟨_, rfl, ?_⟩
        rw [putMask_allOnes]
        rcases hcase with h0 | hfull
        · refine refines_inline rfl hl32 fun i hi => ?_
          have h0' : (l.length : ℤ) = 0 := h0
          omega
        · have hword : word = if value then 0xFFFFFFFF#32 else 0 := Bits.inlineBits.inj hfull
          rw [← hword]
          exact h
      · rcases hcase with h0 | hfull
        · have h0' : (l.length : ℤ) = 0 := h0
          omega
        · cases hfull
    · exact h.fill value hle' fun h0 hstart => hbad ⟨h0, hstart⟩

theorem Refines.fits_of_fill (h : Refines f l) (hwhole : Whole l)
    (hfill : SBitfield.fill value f start len = some (f', (fillList value l start len).2))
    (h' : Refines f' (fillList value l start len).1) : FitsFill value f start len := by
  have hsmall := h.small
  by_cases hreject : f.numBits < ssize (start + len)
  · exact .inl hreject
  · right
    unfold SBitfield.fill at hfill
    rw [if_neg hreject] at hfill
    have hok : (fillList value l start len).2 = true := by
      split at hfill
      · obtain ⟨_, -, heq⟩ := map_eq_some_iff.1 hfill
        exact (congrArg Prod.snd heq).symm
      · obtain ⟨_, -, heq⟩ := bind_eq_some_iff.1 hfill
        obtain ⟨_, -, heq⟩ := map_eq_some_iff.1 heq
        exact (congrArg Prod.snd heq).symm
    have hle : start + len ≤ l.length := by
      by_contra hout
      unfold fillList at hok
      rw [if_neg hout] at hok
      cases hok
    refine ⟨by rw [h.numBits]; exact_mod_cast hle, ?_⟩
    rintro rfl
    by_contra hbad
    rw [not_or, not_or, not_not] at hbad
    obtain ⟨hstart, h0, hfull⟩ := hbad
    rw [fillList_empty] at h'
    obtain ⟨hmask, -⟩ := computeMasks_empty hstart (by omega)
    rcases h.cases with ⟨word, rfl, hl32, hbits⟩ | ⟨words, rfl, hl32, hwords, -⟩
    · rw [if_pos (by unfold IsInline; dsimp only; omega), hmask] at hfill
      simp only [SBitfield.word, map_some, putMask_allOnes] at hfill
      obtain rfl := (congrArg Prod.fst (Option.some.inj hfill)).symm
      dsimp only at h0
      have h32 : l.length = 32 := (hwhole hl32).resolve_left (by omega)
      -- all bits of the word are as they were
      refine hfull (congrArg Bits.inlineBits (BitVec.eq_of_getMsbD_eq fun i hi => ?_))
      rw [hbits i (by omega), (h'.inline _ rfl).2 i (by omega)]
    · rw [if_neg (by unfold IsInline; dsimp only; omega)] at hfill
      have hnone := fillHeap_empty value hstart (by omega) (show words.length ≤ 2 ^ 26 by omega)
      simp only [SBitfield.words, bind_some, hnone, map_none] at hfill
      cases hfill

/-! ### Resizing -/

theorem length_resizeList (l : List Bool) (n : ℕ) : (resizeList l n).length = n := by
  unfold resizeList
  rw [length_append, length_take, length_replicate]
  omega

theorem getD_resizeList (l : List Bool) {i : ℕ} (hi : i < n) :
    (resizeList l n).getD i false = l.getD i false := by
  unfold resizeList
  simp only [getD_eq_getElem?_getD]
  by_cases hl : i < l.length
  · rw [List.getElem?_append_left (by simp; omega), List.getElem?_take_of_lt hi]
  · rw [List.getElem?_append_right (by simp; omega), List.getElem?_replicate,
      List.getElem?_eq_none (by omega)]
    split <;> rfl

theorem ext_getD {l' : List Bool} (hlen : l.length = l'.length)
    (h : ∀ i < l.length, l.getD i false = l'.getD i false) : l = l' := by
  refine ext_getElem hlen fun i hi hi' => ?_
  have heq := h i hi
  rwa [getD_eq_getElem _ _ hi, getD_eq_getElem _ _ hi'] at heq

theorem clearGrown_spec (hlt : l.length < bits) (h32 : 32 < bits) (hsmall : bits < 2 ^ 31)
    (hlen : words.length = (bits + 31) / 32)
    (hbits : ∀ i < l.length, bitAt words i = l.getD i false) :
    ∃ f', clearGrown ⟨bits, .bits words⟩ l.length bits = some (f', true) ∧
      Refines f' (resizeList l bits) := by
  -- the field with what there happens to be in the new words
  set junk := (List.range bits).map (bitAt words) with hjunk
  have hjl : junk.length = bits := by simp [hjunk]
  have hj : ∀ i < bits, junk.getD i false = bitAt words i := by
    intro i hi
    rw [getD_eq_getElem _ _ (by omega)]
    simp [hjunk]
  have href : Refines ⟨bits, .bits words⟩ junk :=
    refines_heap hjl h32 hsmall hlen fun i hi => (hj i hi).symm
  obtain ⟨f', hfill, hf'⟩ := href.fill false
    (show l.length + (bits - l.length) ≤ junk.length by omega) (by omega)
  refine ⟨f', ?_, ?_⟩
  · unfold clearGrown clear
    rw [size_of_lt (by omega) (by omega), size_of_lt (by omega) (by omega), Int.toNat_natCast,
      show ((bits : ℤ) - l.length).toNat = bits - l.length by omega, hfill]
    rfl
  · have heq : (fillList false junk l.length (bits - l.length)).1 = resizeList l bits := by
      refine ext_getD (by rw [length_fillList, length_resizeList, hjl]) fun i hi => ?_
      rw [length_fillList, hjl] at hi
      rw [getD_fillList (by omega) (by omega), getD_resizeList l hi, hj i hi]
      by_cases hl : i < l.length
      · rw [if_neg (by omega), hbits i hl]
      · rw [if_pos (by omega), getD_eq_default _ _ (by omega)]
    rw [← heq]
    exact hf'

theorem bitAt_congr {words' : List (BitVec 32)} {i : ℕ} (h : words'[i / 32]? = words[i / 32]?) :
    bitAt words' i = bitAt words i := by
  unfold bitAt
  rw [getD_eq_getElem?_getD, getD_eq_getElem?_getD, h]

theorem length_realloc {newbuf : List (BitVec 32)} (h : realloc words n memory = some newbuf) :
    newbuf.length = n := by
  obtain ⟨junk, -, rfl⟩ := map_eq_some_iff.1 h
  simp
  omega

theorem getElem?_realloc {newbuf : List (BitVec 32)} {k : ℕ}
    (h : realloc words n memory = some newbuf) (hk : k < n) (hk' : k < words.length) :
    newbuf[k]? = words[k]? := by
  obtain ⟨junk, -, rfl⟩ := map_eq_some_iff.1 h
  rw [List.getElem?_append_left (by simp; omega), List.getElem?_take_of_lt hk]

theorem allocSize_eq (h : bits < 2 ^ 31) : allocSize bits = (bits + 31) / 32 := by
  unfold allocSize
  rw [Nat.mod_eq_of_lt (by omega)]

theorem Refines.resize_none (h : Refines f l) (h0 : f.numBits = 0) :
    SBitfield.resize f 0 memory = some (f, true) ∧ Refines f (resizeList l 0) := by
  have hl0 : l = [] := by
    rw [h.numBits] at h0
    exact length_eq_zero_iff.1 (by omega)
  subst hl0
  have hz : ssize ((0 : ℕ) : ℤ) = 0 := ssize_of_lt (by omega) (by omega)
  refine ⟨?_, h⟩
  unfold SBitfield.resize
  rw [if_pos (by rw [hz, h0]), if_pos (by unfold IsInline; omega)]

theorem Refines.resize_word (h : Refines f l) (hwhole : Whole l) :
    ∃ f', SBitfield.resize f 32 memory = some (f', true) ∧ Refines f' (resizeList l 32) := by
  have hs32 : ssize ((32 : ℕ) : ℤ) = 32 := ssize_of_lt (by omega) (by omega)
  unfold SBitfield.resize
  rw [hs32]
  rcases h.cases with ⟨word, rfl, hl32, hbits⟩ | ⟨words, rfl, hl32, hwords, hbits⟩
  · rcases hwhole hl32 with hl | hl
    · rw [if_neg (by dsimp only; omega), if_neg (by omega), if_neg (by simp [hl])]
      refine ⟨⟨32, .inlineBits 0⟩, rfl,
        refines_inline (n := 32) (length_resizeList l 32) (Nat.le_refl 32) fun i hi => ?_⟩
      rw [getD_resizeList l hi, getD_eq_default _ _ (by omega)]
      exact BitVec.getMsbD_zero
    · rw [if_pos (by dsimp only; omega), if_pos (by unfold IsInline; dsimp only; omega)]
      refine ⟨⟨l.length, .inlineBits word⟩, rfl, ?_⟩
      have heq : resizeList l 32 = l :=
        ext_getD (by rw [length_resizeList, hl]) fun i hi =>
          getD_resizeList l (by rw [length_resizeList] at hi; exact hi)
      rw [heq]
      exact h
  · rw [if_pos (by dsimp only; omega), if_neg (by unfold IsInline; dsimp only; omega)]
    obtain ⟨word, rest, rfl⟩ : ∃ word rest, words = word :: rest :=
      exists_cons_of_length_pos (by omega)
    refine ⟨⟨32, .inlineBits word⟩, rfl,
      refines_inline (n := 32) (length_resizeList l 32) (Nat.le_refl 32) fun i hi => ?_⟩
    rw [getD_resizeList l hi, ← hbits i (by omega)]
    unfold bitAt
    rw [Nat.div_eq_of_lt hi, Nat.mod_eq_of_lt hi]
    rfl

theorem word_inlineBits (numBits : ℤ) (word : BitVec 32) :
    (⟨numBits, .inlineBits word⟩ : SBitfield).word = some word := rfl

theorem words_bits (numBits : ℤ) (words : List (BitVec 32)) :
    (⟨numBits, .bits words⟩ : SBitfield).words = some words := rfl

theorem malloc_some (size : ℕ) (junk : ℕ → BitVec 32) :
    malloc size (some junk) = some ((List.range size).map junk) := rfl

theorem Refines.resize_heap (h : Refines f l) (h32 : 32 < bits) (hlarge : bits < 2 ^ 31)
    (junk : ℕ → BitVec 32) (hround : 32 < f.numBits → f.numBits < bits → bits % 32 = 0) :
    ∃ f', SBitfield.resize f bits (some junk) = some (f', true) ∧
      Refines f' (resizeList l bits) := by
  have halloc := allocSize_eq hlarge
  unfold SBitfield.resize
  rw [ssize_of_lt (by omega) (by omega)]
  rcases h.cases with ⟨word, rfl, hl32, hbits⟩ | ⟨words, rfl, hl32, hwords, hbits⟩
  · rw [if_neg (by dsimp only; omega), if_pos h32, if_pos (by unfold IsInline; dsimp only; omega)]
    rw [word_inlineBits, malloc_some, bind_some, bind_some]
    refine clearGrown_spec (by omega) h32 hlarge (by simp [halloc]) fun i hi => ?_
    rw [← hbits i hi]
    unfold bitAt
    rw [Nat.div_eq_of_lt (by omega), Nat.mod_eq_of_lt (by omega),
      getD_eq_getElem _ _ (by simp [halloc]; omega), getElem_set_self]
  · by_cases hle : (bits : ℤ) ≤ l.length
    · rw [if_pos hle, if_neg (by unfold IsInline; dsimp only; omega)]
      rw [words_bits, bind_some, if_neg (by omega)]
      obtain ⟨newbuf, hnew⟩ : ∃ newbuf, realloc words (allocSize bits) (some junk) = some newbuf :=
        isSome_iff_exists.1 rfl
      rw [hnew, getD_some]
      refine ⟨⟨bits, .bits newbuf⟩, rfl, refines_heap (length_resizeList l bits) h32 hlarge
        (by rw [length_realloc hnew, halloc]) fun i hi => ?_⟩
      rw [getD_resizeList l hi, ← hbits i (by omega)]
      exact bitAt_congr (getElem?_realloc hnew (by omega) (by omega))
    · have hround' := hround (by dsimp only; omega) (by dsimp only; omega)
      rw [if_neg hle, if_pos h32, if_neg (by unfold IsInline; dsimp only; omega)]
      obtain ⟨newbuf, hnew⟩ : ∃ newbuf, realloc words (bits / 8 / 4) (some junk) = some newbuf :=
        isSome_iff_exists.1 rfl
      rw [words_bits, bind_some, hnew]
      refine clearGrown_spec (by omega) h32 hlarge ?_ fun i hi => ?_
      · rw [length_realloc hnew]
        omega
      · rw [← hbits i hi]
        exact bitAt_congr (getElem?_realloc hnew (by omega) (by omega))

theorem Refines.resize (h : Refines f l) (hwhole : Whole l) (hfits : FitsResize f bits memory) :
    ∃ f', SBitfield.resize f bits memory = some (f', true) ∧ Refines f' (resizeList l bits) := by
  rcases hfits with ⟨rfl, h0⟩ | rfl | ⟨h32, hlarge, hmem, hround⟩
  · exact ⟨f, h.resize_none h0⟩
  · exact h.resize_word hwhole
  · obtain ⟨junk, rfl⟩ := ne_none_iff_exists'.1 hmem
    exact h.resize_heap h32 hlarge junk hround

end OpenBinder.SBitfield
