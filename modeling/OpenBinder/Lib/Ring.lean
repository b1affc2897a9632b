import Mathlib.Data.List.Basic

/-!
# A ring of slots

A producer and a consumer share a block of `size` slots. What is between them goes around the end
of the block.

* `place`, `fetch`: copying into and out of the block, in one or two pieces.
* `Ring`: the state of the two, each of which may have copied but not yet said so. `accepted` is what
  the producer has handed over and `received` what the consumer has given back the slots of.
* `Ring.place`, `Ring.commit`, `Ring.fetch`, `Ring.release`: the four steps, in any order.
-/

namespace OpenBinder.Lib

open Nat

open List

variable {α : Type*}

/-- The slots with data copied to an offset. -/
def copyIn [Inhabited α] (slots : ℕ → α) (offset : ℕ) (data : List α) : ℕ → α := fun j =>
  if offset ≤ j ∧ j < offset + data.length then data.getD (j - offset) default else slots j

/-- What is in the slots from an offset on. -/
def slice (slots : ℕ → α) (offset n : ℕ) : List α := (List.range n).map fun i => slots (offset + i)

/-- What is in the slots from one on, around the end of the block. -/
def window (size : ℕ) (slots : ℕ → α) (start n : ℕ) : List α :=
  (List.range n).map fun i => slots ((start + i) % size)

/-- Data copied to an offset, in one or two pieces. -/
def place [Inhabited α] (size : ℕ) (slots : ℕ → α) (offset : ℕ) (data : List α) : ℕ → α :=
  if data.length ≤ size - offset then copyIn slots offset data
  else copyIn (copyIn slots offset (data.take (size - offset))) 0 (data.drop (size - offset))

/-- What is copied out from an offset, in one or two pieces. -/
def fetch (size : ℕ) (slots : ℕ → α) (offset n : ℕ) : List α :=
  if n ≤ size - offset then slice slots offset n
  else slice slots offset (size - offset) ++ slice slots 0 (n - (size - offset))

/-- The offset after `n` more slots. -/
def advance (size offset n : ℕ) : ℕ :=
  if n ≤ size - offset then (if offset + n = size then 0 else offset + n) else n - (size - offset)

variable {size start n m offset : ℕ} {slots : ℕ → α} {data : List α}

theorem mod_of_lt_two {a : ℕ} (h : a < 2 * size) : a % size = if a < size then a else a - size := by
  split
  · exact Nat.mod_eq_of_lt ‹_›
  · rw [mod_eq_sub_mod (by omega), Nat.mod_eq_of_lt (by omega)]

theorem advance_eq (ho : offset < size) (hn : n ≤ size) :
    advance size offset n = (offset + n) % size := by
  rw [mod_of_lt_two (by omega)]
  unfold advance
  split
  · split <;> split <;> omega
  · split <;> omega

@[simp] theorem window_length : (window size slots start n).length = n := by
  unfold window
  rw [length_map, length_range]

theorem window_getElem {i : ℕ} (h : i < (window size slots start n).length) :
    (window size slots start n)[i] = slots ((start + i) % size) := by
  simp [window]

theorem window_add : window size slots start (n + m) =
    window size slots start n ++ window size slots ((start + n) % size) m := by
  unfold window
  rw [range_add, map_append, map_map]
  congr 1
  apply map_congr_left
  intro i _
  show slots ((start + (n + i)) % size) = _
  rw [Nat.mod_add_mod, Nat.add_assoc]

theorem window_take (h : m ≤ n) : (window size slots start n).take m = window size slots start m := by
  obtain ⟨k, rfl⟩ := Nat.exists_eq_add_of_le h
  rw [window_add, take_left' window_length]

theorem fetch_eq_window (ho : offset < size) (hn : n ≤ size) :
    fetch size slots offset n = window size slots offset n := by
  have hslice : ∀ {start k : ℕ}, start + k ≤ size →
      slice slots start k = window size slots start k := by
    intro start k hk
    unfold slice window
    apply map_congr_left
    intro i hi
    have := mem_range.1 hi
    rw [Nat.mod_eq_of_lt (by omega)]
  unfold fetch
  split
  · exact hslice (by omega)
  · have hsplit : n = size - offset + (n - (size - offset)) := by omega
    rw [hslice (by omega), hslice (by omega)]
    nth_rewrite 2 [hsplit]
    rw [window_add, show offset + (size - offset) = size by omega, mod_self]

/-- **A slot after copying in**: by how far it is from the offset. -/
theorem place_apply [Inhabited α] (ho : offset < size) (hd : data.length ≤ size) {j : ℕ} (hj : j < size) :
    place size slots offset data j =
      if (j + size - offset) % size < data.length then data.getD ((j + size - offset) % size) default
      else slots j := by
  have hdist : (j + size - offset) % size = if offset ≤ j then j - offset else j + size - offset := by
    rw [mod_of_lt_two (by omega)]
    split <;> split <;> omega
  rw [hdist]
  unfold place
  split
  · unfold copyIn
    by_cases hjo : offset ≤ j
    · rw [if_pos hjo]
      by_cases hlt : j - offset < data.length
      · rw [if_pos ⟨hjo, by omega⟩, if_pos hlt]
      · rw [if_neg (by omega), if_neg hlt]
    · rw [if_neg hjo, if_neg (by omega), if_neg (by omega)]
  · have hdrop : (data.drop (size - offset)).length = data.length - (size - offset) :=
      length_drop
    have htake : (data.take (size - offset)).length = size - offset := by
      rw [length_take]
      omega
    unfold copyIn
    rw [hdrop, htake]
    by_cases hjo : offset ≤ j
    · rw [if_neg (by omega), if_pos ⟨hjo, by omega⟩, if_pos hjo, if_pos (by omega)]
      simp only [getD_eq_getElem?_getD]
      rw [List.getElem?_take_of_lt (by omega)]
    · rw [if_neg hjo]
      by_cases hlt : j + size - offset < data.length
      · rw [if_pos ⟨Nat.zero_le j, by omega⟩, if_pos hlt]
        simp only [getD_eq_getElem?_getD]
        rw [List.getElem?_drop, show size - offset + (j - 0) = j + size - offset by omega]
      · rw [if_neg (by omega), if_neg (by omega), if_neg hlt]

/-- **What was copied in is there.** -/
theorem window_place [Inhabited α] (ho : offset < size) (hd : data.length ≤ size) :
    window size (place size slots offset data) offset data.length = data := by
  apply ext_getElem window_length
  intro i h1 h2
  have hi : (offset + i) % size = if offset + i < size then offset + i else offset + i - size :=
    mod_of_lt_two (by omega)
  have hlt : (offset + i) % size < size := mod_lt _ (by omega)
  have hdist : ((offset + i) % size + size - offset) % size = i := by
    rw [hi, mod_of_lt_two (by split <;> omega)]
    split <;> split <;> omega
  rw [window_getElem, place_apply ho hd hlt, hdist, if_pos h2, getD_eq_getElem?_getD,
    List.getElem?_eq_getElem h2]
  rfl

/-- **What is in front of the offset is not touched.** -/
theorem window_place_of_disjoint [Inhabited α] (hs : start < size) (hn : n + data.length ≤ size)
    (ho : offset = (start + n) % size) :
    window size (place size slots offset data) start n = window size slots start n := by
  unfold window
  apply map_congr_left
  intro i hi
  have hin := mem_range.1 hi
  have hoff : offset = if start + n < size then start + n else start + n - size := by
    rw [ho]
    exact mod_of_lt_two (by omega)
  have hi' : (start + i) % size = if start + i < size then start + i else start + i - size :=
    mod_of_lt_two (by omega)
  have hlt : (start + i) % size < size := mod_lt _ (by omega)
  have holt : offset < size := by
    rw [ho]
    exact mod_lt _ (by omega)
  have hdist : ¬ ((start + i) % size + size - offset) % size < data.length := by
    rw [mod_of_lt_two (by omega), hi']
    split <;> split <;> (split at hoff <;> omega)
  rw [place_apply holt (by omega) hlt, if_neg hdist]

/-- **A producer and a consumer at a block.** The producer has copied `putting` and not yet handed
it over, the consumer has copied `taking` and not yet given the slots back. -/
structure Ring (size : ℕ) (slots : ℕ → α) (readOffset writeOffset space : ℕ)
    (accepted received putting taking : List α) : Prop where
  space_le : space ≤ size
  putting_le : putting.length ≤ space
  taking_le : taking.length ≤ size - space
  shape : ∃ start < size,
    accepted = received ++ window size slots start (size - space) ∧
    taking = window size slots start taking.length ∧
    putting = window size slots ((start + (size - space)) % size) putting.length ∧
    readOffset = (start + taking.length) % size ∧
    writeOffset = ((start + (size - space)) % size + putting.length) % size

namespace Ring

variable {readOffset writeOffset space : ℕ} {accepted received putting taking : List α}

theorem empty (h : 0 < size) : Ring size slots 0 0 size [] [] [] [] := by
  refine ⟨Nat.le_refl _, Nat.zero_le _, Nat.zero_le _, 0, h, ?_, rfl, rfl, ?_, ?_⟩
  · rw [Nat.sub_self]
    rfl
  · simp
  · simp

section

variable (h : Ring size slots readOffset writeOffset space accepted received putting taking)
include h

theorem writeOffset_lt : writeOffset < size := by
  obtain ⟨start, hs, -, -, -, -, hw⟩ := h.shape
  rw [hw]
  exact mod_lt _ (by omega)

theorem received_prefix : received <+: accepted := by
  obtain ⟨start, -, ha, -⟩ := h.shape
  exact ⟨_, ha.symm⟩

end

/-- **The producer copies.** -/
theorem place [Inhabited α]
    (h : Ring size slots readOffset writeOffset space accepted received [] taking)
    (hd : data.length ≤ space) :
    Ring size (place size slots writeOffset data) readOffset (advance size writeOffset data.length)
      space accepted received data taking := by
  have hwlt := h.writeOffset_lt
  have hle := h.space_le
  have htle := h.taking_le
  obtain ⟨start, hs, ha, ht, -, hr, hw⟩ := h.shape
  rw [length_nil, Nat.add_zero, Nat.mod_mod] at hw
  have hkeep : window size (Lib.place size slots writeOffset data) start (size - space) =
      window size slots start (size - space) := window_place_of_disjoint hs (by omega) hw
  have hkeep' : window size (Lib.place size slots writeOffset data) start taking.length =
      window size slots start taking.length := by
    rw [← window_take htle, hkeep, window_take htle]
  refine ⟨hle, hd, htle, start, hs, by rw [hkeep]; exact ha, by rw [hkeep']; exact ht, ?_, hr, ?_⟩
  · rw [← hw, window_place hwlt (by omega)]
  · rw [advance_eq hwlt (by omega), ← hw]

/-- **The producer hands over** what it has copied. -/
theorem commit (h : Ring size slots readOffset writeOffset space accepted received putting taking) :
    Ring size slots readOffset writeOffset (space - putting.length) (accepted ++ putting) received []
      taking := by
  have hple := h.putting_le
  have hle := h.space_le
  have htle := h.taking_le
  obtain ⟨start, hs, ha, ht, hp, hr, hw⟩ := h.shape
  have hused : size - (space - putting.length) = size - space + putting.length := by omega
  refine ⟨by omega, Nat.zero_le _, by omega, start, hs, ?_, ht, rfl, hr, ?_⟩
  · rw [hused, window_add, ← hp, ha, append_assoc]
  · rw [hused, hw, length_nil, Nat.add_zero, Nat.mod_mod, Nat.mod_add_mod, Nat.add_assoc]

/-- **The consumer copies.** -/
theorem fetch (h : Ring size slots readOffset writeOffset space accepted received putting [])
    (hn : n ≤ size - space) :
    Ring size slots (advance size readOffset n) writeOffset space accepted received putting
      (fetch size slots readOffset n) := by
  obtain ⟨start, hs, ha, -, hp, hr, hw⟩ := h.shape
  rw [length_nil, Nat.add_zero, Nat.mod_eq_of_lt hs] at hr
  subst hr
  rw [fetch_eq_window hs (by omega)]
  refine ⟨h.space_le, h.putting_le, by rw [window_length]; exact hn, readOffset, hs, ha, ?_, hp, ?_, hw⟩
  · rw [window_length]
  · rw [window_length, advance_eq hs (by omega)]

/-- **The consumer gives back** the slots that it has copied. -/
theorem release (h : Ring size slots readOffset writeOffset space accepted received putting taking) :
    Ring size slots readOffset writeOffset (space + taking.length) accepted (received ++ taking)
      putting [] := by
  have hple := h.putting_le
  have hle := h.space_le
  have htle := h.taking_le
  obtain ⟨start, hs, ha, ht, hp, hr, hw⟩ := h.shape
  have hused : size - space = taking.length + (size - (space + taking.length)) := by omega
  have hstart : ((start + taking.length) % size + (size - (space + taking.length))) % size =
      (start + (size - space)) % size := by
    rw [Nat.mod_add_mod, Nat.add_assoc, ← hused]
  refine ⟨by omega, by omega, Nat.zero_le _, (start + taking.length) % size,
    mod_lt _ (by omega), ?_, rfl, ?_, ?_, ?_⟩
  · rw [ha, hused, window_add, ← ht, append_assoc]
  · rw [hstart]
    exact hp
  · rw [length_nil, Nat.add_zero, Nat.mod_mod]
    exact hr
  · rw [hstart]
    exact hw

end Ring

end OpenBinder.Lib
