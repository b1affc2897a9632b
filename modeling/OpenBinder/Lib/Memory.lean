import OpenBinder.Lib.Word

/-!
# Memory of 32-bit addresses

A memory maps every address to a byte, and addresses wrap around. `fill` puts bytes from an
address on; what it does to words elsewhere and to the words it writes is all that is used of
it.
-/

namespace OpenBinder.Lib

open BitVec

abbrev Memory := BitVec 32 → Byte

namespace Memory

/-- The word at an address. -/
def word (m : Memory) (a : BitVec 32) : BitVec 32 := wordOf [m a, m (a + 1), m (a + 2), m (a + 3)]

/-- The memory with `n` bytes put from an address on. -/
def fill (m : Memory) (dst : BitVec 32) (n : ℕ) (bytes : ℕ → Byte) : Memory :=
  fun a => if (a - dst).toNat < n then bytes (a - dst).toNat else m a

/-- The memory with a word put at an address. -/
def store (m : Memory) (a w : BitVec 32) : Memory :=
  m.fill a 4 fun i => (wordBytes w).getD i 0

theorem toNat_add_sub (a b : BitVec 32) (i : ℕ) (h : b.toNat ≤ a.toNat)
    (hi : a.toNat + i < 2 ^ 32) :
    (a + BitVec.ofNat 32 i - b).toNat = a.toNat + i - b.toNat := by
  rw [toNat_sub, toNat_add, toNat_ofNat]
  omega

theorem toNat_add_sub_of_lt (a b : BitVec 32) (i : ℕ) (hi : a.toNat + i < b.toNat) :
    (a + BitVec.ofNat 32 i - b).toNat = 2 ^ 32 + (a.toNat + i) - b.toNat := by
  rw [toNat_sub, toNat_add, toNat_ofNat]
  omega

/-- **Bytes before and after the filled ones are kept.** -/
theorem fill_of_disjoint (m : Memory) {dst a : BitVec 32} {n i : ℕ} (bytes : ℕ → Byte)
    (ha : a.toNat + i < 2 ^ 32) (h : a.toNat + i < dst.toNat ∨ dst.toNat + n ≤ a.toNat + i)
    (hn : dst.toNat + n ≤ 2 ^ 32) :
    m.fill dst n bytes (a + BitVec.ofNat 32 i) = m (a + BitVec.ofNat 32 i) := by
  unfold fill
  rw [if_neg]
  rcases h with h | h
  · rw [toNat_add_sub_of_lt _ _ _ h]
    omega
  · by_cases hle : dst.toNat ≤ a.toNat
    · rw [toNat_add_sub _ _ _ hle ha]
      omega
    · rw [toNat_sub, toNat_add, toNat_ofNat]
      omega

/-- **A word that is not in the filled bytes is kept.** -/
theorem word_fill_of_disjoint (m : Memory) {dst a : BitVec 32} {n : ℕ} (bytes : ℕ → Byte)
    (ha : a.toNat + 4 ≤ 2 ^ 32) (h : a.toNat + 4 ≤ dst.toNat ∨ dst.toNat + n ≤ a.toNat)
    (hn : dst.toNat + n ≤ 2 ^ 32) : (m.fill dst n bytes).word a = m.word a := by
  have hbyte : ∀ i < 4, m.fill dst n bytes (a + BitVec.ofNat 32 i) = m (a + BitVec.ofNat 32 i) :=
    fun i hi => fill_of_disjoint m bytes (by omega) (by omega) hn
  have h0 : m.fill dst n bytes a = m a := by simpa only [BitVec.add_zero] using hbyte 0 (by omega)
  have h1 : m.fill dst n bytes (a + 1) = m (a + 1) := hbyte 1 (by omega)
  have h2 : m.fill dst n bytes (a + 2) = m (a + 2) := hbyte 2 (by omega)
  have h3 : m.fill dst n bytes (a + 3) = m (a + 3) := hbyte 3 (by omega)
  unfold word
  rw [h0, h1, h2, h3]

/-- **A word in the filled bytes** is made of four of them. -/
theorem word_fill (m : Memory) {dst : BitVec 32} {n i : ℕ} (bytes : ℕ → Byte)
    (hi : i + 4 ≤ n) (hn : dst.toNat + n ≤ 2 ^ 32) :
    (m.fill dst n bytes).word (dst + BitVec.ofNat 32 i) =
      wordOf [bytes i, bytes (i + 1), bytes (i + 2), bytes (i + 3)] := by
  have hbyte : ∀ j < 4, m.fill dst n bytes (dst + BitVec.ofNat 32 i + BitVec.ofNat 32 j) =
      bytes (i + j) := by
    intro j hj
    unfold fill
    rw [BitVec.add_assoc, ← ofNat_add, toNat_add_sub _ _ _ le_rfl (by omega), if_pos (by omega)]
    congr 1
    omega
  have h0 : m.fill dst n bytes (dst + BitVec.ofNat 32 i) = bytes i := by
    simpa only [BitVec.add_zero, Nat.add_zero] using hbyte 0 (by omega)
  have h1 : m.fill dst n bytes (dst + BitVec.ofNat 32 i + 1) = bytes (i + 1) := hbyte 1 (by omega)
  have h2 : m.fill dst n bytes (dst + BitVec.ofNat 32 i + 2) = bytes (i + 2) := hbyte 2 (by omega)
  have h3 : m.fill dst n bytes (dst + BitVec.ofNat 32 i + 3) = bytes (i + 3) := hbyte 3 (by omega)
  unfold word
  rw [h0, h1, h2, h3]

end Memory

end OpenBinder.Lib
