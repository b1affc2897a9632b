import Mathlib.Data.Nat.Bitwise
import OpenBinder.Xml.Entities

/-!
# Characters of a string

`SString` keeps its characters in UTF-8. Two functions encode a character; the others find their way
in the bytes.

* `utf8`: the encoding of a character; `appendChar_eq`, `wchar32ToUTF8_eq`: both encoders give it.
* `Start`: what the bytes of a character are to the functions that read them.
* `navigates`: on the characters of a string the functions agree.
-/

namespace OpenBinder.Utf8

open Lib List Nat

def utf8CharLen (ch : Byte) : ℕ :=
  ((0xe5000000#32 >>> ((ch >>> 3) &&& 0x1e#8).toNat) &&& 3#32).toNat + 1

def wchar32ToUTF8 (srcChar : BitVec 32) : List Byte :=
  let masked (c : BitVec 32) : Byte := ((c ||| 0x80#32) &&& 0xbf#32).setWidth 8
  let first (c mark : BitVec 32) : Byte := (c ||| mark).setWidth 8
  if srcChar < 0x80#32 then [first srcChar 0]
  else if srcChar < 0x800#32 then [first (srcChar >>> 6) 0xc0#32, masked srcChar]
  else if srcChar < 0x10000#32 then
    if srcChar < 0xd800#32 ∨ srcChar > 0xdfff#32 then
      [first (srcChar >>> 6 >>> 6) 0xe0#32, masked (srcChar >>> 6), masked srcChar]
    else []
  else if srcChar < 0x110000#32 then
    [first (srcChar >>> 6 >>> 6 >>> 6) 0xf0#32, masked (srcChar >>> 6 >>> 6), masked (srcChar >>> 6),
      masked srcChar]
  else []

/-- `SString::AppendChar`. -/
def appendChar (s : List Byte) (unicode : BitVec 32) : List Byte := s ++ Xml.appendChar unicode

/-- A byte of `_privateData`, which has a zero behind the string. -/
def byteAt (s : List Byte) (index : ℤ) : Byte := s.getD index.toNat 0

/-- A byte that is not the first one of its character. -/
def isTail (byte : Byte) : Prop := byte &&& 0xc0 = 0x80

instance : DecidablePred isTail := fun byte => inferInstanceAs (Decidable (byte &&& 0xc0 = 0x80))

/-- The loop of `CountChars`. -/
def countLoop (s : List Byte) : ℕ → ℕ → ℕ
  | 0, _ => 0
  | fuel + 1, i => if i < s.length then countLoop s fuel (i + utf8CharLen (byteAt s i)) + 1 else 0

/-- `SString::CountChars`. -/
def countChars (s : List Byte) : ℕ := countLoop s s.length 0

/-- The loop of `FirstForChar`. -/
def firstLoop (s : List Byte) (stop : ℤ) : ℕ → ℤ → ℤ
  | 0, _ => -1
  | fuel + 1, index =>
    if ¬ isTail (byteAt s index) then index
    else if index - 1 > stop then firstLoop s stop fuel (index - 1) else -1

/-- `SString::FirstForChar`. -/
def firstForChar (s : List Byte) (index : ℤ) : ℤ :=
  if index < 0 ∨ index ≥ s.length then -1
  else if byteAt s index &&& 0x80 = 0 then index
  else firstLoop s (max (index - 7) (-1)) 7 index

/-- The loop of `NextCharFor`. -/
def nextLoop (s : List Byte) (stop : ℤ) : ℕ → ℤ → ℤ
  | 0, _ => -1
  | fuel + 1, index =>
    if byteAt s index = 0 then s.length
    else if ¬ isTail (byteAt s index) then index
    else if index + 1 < stop then nextLoop s stop fuel (index + 1) else -1

/-- `SString::NextCharFor`. -/
def nextCharFor (s : List Byte) (index : ℤ) : ℤ :=
  if index < 0 ∨ index ≥ s.length then -1
  else if byteAt s index &&& 0x80 = 0 then index + 1
  else nextLoop s (index + 7) 7 (index + 1)

/-- `SString::NextChar`. -/
def nextChar (s : List Byte) (index : ℤ) : ℤ :=
  if index < 0 ∨ index ≥ s.length then -1
  else if index + utf8CharLen (byteAt s index) > s.length then -1
  else index + utf8CharLen (byteAt s index)

/-- `SString::CharLength`. -/
def charLength (s : List Byte) (index : ℤ) : ℤ :=
  if index < 0 ∨ index ≥ s.length then -1
  else if isTail (byteAt s index) then 0
  else utf8CharLen (byteAt s index)

/-- `UTF8_SHIFT_AND_MASK`. -/
def shiftAndMask (unicode : BitVec 32) (byte : Byte) : BitVec 32 :=
  (unicode <<< 6) ||| (0x3f#32 &&& byte.setWidth 32)

/-- The character of some bytes. -/
def decode (chars : ℕ) (byte : ℕ → Byte) : BitVec 32 :=
  let c : BitVec 32 := (byte 0).setWidth 32
  match chars with
  | 1 => c
  | 2 => shiftAndMask (c &&& 0x1f#32) (byte 1)
  | 3 => shiftAndMask (shiftAndMask (c &&& 0x0f#32) (byte 1)) (byte 2)
  | 4 => shiftAndMask (shiftAndMask (shiftAndMask (c &&& 0x07#32) (byte 1)) (byte 2)) (byte 3)
  | _ => 0xffff#32

/-- `SString::CharAt`. -/
def charAt (s : List Byte) (index : ℤ) : BitVec 32 :=
  if index < 0 ∨ index > s.length then 0xffff#32
  else if index = 0 ∧ s.length = 0 then 0
  else if byteAt s index = 0 then 0
  else if isTail (byteAt s index) then 0xffff#32
  else if index + utf8CharLen (byteAt s index) > s.length then 0xffff#32
  else decode (utf8CharLen (byteAt s index)) fun k => byteAt s (index + k)

/-! ### Encoding -/

/-- The bytes of a character. -/
def utf8 (n : ℕ) : List Byte :=
  (if n < 0x80 then [n]
  else if n < 0x800 then [192 + n / 64, 128 + n % 64]
  else if n < 0x10000 then [224 + n / 4096, 128 + n / 64 % 64, 128 + n % 64]
  else [240 + n / 262144, 128 + n / 4096 % 64, 128 + n / 64 % 64, 128 + n % 64]).map
    (BitVec.ofNat 8)

/-- A Unicode scalar value that is not zero. -/
def IsScalar (n : ℕ) : Prop := 0 < n ∧ n < 0x110000 ∧ ¬ (0xd800 ≤ n ∧ n ≤ 0xdfff)

variable {n k : ℕ} {u x : BitVec 32}

/-- A mark and the bits of a character do not overlap. -/
theorem setWidth_or (m : BitVec 32) (a i : ℕ) (hm : m.toNat = 2 ^ i * a) (hx : x.toNat < 2 ^ i) :
    (m ||| x).setWidth 8 = BitVec.ofNat 8 (m.toNat + x.toNat) := by
  apply BitVec.eq_of_toNat_eq
  rw [BitVec.toNat_setWidth, BitVec.toNat_or, BitVec.toNat_ofNat, hm,
    two_pow_add_eq_or_of_lt hx]

theorem toNat_shift (i : ℕ) : (u >>> i).toNat = u.toNat / 2 ^ i := by
  rw [BitVec.toNat_ushiftRight, Nat.shiftRight_eq_div_pow]

theorem setWidth_tail : (0x80#32 ||| (u &&& 0x3f#32)).setWidth 8 =
    BitVec.ofNat 8 (128 + u.toNat % 64) := by
  have h : (u &&& 0x3f#32).toNat = u.toNat % 2 ^ 6 := by
    rw [BitVec.toNat_and]
    exact and_two_pow_sub_one_eq_mod _ 6
  rw [setWidth_or 0x80#32 2 6 rfl (by rw [h]; exact mod_lt _ (by decide)), h]
  rfl

theorem setWidth_masked : ((u ||| 0x80#32) &&& 0xbf#32).setWidth 8 =
    BitVec.ofNat 8 (128 + u.toNat % 64) := by
  rw [← setWidth_tail]
  apply BitVec.eq_of_getLsbD_eq
  intro i hi
  interval_cases i <;> simp

section Encoders

variable (h : IsScalar u.toNat)
include h

/-- **`AppendChar` encodes a character.** -/
theorem appendChar_eq : Xml.appendChar u = utf8 u.toNat := by
  obtain ⟨h0, hlt, -⟩ := h
  unfold Xml.appendChar utf8
  simp only [BitVec.le_def, BitVec.toNat_ofNat, Nat.reducePow, Nat.reduceMod, setWidth_tail,
    toNat_shift]
  rw [if_neg fun h => by simp [h] at h0]
  by_cases h1 : u.toNat < 0x80
  · rw [if_pos (by omega), if_pos h1]
    simp
  rw [if_neg (by omega), if_neg h1]
  by_cases h2 : u.toNat < 0x800
  · rw [if_pos (by omega), if_pos h2, setWidth_or 0xc0#32 3 6 rfl (by rw [toNat_shift]; omega),
      toNat_shift]
    simp
  rw [if_neg (by omega), if_neg h2]
  by_cases h3 : u.toNat < 0x10000
  · rw [if_pos (by omega), if_pos h3, setWidth_or 0xe0#32 14 4 rfl (by rw [toNat_shift]; omega),
      toNat_shift]
    simp
  rw [if_neg (by omega), if_neg h3, if_pos (by omega),
    setWidth_or 0xf0#32 15 4 rfl (by rw [toNat_shift]; omega), toNat_shift]
  simp

/-- **So does `WChar32ToUTF8`.** -/
theorem wchar32ToUTF8_eq : wchar32ToUTF8 u = utf8 u.toNat := by
  obtain ⟨-, hlt, hsurrogate⟩ := h
  unfold wchar32ToUTF8 utf8
  simp only [BitVec.lt_def, gt_iff_lt, BitVec.toNat_ofNat, Nat.reducePow, Nat.reduceMod,
    setWidth_masked, toNat_shift, BitVec.or_comm _ 0xc0#32, BitVec.or_comm _ 0xe0#32,
    BitVec.or_comm _ 0xf0#32]
  by_cases h1 : u.toNat < 0x80
  · rw [if_pos h1, if_pos h1]
    simp
  rw [if_neg h1, if_neg h1]
  by_cases h2 : u.toNat < 0x800
  · rw [if_pos h2, if_pos h2, setWidth_or 0xc0#32 3 6 rfl (by rw [toNat_shift]; omega),
      toNat_shift]
    simp
  rw [if_neg h2, if_neg h2]
  by_cases h3 : u.toNat < 0x10000
  · rw [if_pos h3, if_pos h3, if_pos (by omega),
      setWidth_or 0xe0#32 14 4 rfl (by simp only [toNat_shift]; omega)]
    simp [Nat.shiftRight_eq_div_pow]
  rw [if_neg h3, if_neg h3, if_pos hlt,
    setWidth_or 0xf0#32 15 4 rfl (by simp only [toNat_shift]; omega)]
  simp [Nat.shiftRight_eq_div_pow, Nat.div_div_eq_div_mul]

end Encoders

/-! ### The bytes of a character -/

/-- What the functions look at in one byte. -/
theorem ofNat_byte : ∀ m < 256, let byte := BitVec.ofNat 8 m
    (utf8CharLen byte = if m < 192 then 1 else if m < 224 then 2 else if m < 240 then 3 else 4) ∧
    (isTail byte ↔ 128 ≤ m ∧ m < 192) ∧ (byte &&& 0x80 = 0 ↔ m < 128) ∧ (byte = 0 ↔ m = 0) ∧
    (byte.setWidth 32 &&& 0x1f#32).toNat = m % 32 ∧
    (byte.setWidth 32 &&& 0x0f#32).toNat = m % 16 ∧
    (byte.setWidth 32 &&& 0x07#32).toNat = m % 8 ∧ (byte.setWidth 32 : BitVec 32).toNat = m := by
  decide +kernel

theorem isTail_tail (k : ℕ) : isTail (BitVec.ofNat 8 (128 + k % 64)) :=
  (ofNat_byte _ (by omega)).2.1.2 (by omega)

theorem toNat_shiftAndMask (k : ℕ) : (shiftAndMask x (BitVec.ofNat 8 (128 + k % 64))).toNat =
    64 * (x.toNat % 2 ^ 26) + k % 64 := by
  have hlow : (0x3f#32 &&& (BitVec.ofNat 8 (128 + k % 64)).setWidth 32).toNat = k % 2 ^ 6 := by
    rw [BitVec.and_comm, BitVec.toNat_and, (ofNat_byte (128 + k % 64) (by omega)).2.2.2.2.2.2.2]
    exact (and_two_pow_sub_one_eq_mod _ 6).trans (by omega)
  have hhigh : (x <<< 6).toNat = 2 ^ 6 * (x.toNat % 2 ^ 26) := by
    rw [BitVec.toNat_shiftLeft, shiftLeft_eq]
    omega
  rw [shiftAndMask, BitVec.toNat_or, hlow, hhigh,
    ← two_pow_add_eq_or_of_lt (mod_lt _ (by decide))]

/-- **The bytes of a character**, as the functions see them. -/
structure Start (n : ℕ) (first : Byte) (tail : List Byte) : Prop where
  length : utf8CharLen first = tail.length + 1
  short : tail.length ≤ 3
  ne_zero : first ≠ 0
  not_tail : ¬ isTail first
  single : first &&& 0x80 = 0 → tail = []
  tails : ∀ byte ∈ tail, isTail byte
  decode : decode (tail.length + 1) (fun k => (first :: tail).getD k 0) = BitVec.ofNat 32 n

/-- A character by the number in its first byte. -/
theorem start_of {m : ℕ} {tail : List Byte} (hm : m < 256) (h0 : 0 < m)
    (hlen : (if m < 192 then 1 else if m < 224 then 2 else if m < 240 then 3 else 4) =
      tail.length + 1) (htail : m < 192 → m < 128 ∧ tail = [])
    (htails : ∀ byte ∈ tail, isTail byte)
    (hdecode : (Utf8.decode (tail.length + 1)
      (fun k => (BitVec.ofNat 8 m :: tail).getD k 0)).toNat = n) :
    Start n (BitVec.ofNat 8 m) tail := by
  obtain ⟨hchars, htail', hhigh, hzero, -⟩ := ofNat_byte m hm
  refine ⟨hchars.trans hlen, ?_, fun h => ?_, fun h => ?_, fun h => ?_, htails, ?_⟩
  · split_ifs at hlen <;> omega
  · have := hzero.1 h
    omega
  · have := htail'.1 h
    omega
  · exact (htail (by have := hhigh.1 h; omega)).2
  · rw [← hdecode, BitVec.ofNat_toNat, BitVec.setWidth_eq]

theorem start_utf8 (h : IsScalar n) : ∃ first tail, utf8 n = first :: tail ∧ Start n first tail := by
  obtain ⟨h0, hlt, -⟩ := h
  unfold utf8
  by_cases h1 : n < 0x80
  · rw [if_pos h1]
    obtain ⟨-, -, -, -, -, -, -, hc⟩ := ofNat_byte n (by omega)
    exact ⟨_, _, rfl, start_of (by omega) h0 (if_pos (by omega)) (fun _ => ⟨h1, rfl⟩) (by simp) hc⟩
  by_cases h2 : n < 0x800
  · rw [if_neg h1, if_pos h2]
    obtain ⟨-, -, -, -, hc, -⟩ := ofNat_byte (192 + n / 64) (by omega)
    refine ⟨_, _, rfl, start_of (by omega) (by omega) (by rw [if_neg (by omega), if_pos (by omega)]; rfl)
      (by omega) (by simp [isTail_tail]) ?_⟩
    simp only [Utf8.decode, map_cons, map_nil, length_cons, length_nil,
      getD_cons_zero, getD_cons_succ, toNat_shiftAndMask, hc]
    omega
  by_cases h3 : n < 0x10000
  · rw [if_neg h1, if_neg h2, if_pos h3]
    obtain ⟨-, -, -, -, -, hc, -⟩ := ofNat_byte (224 + n / 4096) (by omega)
    refine ⟨_, _, rfl, start_of (by omega) (by omega)
      (by rw [if_neg (by omega), if_neg (by omega), if_pos (by omega)]; rfl) (by omega)
      (by simp [isTail_tail]) ?_⟩
    simp only [Utf8.decode, map_cons, map_nil, length_cons, length_nil,
      getD_cons_zero, getD_cons_succ, toNat_shiftAndMask, hc]
    omega
  · rw [if_neg h1, if_neg h2, if_neg h3]
    obtain ⟨-, -, -, -, -, -, hc, -⟩ := ofNat_byte (240 + n / 262144) (by omega)
    refine ⟨_, _, rfl, start_of (by omega) (by omega)
      (by rw [if_neg (by omega), if_neg (by omega), if_neg (by omega)]; rfl) (by omega)
      (by simp [isTail_tail]) ?_⟩
    simp only [Utf8.decode, map_cons, map_nil, length_cons, length_nil,
      getD_cons_zero, getD_cons_succ, toNat_shiftAndMask, hc]
    omega

/-! ### Finding the way -/

/-- The bytes of some characters. -/
def bytes (cs : List ℕ) : List Byte := (cs.map utf8).flatten

/-- **A character in a string**, as the functions see it: what is behind it is the end, or another
character. -/
structure At (s : List Byte) (o n : ℕ) : Prop where
  length : utf8CharLen (byteAt s o) = (utf8 n).length
  pos : 0 < (utf8 n).length
  short : (utf8 n).length ≤ 4
  fits : o + (utf8 n).length ≤ s.length
  ne_zero : byteAt s o ≠ 0
  not_tail : ¬ isTail (byteAt s o)
  single : byteAt s o &&& 0x80 = 0 → (utf8 n).length = 1
  tails : ∀ k : ℕ, 0 < k → k < (utf8 n).length → isTail (byteAt s (o + k))
  decode : decode (utf8 n).length (fun k => byteAt s (o + k)) = BitVec.ofNat 32 n
  behind : o + (utf8 n).length = s.length ∧ byteAt s (o + (utf8 n).length) = 0 ∨
    byteAt s (o + (utf8 n).length) ≠ 0 ∧ ¬ isTail (byteAt s (o + (utf8 n).length))

variable {s : List Byte} {o : ℕ} {cs : List ℕ}

theorem byteAt_append (a b : List Byte) (k : ℕ) : byteAt (a ++ b) (a.length + k) = b.getD k 0 := by
  have h : ((a.length : ℤ) + k).toNat = a.length + k := by omega
  rw [byteAt, h, getD_append_right _ _ _ _ (Nat.le_add_right ..), Nat.add_sub_cancel_left]

theorem decode_congr {f g : ℕ → Byte} {chars : ℕ} (h : ∀ k < chars, f k = g k) :
    decode chars f = decode chars g := by
  unfold decode
  split
  all_goals first
    | rfl
    | simp only [h 0 (by decide), h 1 (by decide), h 2 (by decide), h 3 (by decide)]
    | simp only [h 0 (by decide), h 1 (by decide), h 2 (by decide)]
    | simp only [h 0 (by decide), h 1 (by decide)]
    | simp only [h 0 (by decide)]

theorem at_bytes (a : List Byte) (h : ∀ c ∈ n :: cs, IsScalar c) :
    At (a ++ (utf8 n ++ bytes cs)) a.length n := by
  obtain ⟨first, tail, heq, hs⟩ := start_utf8 (h n mem_cons_self)
  have hbyte : ∀ k : ℕ, byteAt (a ++ (utf8 n ++ bytes cs)) (a.length + k) =
      (utf8 n ++ bytes cs).getD k 0 := byteAt_append a _
  have hin : ∀ k < (utf8 n).length, (utf8 n ++ bytes cs).getD k 0 = (utf8 n).getD k 0 :=
    fun k hk => getD_append _ _ _ _ hk
  have hfirst : byteAt (a ++ (utf8 n ++ bytes cs)) a.length = first := by
    have := hbyte 0
    rw [cast_zero, add_zero] at this
    rw [this, heq]
    rfl
  have hlen : (utf8 n).length = tail.length + 1 := by rw [heq, length_cons]
  refine ⟨?_, by omega, by have := hs.short; omega, by simp, ?_, ?_, fun h => ?_, fun k h0 hk => ?_,
    ?_, ?_⟩
  · rw [hfirst, hs.length, hlen]
  · rw [hfirst]
    exact hs.ne_zero
  · rw [hfirst]
    exact hs.not_tail
  · rw [hfirst] at h
    rw [hlen, hs.single h]
    rfl
  · obtain ⟨k, rfl⟩ : ∃ j, k = j + 1 := ⟨k - 1, by omega⟩
    rw [hbyte, hin _ hk, heq, getD_cons_succ, getD_eq_getElem _ _ (by omega)]
    exact hs.tails _ (getElem_mem _)
  · rw [← hs.decode, ← hlen]
    refine decode_congr fun k hk => ?_
    rw [hbyte, hin k hk, heq]
  · rw [hbyte, getD_append_right _ _ _ _ le_rfl, Nat.sub_self]
    rcases cs with _ | ⟨c, cs⟩
    · exact .inl ⟨by simp [bytes], rfl⟩
    · obtain ⟨first', tail', heq', hs'⟩ := start_utf8 (h c (by simp))
      have hget : (bytes (c :: cs)).getD 0 0 = first' := by
        rw [bytes, map_cons, flatten_cons, heq']
        rfl
      rw [hget]
      exact .inr ⟨hs'.ne_zero, hs'.not_tail⟩

theorem tail_ne_zero {byte : Byte} (h : isTail byte) : byte ≠ 0 ∧ byte &&& 0x80 ≠ 0 := by
  revert byte
  decide +kernel

namespace At

variable (h : At s o n)
include h

theorem lt : (o : ℤ) < s.length := by
  have := h.fits
  have := h.pos
  omega

theorem nextChar_eq : nextChar s o = o + (utf8 n).length := by
  have := h.fits
  have := h.lt
  rw [nextChar, if_neg (by omega), h.length, if_neg (by omega)]

theorem charAt_eq : charAt s o = BitVec.ofNat 32 n := by
  have := h.fits
  have := h.lt
  rw [charAt, if_neg (by omega), if_neg (by omega), if_neg h.ne_zero, if_neg h.not_tail, h.length,
    if_neg (by omega), h.decode]

theorem charLength_eq : charLength s o = (utf8 n).length := by
  have := h.lt
  rw [charLength, if_neg (by omega), if_neg h.not_tail, h.length]

theorem charLength_inside {k : ℕ} (h0 : 0 < k) (hk : k < (utf8 n).length) :
    charLength s (o + k) = 0 := by
  have := h.fits
  rw [charLength, if_neg (by omega), if_pos (h.tails k h0 hk)]

/-- **From a byte of a character** the loop of `FirstForChar` goes back to the first one. -/
theorem firstLoop_eq {stop : ℤ} (hstop : stop < o) : ∀ k < (utf8 n).length, ∀ fuel, k < fuel →
    firstLoop s stop fuel (o + k) = o := by
  intro k
  induction k with
  | zero =>
    intro _ fuel hfuel
    obtain ⟨fuel, rfl⟩ : ∃ f, fuel = f + 1 := ⟨fuel - 1, by omega⟩
    rw [cast_zero, add_zero, firstLoop, if_pos h.not_tail]
  | succ k ih =>
    intro hk fuel hfuel
    obtain ⟨fuel, rfl⟩ : ∃ f, fuel = f + 1 := ⟨fuel - 1, by omega⟩
    rw [firstLoop, if_neg (not_not.2 (h.tails _ (by omega) hk)), if_pos (by push_cast; omega),
      show (o : ℤ) + (k + 1 : ℕ) - 1 = o + k by push_cast; ring]
    exact ih (by omega) fuel (by omega)

theorem firstForChar_eq {k : ℕ} (hk : k < (utf8 n).length) : firstForChar s (o + k) = o := by
  have hfits := h.fits
  have hshort := h.short
  rw [firstForChar, if_neg (by omega)]
  by_cases hhigh : byteAt s (o + k) &&& 0x80 = 0
  · rw [if_pos hhigh]
    rcases Nat.eq_zero_or_pos k with rfl | h0
    · simp
    · exact absurd hhigh (tail_ne_zero (h.tails k h0 hk)).2
  · rw [if_neg hhigh]
    exact h.firstLoop_eq (by omega) k hk 7 (by omega)

/-- **From a byte of a character** the loop of `NextCharFor` goes on to what is behind it. -/
theorem nextLoop_eq {stop : ℤ} (hstop : (o : ℤ) + (utf8 n).length < stop) : ∀ left k : ℕ, 0 < k →
    k + left = (utf8 n).length → ∀ fuel, left < fuel →
    nextLoop s stop fuel (o + k) = o + (utf8 n).length := by
  intro left
  induction left with
  | zero =>
    intro k _ hk fuel hfuel
    obtain ⟨fuel, rfl⟩ : ∃ f, fuel = f + 1 := ⟨fuel - 1, by omega⟩
    obtain rfl : k = (utf8 n).length := by omega
    rcases h.behind with ⟨hend, hzero⟩ | ⟨hne, htail⟩
    · rw [nextLoop, if_pos hzero]
      omega
    · rw [nextLoop, if_neg hne, if_pos htail]
  | succ left ih =>
    intro k h0 hk fuel hfuel
    obtain ⟨fuel, rfl⟩ : ∃ f, fuel = f + 1 := ⟨fuel - 1, by omega⟩
    have htail := h.tails k h0 (by omega)
    rw [nextLoop, if_neg (tail_ne_zero htail).1, if_neg (not_not.2 htail), if_pos (by omega),
      show (o : ℤ) + k + 1 = o + (k + 1 : ℕ) by push_cast; ring]
    exact ih (k + 1) (by omega) (by omega) fuel (by omega)

theorem nextCharFor_eq : nextCharFor s o = o + (utf8 n).length := by
  have hlt := h.lt
  have hshort := h.short
  have hpos := h.pos
  rw [nextCharFor, if_neg (by omega)]
  by_cases hhigh : byteAt s o &&& 0x80 = 0
  · rw [if_pos hhigh, h.single hhigh]
    rfl
  · rw [if_neg hhigh]
    exact h.nextLoop_eq (by omega) ((utf8 n).length - 1) 1 one_pos (by omega) 7 (by omega)

end At

/-- The indices that a loop visits, which goes from one to the next while they are in the string. -/
def visits (next : List Byte → ℤ → ℤ) (s : List Byte) : ℕ → ℤ → List ℤ
  | 0, _ => []
  | fuel + 1, i => if 0 ≤ i ∧ i < s.length then i :: visits next s fuel (next s i) else []

/-- Where some characters start. -/
def starts : ℕ → List ℕ → List ℤ
  | _, [] => []
  | o, n :: cs => o :: starts (o + (utf8 n).length) cs

/-- **The characters behind some bytes** are counted, visited and read. -/
theorem walk_bytes (hcs : ∀ n ∈ cs, IsScalar n) : ∀ a : List Byte, ∀ fuel, cs.length ≤ fuel →
    countLoop (a ++ bytes cs) fuel a.length = cs.length ∧
    (∀ next ∈ [nextChar, nextCharFor],
      visits next (a ++ bytes cs) fuel a.length = starts a.length cs) ∧
    (starts a.length cs).map (charAt (a ++ bytes cs)) = cs.map (BitVec.ofNat 32) := by
  induction cs with
  | nil =>
    intro a fuel _
    have hend : ¬ a.length < (a ++ bytes []).length := by simp [bytes]
    rcases fuel with _ | fuel
    · exact ⟨rfl, fun _ _ => rfl, rfl⟩
    · refine ⟨by rw [countLoop, if_neg hend]; rfl, fun next _ => ?_, rfl⟩
      rw [visits, if_neg (by omega)]
      rfl
  | cons n cs ih =>
    intro a fuel hfuel
    obtain ⟨fuel, rfl⟩ : ∃ f, fuel = f + 1 := ⟨fuel - 1, by rw [length_cons] at hfuel; omega⟩
    have hat := at_bytes a hcs
    have hsplit : a ++ (utf8 n ++ bytes cs) = a ++ utf8 n ++ bytes cs := (append_assoc ..).symm
    have hlen : (a ++ utf8 n).length = a.length + (utf8 n).length := length_append
    obtain ⟨hcount, hvisits, hvalues⟩ := ih (fun m hm => hcs m (mem_cons_of_mem _ hm))
      (a ++ utf8 n) fuel (by simpa using hfuel)
    rw [← hsplit, hlen] at hcount hvisits hvalues
    have hlt := hat.lt
    rw [show bytes (n :: cs) = utf8 n ++ bytes cs from flatten_cons]
    refine ⟨?_, fun next hnext => ?_, ?_⟩
    · rw [countLoop, if_pos (by omega), hat.length, hcount, length_cons]
    · have hstep : next (a ++ (utf8 n ++ bytes cs)) a.length = a.length + (utf8 n).length := by
        rcases mem_pair.1 hnext with rfl | rfl
        · exact hat.nextChar_eq
        · exact hat.nextCharFor_eq
      have hrest := hvisits next hnext
      rw [cast_add] at hrest
      rw [visits, if_pos ⟨by omega, hlt⟩, hstep, hrest, starts]
    · rw [starts, map_cons, hat.charAt_eq, hvalues, map_cons]

/-- The string that `AppendChar` builds. -/
def built (cs : List ℕ) : List Byte := cs.foldl (fun s n => appendChar s (BitVec.ofNat 32 n)) []

theorem toNat_scalar (h : IsScalar n) : (BitVec.ofNat 32 n).toNat = n := by
  obtain ⟨-, hlt, -⟩ := h
  exact mod_eq_of_lt (by omega)

theorem foldl_appendChar (hcs : ∀ n ∈ cs, IsScalar n) : ∀ a : List Byte,
    cs.foldl (fun s n => appendChar s (BitVec.ofNat 32 n)) a = a ++ bytes cs := by
  induction cs with
  | nil =>
    intro a
    exact (append_nil a).symm
  | cons n cs ih =>
    intro a
    obtain ⟨hn, hcs⟩ := forall_mem_cons.1 hcs
    have hchar := toNat_scalar hn
    rw [foldl_cons, ih hcs, appendChar, appendChar_eq (hchar.symm ▸ hn), hchar,
      append_assoc]
    rfl

theorem built_eq (hcs : ∀ n ∈ cs, IsScalar n) : built cs = bytes cs := foldl_appendChar hcs []

/-- **The functions agree** on a string of these characters. -/
structure Navigates (cs : List ℕ) (s : List Byte) : Prop where
  encoders : s = (cs.map fun n => wchar32ToUTF8 (BitVec.ofNat 32 n)).flatten
  count : countChars s = cs.length
  visits : ∀ next ∈ [nextChar, nextCharFor], ∀ fuel, cs.length ≤ fuel →
    visits next s fuel 0 = starts 0 cs
  values : (starts 0 cs).map (charAt s) = cs.map (BitVec.ofNat 32)
  charLength : ∀ before n behind, cs = before ++ n :: behind →
    let char := wchar32ToUTF8 (BitVec.ofNat 32 n)
    charLength s (bytes before).length = char.length ∧
    ∀ k : ℕ, 0 < k → k < char.length → Utf8.charLength s ((bytes before).length + k) = 0
  first : ∀ before n behind, cs = before ++ n :: behind →
    ∀ k < (wchar32ToUTF8 (BitVec.ofNat 32 n)).length,
      firstForChar s ((bytes before).length + k) = (bytes before).length

theorem length_le_bytes (hcs : ∀ n ∈ cs, IsScalar n) : cs.length ≤ (bytes cs).length := by
  induction cs with
  | nil => exact le_rfl
  | cons n cs ih =>
    have := (at_bytes [] hcs).pos
    have := ih fun m hm => hcs m (mem_cons_of_mem _ hm)
    rw [show bytes (n :: cs) = utf8 n ++ bytes cs from flatten_cons, length_append,
      length_cons]
    omega

/-- **A string of characters** that `AppendChar` built is what `WChar32ToUTF8` makes of each, and
the functions find the characters in it again. -/
theorem navigates (cs : List ℕ) (hcs : ∀ n ∈ cs, IsScalar n) : Navigates cs (built cs) := by
  have hencode : ∀ n ∈ cs, wchar32ToUTF8 (BitVec.ofNat 32 n) = utf8 n := fun n hn => by
    have hchar := toNat_scalar (hcs n hn)
    rw [wchar32ToUTF8_eq (hchar.symm ▸ hcs n hn), hchar]
  have hsplit : ∀ before n behind, cs = before ++ n :: behind →
      wchar32ToUTF8 (BitVec.ofNat 32 n) = utf8 n ∧ At (bytes cs) (bytes before).length n := by
    rintro before n behind rfl
    refine ⟨hencode n (by simp), ?_⟩
    have hat := at_bytes (bytes before) fun m hm => hcs m (mem_append_right _ hm)
    have heq : bytes (before ++ n :: behind) = bytes before ++ (utf8 n ++ bytes behind) := by
      simp [bytes]
    rwa [heq]
  rw [built_eq hcs]
  refine ⟨?_, ?_, fun next hnext fuel hfuel => ?_, ?_, fun before n behind h => ?_,
    fun before n behind h k hk => ?_⟩
  · rw [map_congr_left hencode]
    rfl
  · exact (walk_bytes hcs [] _ (length_le_bytes hcs)).1
  · exact (walk_bytes hcs [] fuel hfuel).2.1 next hnext
  · exact (walk_bytes hcs [] _ le_rfl).2.2
  · obtain ⟨hn, hat⟩ := hsplit before n behind h
    rw [hn]
    exact ⟨hat.charLength_eq, fun k h0 hk => hat.charLength_inside h0 hk⟩
  · obtain ⟨hn, hat⟩ := hsplit before n behind h
    rw [hn] at hk
    exact hat.firstForChar_eq hk

theorem navigates_mixed : (∀ n ∈ [0x41, 0xe9, 0x20ac, 0x1f600], IsScalar n) ∧
    Navigates [0x41, 0xe9, 0x20ac, 0x1f600] (built [0x41, 0xe9, 0x20ac, 0x1f600]) :=
  have h : ∀ n ∈ [0x41, 0xe9, 0x20ac, 0x1f600], IsScalar n := by simp [IsScalar]
  ⟨h, navigates _ h⟩

end OpenBinder.Utf8
