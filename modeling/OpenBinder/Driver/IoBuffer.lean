import Mathlib.Tactic.Ring
import OpenBinder.Lib.Word

/-!
# `iobuffer_t`

The driver's cursor over a buffer of the user. Offsets are 32-bit `int`s; the room left
is compared as an unsigned word where `sizeof` is on the other side, and as a signed one
where a size is. What the user has there is a function of the offset: a copy from user
space that fails is not noticed.
-/

namespace OpenBinder

open Lib

/-- A cursor over `size` bytes. `trace` has every value that `m_offs` took, latest first. -/
structure IoBuffer where
  bytes : ℤ → Byte
  size : ℤ
  offs : ℤ
  consumed : ℤ
  trace : List ℤ

namespace IoBuffer

/-- `iobuffer_init`, where the base is aligned and the buffer accessible. -/
def init (bytes : ℤ → Byte) (size consumed : ℤ) : IoBuffer :=
  ⟨bytes, size, consumed, consumed, [consumed]⟩

/-- The cursor moved to an offset. -/
def moveTo (io : IoBuffer) (offs : ℤ) : IoBuffer :=
  { io with offs := offs, trace := offs :: io.trace }

/-- The `n` bytes at an offset. -/
def bytesAt (bytes : ℤ → Byte) (offs : ℤ) (n : ℕ) : List Byte :=
  (List.range n).map fun i : ℕ => bytes (offs + i)

/-- The word at an offset. -/
def wordAt (bytes : ℤ → Byte) (offs : ℤ) : BitVec 32 := wordOf (bytesAt bytes offs 4)

/-- `iobuffer_remaining`. -/
def remaining (io : IoBuffer) : ℤ := ssize (io.size - io.offs)

/-- `iobuffer_read_raw`, of `n` bytes. -/
def readRaw (io : IoBuffer) (n : ℕ) : Option (List Byte × IoBuffer) :=
  if io.remaining < n then none
  else some (bytesAt io.bytes io.offs n, io.moveTo (ssize (io.offs + n)))

/-- `iobuffer_read_u32`, and `iobuffer_read_void` on a machine with 32-bit pointers. -/
def readU32 (io : IoBuffer) : Option (BitVec 32 × IoBuffer) :=
  if Lib.size io.remaining < 4 then none
  else some (wordAt io.bytes io.offs, io.moveTo (ssize (io.offs + 4)))

/-- `iobuffer_drain`: how much it is, and the cursor after it. -/
def drain (io : IoBuffer) (n : ℤ) : ℤ × IoBuffer :=
  let n := if n > io.remaining then io.remaining else n
  (n, io.moveTo (ssize (io.offs + n)))

/-- `iobuffer_mark_consumed`. -/
def markConsumed (io : IoBuffer) : IoBuffer := { io with consumed := io.offs }

/-- Whether `n` words can be read one after the other, and the cursor after those that
could. -/
def readWords : ℕ → IoBuffer → Bool × IoBuffer
  | 0, io => (true, io)
  | n + 1, io =>
    match io.readU32 with
    | none => (false, io)
    | some (_, io) => readWords n io

/-- **The offset stays inside of the buffer and never moves back**: the values it took,
earliest last, go up and lie between zero and the size. -/
def Steady (io : IoBuffer) : Prop :=
  io.trace.Pairwise (fun later earlier => earlier ≤ later) ∧
    ∀ offs ∈ io.trace, 0 ≤ offs ∧ offs ≤ io.size

/-- A cursor as the loop of the driver has it. -/
structure Good (io : IoBuffer) : Prop where
  steady : io.Steady
  head : io.trace.head? = some io.offs
  size_lt : io.size < 2 ^ 31

variable {io : IoBuffer}

theorem Good.range (h : io.Good) : 0 ≤ io.offs ∧ io.offs ≤ io.size :=
  h.steady.2 _ (List.mem_of_mem_head? h.head)

theorem Good.remaining_eq (h : io.Good) : io.remaining = io.size - io.offs := by
  have := h.range
  have := h.size_lt
  exact ssize_of_lt (by omega) (by omega)

theorem Good.moveTo (h : io.Good) (offs : ℤ) (h0 : io.offs ≤ offs) (hle : offs ≤ io.size) :
    (io.moveTo offs).Good := by
  have hr := h.range
  refine ⟨⟨?_, ?_⟩, rfl, h.size_lt⟩
  · refine List.pairwise_cons.2 ⟨fun x hx => ?_, h.steady.1⟩
    -- the latest offset is the largest so far
    have hx' : x ≤ io.offs := by
      have hhead := h.head
      cases ht : io.trace with
      | nil => rw [ht] at hhead; cases hhead
      | cons y l =>
        rw [ht] at hhead hx
        obtain rfl : y = io.offs := by simpa using hhead
        rcases List.mem_cons.1 hx with rfl | hx
        · exact le_rfl
        · have hp := h.steady.1
          rw [ht] at hp
          exact (List.pairwise_cons.1 hp).1 x hx
    omega
  · intro x hx
    rcases List.mem_cons.1 hx with rfl | hx
    · exact ⟨by omega, hle⟩
    · exact h.steady.2 x hx

theorem Good.markConsumed (h : io.Good) : io.markConsumed.Good :=
  ⟨h.steady, h.head, h.size_lt⟩

theorem Good.readU32 (h : io.Good) :
    io.readU32 = if io.offs + 4 ≤ io.size then
      some (wordAt io.bytes io.offs, io.moveTo (io.offs + 4)) else none := by
  have hr := h.range
  have hs := h.size_lt
  unfold IoBuffer.readU32
  rw [h.remaining_eq, size_of_lt (by omega) (by omega)]
  by_cases hle : io.offs + 4 ≤ io.size
  · rw [if_neg (by omega), if_pos hle, ssize_of_lt (by omega) (by omega)]
  · rw [if_pos (by omega), if_neg hle]

theorem Good.readRaw (h : io.Good) (n : ℕ) :
    io.readRaw n = if io.offs + n ≤ io.size then
      some (bytesAt io.bytes io.offs n, io.moveTo (io.offs + n)) else none := by
  have hr := h.range
  have hs := h.size_lt
  unfold IoBuffer.readRaw
  rw [h.remaining_eq]
  by_cases hle : io.offs + n ≤ io.size
  · rw [if_neg (by omega), if_pos hle, ssize_of_lt (by omega) (by omega)]
  · rw [if_pos (by omega), if_neg hle]

theorem Good.drain {io : IoBuffer} (h : io.Good) {n : ℤ} (h0 : 0 ≤ n) :
    io.drain n = (min n (io.size - io.offs), io.moveTo (min (io.offs + n) io.size)) := by
  have hr := h.range
  have hs := h.size_lt
  unfold IoBuffer.drain
  rw [h.remaining_eq]
  simp only
  by_cases hle : n > io.size - io.offs
  · rw [if_pos hle, ssize_of_lt (by omega) (by omega), min_eq_right (by omega),
      min_eq_right (by omega)]
    congr 2
    omega
  · rw [if_neg hle, ssize_of_lt (by omega) (by omega), min_eq_left (by omega), min_eq_left (by omega)]

/-- The words that are there are read, and the cursor stays inside of the buffer. -/
theorem Good.readWords (n : ℕ) : ∀ {io : IoBuffer}, io.Good →
    (IoBuffer.readWords n io).2.Good ∧ (IoBuffer.readWords n io).2.size = io.size ∧
      (IoBuffer.readWords n io).2.bytes = io.bytes ∧
      (IoBuffer.readWords n io).2.consumed = io.consumed ∧
      io.offs ≤ (IoBuffer.readWords n io).2.offs ∧
      (io.offs + 4 * n ≤ io.size → (IoBuffer.readWords n io).1 = true ∧
        (IoBuffer.readWords n io).2.offs = io.offs + 4 * n) ∧
      (¬ io.offs + 4 * n ≤ io.size → (IoBuffer.readWords n io).1 = false) := by
  induction n with
  | zero =>
    intro io h
    have := h.range
    exact ⟨h, rfl, rfl, rfl, le_rfl, fun _ => ⟨rfl, by simp [IoBuffer.readWords]⟩,
      fun hn => absurd (by simpa using this.2) hn⟩
  | succ n ih =>
    intro io h
    rw [IoBuffer.readWords, h.readU32]
    by_cases hle : io.offs + 4 ≤ io.size
    · rw [if_pos hle]
      obtain ⟨h1, h2, h3, h4, h5, h6, h7⟩ := ih (h.moveTo (io.offs + 4) (by omega) hle)
      simp only [IoBuffer.moveTo] at h2 h3 h4 h5 h6 h7 ⊢
      refine ⟨h1, h2, h3, h4, by omega, fun hn => ?_, fun hn => ?_⟩
      · obtain ⟨ha, hb⟩ := h6 (by push_cast at hn; omega)
        exact ⟨ha, by rw [hb]; push_cast; ring⟩
      · exact h7 (by push_cast at hn; omega)
    · rw [if_neg hle]
      exact ⟨h, rfl, rfl, rfl, le_rfl, fun hn => absurd hn (by push_cast; omega), fun _ => rfl⟩

end IoBuffer

end OpenBinder
