import OpenBinder.Lib.Word
import OpenBinder.Value.TypeCode

/-!
# `SParcel`

A parcel is a growing block of bytes with a position, here without streams behind it
(`m_in` and `m_out` are `NULL`), on a little-endian machine with 32-bit words.

* Writing puts bytes at the position, and moves to a larger block when they do not
  fit.
* Reading takes them from there. What is past the end reads short and leaves
  nothing to read.
* `readSmallDataOrObject` reads one header; where it is that of a flattened
  binder it reads all of it and takes a reference.

The positions and lengths of the source are 32-bit words, so their sums wrap around.
Memory outside of an object is not read or written: there the call has no result.
Running out of memory is not modelled.
-/

namespace OpenBinder

open Lib

/-- Why a call has no result. -/
inductive Fault where
  /-- It reads or writes outside of an object. -/
  | memory
  /-- It nests deeper than its fuel. -/
  | depth
  deriving DecidableEq

theorem bind_eq_ok {α β : Type} {x : Except Fault α} {f : α → Except Fault β} {b : β} :
    (x >>= f) = .ok b ↔ ∃ a, x = .ok a ∧ f a = .ok b := by
  cases x with
  | error e => simp [bind, Except.bind]
  | ok a => simp [bind, Except.bind]

@[simp] theorem ok_bind {α β : Type} (a : α) (f : α → Except Fault β) :
    ((Except.ok a : Except Fault α) >>= f) = f a := rfl

@[simp] theorem pure_eq_ok {α : Type} (a : α) : (pure a : Except Fault α) = .ok a := rfl

def badType : ℤ := (BitVec.ofNat 32 0x8000052a).toInt

def badData : ℤ := (BitVec.ofNat 32 0x8000052f).toInt

def dataTruncated : ℤ := (BitVec.ofNat 32 0x80000530).toInt

/-- `value_data_align`, on 32-bit sizes. -/
def valueDataAlign (size : ℕ) : ℕ := (size + 7) % 2 ^ 32 / 8 * 8

def kPackedLargeBinderWeakType : BitVec 32 := packLargeType (typeCode 0x77622a#32)

/-- A parcel: `data` are the first `m_length` bytes of `m_data`. `acquired` has the
objects that `acquire_object` was called for, in order. -/
structure SParcel where
  data : List Byte
  pos : ℤ
  avail : ℤ
  acquired : List (BitVec 32 × BitVec 32) := []

namespace SParcel

/-- `m_length`. -/
def length (p : SParcel) : ℤ := p.data.length

/-- The parcel with `buffer` at the position, in a block of `avail` bytes. -/
def put (p : SParcel) (buffer : List Byte) (avail : ℤ) : SParcel :=
  { p with
    data := p.data.take p.pos.toNat ++ buffer ++ p.data.drop (p.pos.toNat + buffer.length)
    pos := p.pos + buffer.length
    avail := avail }

/-- The block that `Write` and `WriteBinder` move to when `need` bytes do not fit. -/
def grown (p : SParcel) (need : ℤ) : ℤ :=
  if need > p.avail * 3 / 2 then need else p.avail * 3 / 2

/-- `SParcel::Write`. Both its paths put the bytes at the position. -/
def write (p : SParcel) (buffer : List Byte) : Except Fault (ℤ × SParcel) :=
  let need := p.pos + buffer.length
  if ssize need ≤ p.avail then
    if need ≤ p.avail then .ok (buffer.length, p.put buffer p.avail) else .error .memory
  else .ok (buffer.length, p.put buffer (p.grown need))

def writeSmallData (p : SParcel) (packedType packedData : BitVec 32) :
    Except Fault (ℤ × SParcel) :=
  p.write (wordBytes packedType ++ wordBytes packedData)

/-- `SParcel::WritePadded`: the last word of the bytes in the block is masked, or the
zeros are written after them. -/
def writePadded (p : SParcel) (buffer : List Byte) : Except Fault (ℤ × SParcel) :=
  let padded := valueDataAlign buffer.length
  let zeros := List.replicate (padded - buffer.length) (0 : Byte)
  if ssize (p.pos + padded) ≤ p.avail then
    if p.pos + padded ≤ p.avail then .ok (padded, p.put (buffer ++ zeros) p.avail)
    else .error .memory
  else do
    let (_, p) ← p.write buffer
    let (_, p) ← p.write zeros
    return (padded, p)

def writeLargeData (p : SParcel) (packedType : BitVec 32) (data : List Byte) :
    Except Fault (ℤ × SParcel) := do
  let (_, p) ← p.writeSmallData packedType (BitVec.ofNat 32 data.length)
  let (result, p) ← p.writePadded data
  return (result + 8, p)

/-- `SParcel::WriteBinder`, with the flattened pointers. `ReAlloc` makes all of the
new block the length of the parcel; the bytes it does not copy are shown as zeros. -/
def writeBinder (p : SParcel) (type binder cookie : BitVec 32) : Except Fault (ℤ × SParcel) :=
  let value := wordBytes (packLargeType (unpackTypeCode type)) ++ wordBytes 8 ++
    wordBytes binder ++ wordBytes cookie
  let need := p.pos + 16
  let p := if need > p.avail then
      { p with
        data := p.data ++ List.replicate ((p.grown need).toNat - p.data.length) 0
        avail := p.grown need }
    else p
  let p := p.put value p.avail
  if binder = 0 then .ok (16, p)
  else .ok (16, { p with acquired := p.acquired ++ [(packLargeType (unpackTypeCode type), binder)] })

/-- `SParcel::Read` of `amount` bytes to a place with room for `room`: the bytes, the
result and the parcel. -/
def read (p : SParcel) (amount room : ℕ) : Except Fault (List Byte × ℤ × SParcel) :=
  if ssize (p.pos + amount) ≤ p.length then
    if 0 ≤ p.pos ∧ p.pos + amount ≤ p.length ∧ amount ≤ room then
      .ok ((p.data.drop p.pos.toNat).take amount, amount, { p with pos := p.pos + amount })
    else .error .memory
  else
    -- the rest of the block, and there is nothing to refill it from
    let rest := p.data.drop p.pos.toNat
    if 0 ≤ p.pos ∧ rest.length ≤ room then
      if ssize (amount - rest.length) ≥ p.avail then
        .ok (rest, rest.length, { p with pos := max p.pos p.length })
      else .ok (rest, rest.length, { p with data := [], pos := 0 })
    else .error .memory

/-- `SParcel::ReadSmallData`: the two words and the result. -/
def readSmallData (p : SParcel) : Except Fault ((BitVec 32 × BitVec 32) × ℤ × SParcel) := do
  let (bytes, amt, p) ← p.read 8 8
  return ((wordOf (bytes.take 4), wordOf (bytes.drop 4)), amt, p)

def drain (p : SParcel) (amount : ℤ) : SParcel :=
  if ssize (p.pos + amount) ≤ p.length then { p with pos := ssize (p.pos + amount) }
  else
    let sofar := p.length - p.pos
    if sofar < ssize amount then { p with data := [], pos := 0 }
    else { p with pos := ssize (sofar - amount) }

/-- The word at `offset` from the position. -/
def wordAt (p : SParcel) (offset : ℕ) : Except Fault (BitVec 32) :=
  if 0 ≤ p.pos ∧ p.pos + offset + 4 ≤ p.length then
    .ok (wordOf ((p.data.drop (p.pos.toNat + offset)).take 4))
  else .error .memory

def acquireObject (p : SParcel) (object : BitVec 32 × BitVec 32) : SParcel :=
  { p with acquired := p.acquired ++ [object] }

/-- The part of `ReadSmallDataOrObject` after the header of an object. What the weak
reference of an object is made of is not modelled, only that its pointers are read. -/
def readObject (p : SParcel) (type data : BitVec 32) :
    Except Fault ((BitVec 32 × BitVec 32) × ℤ × SParcel) :=
  let dataSize : ℤ := data.toNat
  let small := packSmallType (unpackTypeCode type) 4
  if dataSize < 8 then .ok ((type, data), badType, p)
  else if ssize (p.pos + dataSize) ≤ p.length then do
    let binder ← p.wordAt 0
    let _ ← (if binder ≠ 0 ∧ type = kPackedLargeBinderWeakType then p.wordAt 4 else .ok 0)
    let p := { p with pos := ssize (p.pos + dataSize) }
    return ((small, binder), ssize (8 + dataSize), p.acquireObject (small, binder))
  else do
    let (bytes, amt, p) ← p.read 8 8
    if amt ≠ 8 then return ((type, data), if amt < 0 then amt else dataTruncated, p)
    let binder := wordOf (bytes.take 4)
    let p := p.acquireObject (small, binder)
    return ((small, binder), ssize (8 + dataSize),
      if dataSize > 8 then p.drain (dataSize - 8) else p)

/-- `SParcel::ReadSmallDataOrObject`: the type and data words and the result. -/
def readSmallDataOrObject (p : SParcel) :
    Except Fault ((BitVec 32 × BitVec 32) × ℤ × SParcel) := do
  let ((type, data), amt, p) ← p.readSmallData
  if amt ≠ 8 ∨ isLargeObject type = false then return ((type, data), amt, p)
  p.readObject type data

variable {p p' : SParcel}

theorem read_acquired {amount room : ℕ} {bytes : List Byte} {amt : ℤ}
    (h : p.read amount room = .ok (bytes, amt, p')) : p'.acquired = p.acquired := by
  unfold read at h
  simp only at h
  split at h
  · split at h
    · cases h; rfl
    · cases h
  · split at h
    · split at h <;> (cases h; rfl)
    · cases h

theorem drain_acquired (p : SParcel) (amount : ℤ) : (p.drain amount).acquired = p.acquired := by
  unfold drain
  simp only
  split
  · rfl
  · split <;> rfl

/-- What `ReadSmallDataOrObject` comes back with after the header of an object: the
header and an error, or the object with a reference taken. -/
theorem readObject_cases {type data t d : BitVec 32} {amt : ℤ}
    (h : p.readObject type data = .ok ((t, d), amt, p')) :
    (t = type ∧ d = data ∧ (data.toNat < 8 ∨ p.length < ssize (p.pos + data.toNat)) ∧
      p'.acquired = p.acquired) ∨
    t = packSmallType (unpackTypeCode type) 4 ∧ p'.acquired = p.acquired ++ [(t, d)] := by
  unfold readObject at h
  simp only at h
  split at h
  · rename_i hd
    obtain ⟨⟨rfl, rfl⟩, rfl, rfl⟩ := h
    exact .inl ⟨rfl, rfl, .inl (by exact_mod_cast hd), rfl⟩
  split at h
  · obtain ⟨binder, -, h⟩ := bind_eq_ok.1 h
    obtain ⟨cookie, -, h⟩ := bind_eq_ok.1 h
    simp only [pure_eq_ok, Except.ok.injEq, Prod.mk.injEq] at h
    obtain ⟨⟨rfl, rfl⟩, rfl, rfl⟩ := h
    exact .inr ⟨rfl, rfl⟩
  · rename_i hpos
    obtain ⟨⟨bytes, amt', p₁⟩, hr, h⟩ := bind_eq_ok.1 h
    have hacq := read_acquired hr
    split at h
    · simp only [pure_eq_ok, Except.ok.injEq, Prod.mk.injEq] at h
      obtain ⟨⟨rfl, rfl⟩, rfl, rfl⟩ := h
      exact .inl ⟨rfl, rfl, .inr (by omega), hacq⟩
    · simp only [pure_eq_ok, Except.ok.injEq, Prod.mk.injEq] at h
      obtain ⟨⟨rfl, rfl⟩, rfl, rfl⟩ := h
      refine .inr ⟨rfl, ?_⟩
      rw [← hacq]
      split
      · rw [drain_acquired]; rfl
      · rfl

/-- What `Read` comes back with: as many bytes as its result, and no more than there is
room for. -/
theorem read_length {amount room : ℕ} {bytes : List Byte} {amt : ℤ}
    (h : p.read amount room = .ok (bytes, amt, p')) : amt = bytes.length ∧ bytes.length ≤ room := by
  unfold read at h
  simp only at h
  split at h
  · split at h
    · rename_i hc
      obtain ⟨rfl, rfl, -⟩ := h
      have : ((p.data.drop p.pos.toNat).take amount).length = amount := by
        unfold length at hc
        simp only [List.length_take, List.length_drop]
        omega
      rw [this]
      exact ⟨rfl, hc.2.2⟩
    · cases h
  · split at h
    · rename_i hc
      split at h
      · simp only [Except.ok.injEq, Prod.mk.injEq] at h
        obtain ⟨rfl, rfl, -⟩ := h
        exact ⟨rfl, hc.2⟩
      · simp only [Except.ok.injEq, Prod.mk.injEq] at h
        obtain ⟨rfl, rfl, -⟩ := h
        exact ⟨rfl, hc.2⟩
    · cases h

end SParcel

end OpenBinder
