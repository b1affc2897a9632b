import OpenBinder.Parcel.Parcel
import OpenBinder.Value.Basic

/-!
# Archiving and unarchiving values

An archived value is a header of two words, followed by

* nothing, for small data: the header is the type word and `m_data.local`;
* the bytes, padded with zeros to a multiple of eight, for a large block;
* the number of pairs and the pairs, keys and values in turn, for a map.

`ArchivedSize` says how many bytes that is. For a map it goes by the cached size of
the table when there is one.

`Unarchive` recurses on the maps inside of maps. Here the recursion has **fuel**: one
call for each map header, so the length of the parcel is enough
(`unarchive_ne_depth`).
-/

namespace OpenBinder

open Lib

/-- How many pairs the block has room for that `BValueMap::Create` makes for `count`
pairs: none, when its size wraps around to less than the head of a `BValueMap`. -/
def slots (count : ℕ) : Option ℕ :=
  if count ≤ 6 then some (BValueMap.capacity count)
  else
    let bytes := (24 + 16 * count) % 2 ^ 32
    if bytes < 24 then none else some ((bytes - 24) / 16)

namespace SValue

mutual

def archivedSize : SValue → ℤ
  | small type data =>
    if (small type data).isError then (small type data).errorCheck
    else if (small type data).isObject then 16 else 8
  | large _ buffer => ssize (8 + valueDataAlign buffer.length)
  | map ⟨_, dataSize, maps⟩ =>
    ssize (16 + match dataSize with
      | some size => size
      | none => computeArchivedSize maps)

/-- `BValueMap::ComputeArchivedSize`. -/
def computeArchivedSize : List Pair → ℤ
  | [] => 0
  | (k, v) :: rest => ssize (archivedSize k + archivedSize v + computeArchivedSize rest)

end

/-- `BValueMap::ArchivedSize`. -/
def mapArchivedSize (m : BValueMap SValue) : ℤ :=
  match m.dataSize with
  | some size => size
  | none => computeArchivedSize m.maps

/-- What is written for a map before its pairs. -/
def mapHeader (m : BValueMap SValue) : List Byte :=
  wordBytes kMapTypeCode ++
    wordBytes (BitVec.ofNat 32 (8 + valueDataAlign (size (mapArchivedSize m)).toNat)) ++
    wordBytes (BitVec.ofNat 32 m.countMaps) ++ wordBytes 1

section Archive

-- The pointers that `WriteBinder` flattens an object to, by its type and data words:
-- the binder and the cookie.
variable (flat : BitVec 32 → BitVec 32 → BitVec 32 × BitVec 32)

mutual

def archive : SValue → SParcel → Except Fault (ℤ × SParcel)
  | small type data, into =>
    if (small type data).isError then .ok ((small type data).errorCheck, into)
    else if (small type data).isObject then
      into.writeBinder type.1 (flat type.1 data).1 (flat type.1 data).2
    else into.writeSmallData type.1 data
  | large type buffer, into => into.writeLargeData type.1 buffer
  | map ⟨avail, dataSize, maps⟩, into => do
    let (_, into) ← into.write (mapHeader ⟨avail, dataSize, maps⟩)
    let (err, into) ← archiveMaps maps 0 into
    return (if 0 ≤ err then ssize (16 + err) else err, into)

/-- The loop of `BValueMap::Archive`, with the bytes written so far. -/
def archiveMaps : List Pair → ℤ → SParcel → Except Fault (ℤ × SParcel)
  | [], total, into => .ok (total, into)
  | (k, v) :: rest, total, into => do
    let (sizeK, into) ← archive k into
    if sizeK < 0 then return (sizeK, into)
    let (sizeV, into) ← archive v into
    if sizeV < 0 then return (sizeV, into)
    archiveMaps rest (ssize (ssize (total + sizeK) + sizeV)) into

end

end Archive

/-- How `unarchive_internal` ends in an error: the value is the error, which is also
the result. -/
def failed (err : ℤ) (source : SParcel) : SValue × ℤ × SParcel :=
  let code := if err < 0 then err else badData
  (error (BitVec.ofInt 32 code), code, source)

/-- The part of `unarchive_internal` for a large block. `alloc_data` gives `m_data.local`
for a length up to four, else a buffer, which must have room for its length. -/
def unarchiveLarge (htype hdata : BitVec 32) (source : SParcel) :
    Except Fault (SValue × ℤ × SParcel) :=
  let len := hdata.toNat
  let readSize := valueDataAlign len
  if h : len ≤ typeLengthMax then do
    let (_, err, source) ← source.read readSize 4
    if err ≠ readSize then return failed err source
    return (small ⟨packSmallType htype len, by rw [unpackTypeLength_packSmallType htype h]; exact h⟩ 0,
      ssize (8 + readSize), source)
  else if readSize < len then .error .memory
  else do
    let (bytes, err, source) ← source.read readSize readSize
    if err ≠ readSize then return failed err source
    return (large ⟨packLargeType htype, unpackTypeLength_packLargeType htype⟩ (bytes.take len),
      ssize (8 + readSize), source)

/-- The loop of `BValueMap::Create`, to read `count` pairs into a block with room for
`room` more. It comes back with an error or zero, the pairs, what remains of the
bytes it may read, and the parcel. -/
def createMaps (unarchive : SParcel → ℤ → Except Fault (SValue × ℤ × SParcel)) :
    ℕ → ℕ → SParcel → ℤ → Except Fault (ℤ × List Pair × ℤ × SParcel)
  | 0, _, source, remain => .ok (0, [], remain, source)
  | _ + 1, 0, _, _ => .error .memory
  | count + 1, room + 1, source, remain => do
    let (key, size, source) ← unarchive source remain
    if size < 0 then return (size, [], remain, source)
    let remain := ssize (remain - size)
    let (value, size, source) ← unarchive source remain
    if size < 0 then return (size, [], remain, source)
    let (err, maps, remain, source) ← createMaps unarchive count room source (ssize (remain - size))
    return (err, (key, value) :: maps, remain, source)

/-- `SValue::unarchive_internal`, on the value that the result is put in. The results
of reading are compared as unsigned words. -/
def unarchiveInternal : ℕ → SParcel → ℤ → Except Fault (SValue × ℤ × SParcel)
  | 0, _, _ => .error .depth
  | fuel + 1, source, avail => do
    if size avail < 8 then return failed 0 source
    let ((htype, hdata), err, source) ← source.readSmallDataOrObject
    if size err < 8 then return failed err source
    if h : unpackTypeLength htype ≤ typeLengthMax then return (small ⟨htype, h⟩ hdata, err, source)
    if unpackTypeLength htype = typeLengthLarge then return ← unarchiveLarge htype hdata source
    let ((count, _), err, source) ← source.readSmallData
    if err ≠ 8 then return failed err source
    match slots count.toNat with
    | none => .error .memory
    | some room => do
      let avail := ssize (avail - 16)
      let (err, maps, remain, source) ←
        createMaps (unarchiveInternal fuel) count.toNat room source avail
      if err < 0 then return failed err source
      let dataSize := ssize (avail - remain)
      if dataSize < 0 then return failed dataSize source
      return (map ⟨room, some dataSize.toNat, maps⟩, ssize (16 + dataSize), source)

/-- `SValue::Unarchive`: the value, the result and the parcel. -/
def unarchive (source : SParcel) : Except Fault (SValue × ℤ × SParcel) :=
  unarchiveInternal (source.data.length + 1) source 0x7fffffff

theorem createMaps_succ {f : SParcel → ℤ → Except Fault (SValue × ℤ × SParcel)}
    {count room : ℕ} {source source' : SParcel} {remain remain' err : ℤ} {maps : List Pair}
    (herr : 0 ≤ err) :
    createMaps f (count + 1) (room + 1) source remain = .ok (err, maps, remain', source') ↔
      ∃ key size source₁ value size' source₂ rest,
        f source remain = .ok (key, size, source₁) ∧ 0 ≤ size ∧
        f source₁ (ssize (remain - size)) = .ok (value, size', source₂) ∧ 0 ≤ size' ∧
        createMaps f count room source₂ (ssize (ssize (remain - size) - size')) =
          .ok (err, rest, remain', source') ∧
        maps = (key, value) :: rest := by
  rw [createMaps]
  constructor
  · intro h
    obtain ⟨⟨key, size, source₁⟩, hk, h⟩ := bind_eq_ok.1 h
    simp only at h
    split at h
    · simp only [pure_eq_ok, Except.ok.injEq, Prod.mk.injEq] at h
      omega
    obtain ⟨⟨value, size', source₂⟩, hv, h⟩ := bind_eq_ok.1 h
    simp only at h
    split at h
    · simp only [pure_eq_ok, Except.ok.injEq, Prod.mk.injEq] at h
      omega
    obtain ⟨⟨err', rest, remain'', source''⟩, hr, h⟩ := bind_eq_ok.1 h
    obtain ⟨rfl, rfl, rfl, rfl⟩ := h
    exact ⟨key, size, source₁, value, size', source₂, rest, hk, by omega, hv, by omega, hr, rfl⟩
  · rintro ⟨key, size, source₁, value, size', source₂, rest, hk, h0, hv, h0', hr, rfl⟩
    rw [hk, ok_bind]
    simp only
    rw [if_neg (by omega), hv, ok_bind]
    simp only
    rw [if_neg (by omega), hr]
    rfl

end SValue

end OpenBinder
