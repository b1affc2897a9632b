import Mathlib.Tactic.Ring
import OpenBinder.Parcel.Archive
import OpenBinder.Parcel.Integrity

/-!
# What `Archive` writes

* `wireBytes`: the bytes of a value without objects. `Archive` at the end of a parcel
  appends them and comes back with their number (`archive_spec`).
* `staleness`: by how much the cached sizes of the tables in a value are off.
  `ArchivedSize` is the number of bytes plus that, as a 32-bit word
  (`archivedSize_eq`).
-/

namespace OpenBinder

open Lib List

namespace SParcel

/-- The parcel with `bytes` at its end and the position after them. -/
def appended (p : SParcel) (bytes : List Byte) (avail : ℤ) : SParcel :=
  { p with data := p.data ++ bytes, pos := p.length + bytes.length, avail := avail }

/-- The position is at the end. -/
def AtEnd (p : SParcel) : Prop := p.pos = p.length

theorem atEnd_appended (p : SParcel) (bytes : List Byte) (avail : ℤ) :
    (p.appended bytes avail).AtEnd := by
  simp [AtEnd, appended, length]

theorem appended_appended (p : SParcel) (a b : List Byte) (m n : ℤ) :
    (p.appended a m).appended b n = p.appended (a ++ b) n := by
  simp [appended, length, add_assoc]

theorem length_appended (p : SParcel) (bytes : List Byte) (avail : ℤ) :
    (p.appended bytes avail).length = p.length + bytes.length := by
  simp [appended, length]

theorem put_end {p : SParcel} (h : p.AtEnd) (buffer : List Byte) (avail : ℤ) :
    p.put buffer avail = p.appended buffer avail := by
  unfold AtEnd length at h
  simp [put, appended, length, h]

theorem write_end {p : SParcel} (h : p.AtEnd) (buffer : List Byte)
    (hlen : p.length + buffer.length < 2 ^ 31) :
    ∃ avail, p.write buffer = .ok (buffer.length, p.appended buffer avail) := by
  have hpos : p.pos = p.length := h
  have h0 : 0 ≤ p.length := by unfold length; omega
  unfold write
  simp only [hpos, put_end h]
  rw [ssize_of_lt (by omega) hlen]
  split
  · exact ⟨_, rfl⟩
  · exact ⟨_, rfl⟩

end SParcel

theorem valueDataAlign_of_lt {n : ℕ} (h : n + 7 < 2 ^ 32) : valueDataAlign n = (n + 7) / 8 * 8 := by
  unfold valueDataAlign
  rw [Nat.mod_eq_of_lt h]

/-- The bytes with zeros up to a multiple of eight. -/
def padded (buffer : List Byte) : List Byte :=
  buffer ++ List.replicate (valueDataAlign buffer.length - buffer.length) 0

theorem padded_length {buffer : List Byte} (h : buffer.length + 7 < 2 ^ 32) :
    (padded buffer).length = valueDataAlign buffer.length := by
  have := valueDataAlign_of_lt h
  simp only [padded, length_append, length_replicate]
  omega

theorem length_le_padded (buffer : List Byte) : buffer.length ≤ (padded buffer).length := by
  simp [padded]

namespace SParcel

/-- **A way to say what is written**: `W p bytes q` that `q` is `p` with the bytes written, and
`Ready p` that more can be. Binders can be written if `binders`. -/
structure Writer (Ready : SParcel → Prop) (W : SParcel → List Byte → SParcel → Prop)
    (binders : Prop) : Prop where
  pos_nonneg : ∀ {p}, Ready p → 0 ≤ p.pos
  refl : ∀ {p}, Ready p → W p [] p
  ready : ∀ {p bytes q}, Ready p → W p bytes q → Ready q
  pos : ∀ {p bytes q}, Ready p → W p bytes q → q.pos = p.pos + bytes.length
  trans : ∀ {p a q b r}, W p a q → W q b r → W p (a ++ b) r
  write : ∀ {p} (bytes : List Byte), Ready p → p.pos + bytes.length < 2 ^ 31 →
    ∃ q, p.write bytes = .ok (bytes.length, q) ∧ W p bytes q
  writeBinder : ∀ {p} (type binder cookie : BitVec 32), binders → Ready p → p.pos + 16 < 2 ^ 31 →
    ∃ q, p.writeBinder type binder cookie = .ok (16, q) ∧
      W p (wordBytes (packLargeType (unpackTypeCode type)) ++ wordBytes 8 ++
        (wordBytes binder ++ wordBytes cookie)) q

section Writer

variable {Ready : SParcel → Prop} {W : SParcel → List Byte → SParcel → Prop} {binders : Prop}

variable {p : SParcel}

section

variable (w : Writer Ready W binders) (h : Ready p)
include w h

theorem Writer.writeSmallData (type data : BitVec 32) (hlen : p.pos + 8 < 2 ^ 31) :
    ∃ q, p.writeSmallData type data = .ok (8, q) ∧ W p (wordBytes type ++ wordBytes data) q :=
  w.write (wordBytes type ++ wordBytes data) h hlen

theorem Writer.writePadded (buffer : List Byte) (hlen : p.pos + (padded buffer).length < 2 ^ 31) :
    ∃ q, p.writePadded buffer = .ok ((padded buffer).length, q) ∧ W p (padded buffer) q := by
  have h0 := w.pos_nonneg h
  have hle := length_le_padded buffer
  have hp : (padded buffer).length = valueDataAlign buffer.length := padded_length (by omega)
  have hsize := ssize_of_lt (show -2 ^ 31 ≤ p.pos + (padded buffer).length by omega) hlen
  unfold SParcel.writePadded
  dsimp only
  rw [← hp, hsize]
  by_cases hfit : p.pos + (padded buffer).length ≤ p.avail
  · obtain ⟨q, hq, hw⟩ := w.write (padded buffer) h hlen
    unfold SParcel.write at hq
    dsimp only at hq
    rw [hsize, if_pos hfit, if_pos hfit] at hq
    refine ⟨q, ?_, hw⟩
    rw [if_pos hfit, if_pos hfit, ← hq, hp]
    rfl
  · rw [if_neg hfit]
    obtain ⟨q, hq, hw⟩ := w.write buffer h (by omega)
    have hpos := w.pos h hw
    obtain ⟨r, hr, hw'⟩ := w.write
      (List.replicate ((padded buffer).length - buffer.length) (0 : Byte)) (w.ready h hw)
      (by rw [length_replicate]; omega)
    refine ⟨r, ?_, ?_⟩
    · rw [hq, ok_bind]
      rw [hr]
      rfl
    · rw [hp] at hw'
      exact w.trans hw hw'

theorem Writer.writeLargeData (type : BitVec 32) {data : List Byte}
    (hlen : p.pos + (8 + (padded data).length) < 2 ^ 31) :
    ∃ q, p.writeLargeData type data = .ok (8 + (padded data).length, q) ∧
      W p (wordBytes type ++ wordBytes (BitVec.ofNat 32 data.length) ++ padded data) q := by
  obtain ⟨q, hq, hw⟩ := w.writeSmallData h type (BitVec.ofNat 32 data.length) (by omega)
  have hpos := w.pos h hw
  have hlen8 : (wordBytes type ++ wordBytes (BitVec.ofNat 32 data.length)).length = 8 := rfl
  obtain ⟨r, hr, hw'⟩ := w.writePadded (w.ready h hw) data (by omega)
  refine ⟨r, ?_, w.trans hw hw'⟩
  unfold SParcel.writeLargeData
  rw [hq, ok_bind]
  dsimp only
  rw [hr, ok_bind, add_comm]
  rfl

end

end Writer

theorem appends : Writer AtEnd (fun p bytes q => p.AtEnd ∧ ∃ avail, q = p.appended bytes avail)
    False where
  pos_nonneg := by
    intro p h
    have : p.pos = p.length := h
    rw [this]
    exact Int.natCast_nonneg _
  refl := by
    intro p h
    have : p.pos = p.length := h
    refine ⟨h, p.avail, ?_⟩
    simp [appended, ← this]
  ready := by
    rintro p bytes q - ⟨-, avail, rfl⟩
    exact p.atEnd_appended bytes avail
  pos := by
    rintro p bytes q h ⟨-, avail, rfl⟩
    have : p.pos = p.length := h
    rw [this]
    rfl
  trans := by
    rintro p a q b r ⟨h, avail, rfl⟩ ⟨-, avail', rfl⟩
    exact ⟨h, avail', p.appended_appended a b avail avail'⟩
  write := by
    intro p bytes h hlen
    have hpos : p.pos = p.length := h
    obtain ⟨avail, hw⟩ := write_end h bytes (by rw [← hpos]; exact hlen)
    exact ⟨_, hw, h, avail, rfl⟩
  writeBinder := fun _ _ _ h => h.elim

end SParcel

namespace SValue

mutual

/-- The bytes of a value without objects. -/
@[grind =] def wireBytes : SValue → List Byte
  | small type data => wordBytes type.1 ++ wordBytes data
  | large type buffer =>
    wordBytes type.1 ++ wordBytes (BitVec.ofNat 32 buffer.length) ++ padded buffer
  | map ⟨avail, dataSize, maps⟩ => mapHeader ⟨avail, dataSize, maps⟩ ++ wireMaps maps

/-- The bytes of the pairs of a table. -/
@[grind =] def wireMaps : List Pair → List Byte
  | [] => []
  | (k, v) :: rest => wireBytes k ++ (wireBytes v ++ wireMaps rest)

end

/-- How many bytes a value is archived to. -/
def wireSize (v : SValue) : ℕ := v.wireBytes.length

mutual

/-- By how much the cached sizes in a value are off: a cached size counts for all of
its table. -/
@[grind =] def staleness : SValue → ℤ
  | map ⟨_, some size, maps⟩ => size - (wireMaps maps).length
  | map ⟨_, none, maps⟩ => stalenessMaps maps
  | small _ _ => 0
  | large _ _ => 0

/-- By how much the cached sizes in a table are off. -/
@[grind =] def stalenessMaps : List Pair → ℤ
  | [] => 0
  | (k, v) :: rest => staleness k + (staleness v + stalenessMaps rest)

end

theorem mapHeader_length (m : BValueMap SValue) : (mapHeader m).length = 16 := by
  simp [mapHeader]

theorem wireBytes_map (m : BValueMap SValue) :
    (map m).wireBytes = mapHeader m ++ wireMaps m.maps := by
  rw [wireBytes]

theorem wireSize_map (m : BValueMap SValue) :
    (map m).wireSize = 16 + (wireMaps m.maps).length := by
  simp [wireSize, wireBytes_map, mapHeader_length]

theorem wireSize_small (type : SmallType) (data : BitVec 32) : (small type data).wireSize = 8 := by
  simp [wireSize, wireBytes]

theorem wireSize_large (type : LargeType) (buffer : List Byte) :
    (large type buffer).wireSize = 8 + (padded buffer).length := by
  simp [wireSize, wireBytes]
  omega

theorem wireMaps_cons_length (k v : SValue) (l : List Pair) :
    (wireMaps ((k, v) :: l)).length = k.wireSize + (v.wireSize + (wireMaps l).length) := by
  simp [wireMaps, wireSize]

theorem wireSize_ge (v : SValue) : 8 ≤ v.wireSize := by
  cases v with
  | small type data => rw [wireSize_small]
  | large type buffer => rw [wireSize_large]; omega
  | map m => rw [wireSize_map]; omega

theorem wireSize_le_of_mem {l : List Pair} {p : Pair} (h : p ∈ l) :
    p.1.wireSize ≤ (wireMaps l).length ∧ p.2.wireSize ≤ (wireMaps l).length := by
  induction l with
  | nil => cases h
  | cons q l ih =>
    obtain ⟨k, v⟩ := q
    rw [wireMaps_cons_length]
    rcases mem_cons.1 h with rfl | h
    · simp only; omega
    · obtain ⟨h1, h2⟩ := ih h
      omega

theorem isObject_of_objects {v : SValue} (h : v.objects = []) : v.isObject = false := by
  cases v with
  | small type data =>
    by_contra hc
    simp [objects, show isSmallObject type.1 = true by simpa [isObject, mType] using hc] at h
  | large type buffer =>
    have hl := type.2
    simp only [isObject, mType, isSmallObject, beq_eq_false_iff_ne, ne_eq]
    intro he
    have h7 := congrArg (fun x => (x &&& typeLengthMask).toNat) he
    simp only [BitVec.and_assoc, show objectMask &&& typeLengthMask = typeLengthMask by decide] at h7
    unfold unpackTypeLength at hl
    rw [hl] at h7
    exact absurd h7 (by decide)
  | map m => simp only [isObject, mType]; decide

theorem objects_map (m : BValueMap SValue) : (map m).objects = objectsMaps m.maps := by
  rw [objects]

/-- **`ArchivedSize` is the number of bytes, and what cached sizes are off by.** -/
theorem archivedSize_eq : ∀ v : SValue, v.isErrorFree = true → v.objects = [] →
    v.wireSize < 2 ^ 31 → v.archivedSize = ssize (v.wireSize + v.staleness) := by
  intro v
  induction v using SValue.ind with
  | small type data =>
    intro he ho _
    rw [archivedSize, isError_of_isErrorFree he, isObject_of_objects ho, wireSize_small, staleness]
    simp only [Bool.false_eq_true, if_false]
    decide
  | large type buffer =>
    intro _ _ hlt
    rw [wireSize_large] at hlt ⊢
    have := length_le_padded buffer
    rw [archivedSize, staleness, ← padded_length (by omega)]
    simp
  | map m ih =>
    intro he ho hlt
    rw [wireSize_map] at hlt ⊢
    have hmaps : computeArchivedSize m.maps =
        ssize ((wireMaps m.maps).length + stalenessMaps m.maps) := by
      have hm := isErrorFree_map.1 he
      have hom := objectsMaps_eq_nil.1 ((objects_map m).symm.trans ho)
      generalize m.maps = l at *
      induction l with
      | nil => rw [computeArchivedSize, stalenessMaps]; decide
      | cons p l ihl =>
        obtain ⟨k, v⟩ := p
        rw [wireMaps_cons_length] at hlt ⊢
        obtain ⟨ihk, ihv⟩ := ih (k, v) mem_cons_self
        have hl := ihl (fun p hp => ih p (mem_cons_of_mem _ hp)) (by omega)
          (fun p hp => hm p (mem_cons_of_mem _ hp))
          (fun p hp => hom p (mem_cons_of_mem _ hp))
        have hk := ihk (hm _ mem_cons_self).1 (hom _ mem_cons_self).1 (by simp only; omega)
        have hv := ihv (hm _ mem_cons_self).2 (hom _ mem_cons_self).2 (by simp only; omega)
        rw [computeArchivedSize, stalenessMaps, hk, hv, hl, ssize_add_ssize, add_assoc,
          ssize_ssize_add, add_comm, add_assoc, ssize_ssize_add]
        congr 1
        push_cast
        ring
    obtain ⟨avail, dataSize, maps⟩ := m
    cases dataSize with
    | none =>
      simp only [archivedSize] at hmaps ⊢
      rw [hmaps, ssize_add_ssize, staleness]
      congr 1
      push_cast
      ring
    | some size =>
      simp only [archivedSize]
      rw [staleness]
      congr 1
      push_cast
      ring

/-- **`ArchivedSize` is right exactly when what cached sizes are off by does not show.** -/
theorem archivedSize_iff {v : SValue} (he : v.isErrorFree = true) (ho : v.objects = [])
    (hlt : v.wireSize < 2 ^ 31) : v.archivedSize = v.wireSize ↔ (2 : ℤ) ^ 32 ∣ v.staleness := by
  rw [archivedSize_eq v he ho hlt]
  exact ssize_add_eq_self (by omega) (by exact_mod_cast hlt)

/-! ### Objects -/

section Flatten

variable (flat : BitVec 32 → BitVec 32 → BitVec 32 × BitVec 32)

mutual

/-- A value with its objects as what they are on the wire: large blocks with the binder and the
cookie. -/
@[grind =] def flattened : SValue → SValue
  | small type data =>
    if isSmallObject type.1 then
      large ⟨packLargeType (unpackTypeCode type.1), unpackTypeLength_packLargeType _⟩
        (wordBytes (flat type.1 data).1 ++ wordBytes (flat type.1 data).2)
    else small type data
  | large type buffer => large type buffer
  | map ⟨avail, dataSize, maps⟩ => map ⟨avail, dataSize, flattenedMaps maps⟩

/-- A table with its objects as what they are on the wire. -/
@[grind =] def flattenedMaps : List Pair → List Pair
  | [] => []
  | (k, v) :: rest => (flattened k, flattened v) :: flattenedMaps rest

end

theorem flattened_map (m : BValueMap SValue) :
    (map m).flattened flat = map ⟨m.avail, m.dataSize, flattenedMaps flat m.maps⟩ := by
  rw [flattened]

theorem wireBytes_object {type : SmallType} (h : isSmallObject type.1 = true) (data : BitVec 32) :
    ((small type data).flattened flat).wireBytes =
      wordBytes (packLargeType (unpackTypeCode type.1)) ++ wordBytes 8 ++
        (wordBytes (flat type.1 data).1 ++ wordBytes (flat type.1 data).2) := by
  have hpad : padded (wordBytes (flat type.1 data).1 ++ wordBytes (flat type.1 data).2) =
      wordBytes (flat type.1 data).1 ++ wordBytes (flat type.1 data).2 := by
    unfold padded
    rw [length_append, wordBytes_length, wordBytes_length,
      show valueDataAlign (4 + 4) - (4 + 4) = 0 by decide, replicate_zero, append_nil]
  rw [flattened, if_pos h, wireBytes, hpad]
  rfl

theorem flattened_of_objects : ∀ v : SValue, v.objects = [] → v.flattened flat = v := by
  intro v
  induction v using SValue.ind with
  | small type data =>
    intro h
    rw [flattened, if_neg]
    intro ho
    rw [objects, if_pos ho] at h
    cases h
  | large type buffer => intro _; rw [flattened]
  | map m ih =>
    intro h
    rw [objects_map] at h
    have hmaps : flattenedMaps flat m.maps = m.maps := by
      generalize m.maps = l at ih h
      induction l with
      | nil => rw [flattenedMaps]
      | cons p l ihl =>
        have hp := objectsMaps_eq_nil.1 h
        have hl := ihl (fun p hp => ih p (mem_cons_of_mem _ hp))
          (objectsMaps_eq_nil.2 fun p hq => hp p (mem_cons_of_mem _ hq))
        rw [flattenedMaps, (ih _ mem_cons_self).1 (hp _ mem_cons_self).1,
          (ih _ mem_cons_self).2 (hp _ mem_cons_self).2, hl]
    rw [flattened_map, hmaps]

theorem flattened_objects : ∀ v : SValue, (v.flattened flat).objects = [] := by
  intro v
  induction v using SValue.ind with
  | small type data =>
    rw [flattened]
    split
    · rw [objects]
    · rename_i h
      rw [objects, if_neg h]
  | large type buffer => rw [flattened, objects]
  | map m ih =>
    rw [flattened_map, objects_map]
    generalize m.maps = l at ih
    induction l with
    | nil => rw [flattenedMaps, objectsMaps]
    | cons p l ihl =>
      rw [flattenedMaps, objectsMaps, (ih _ mem_cons_self).1, (ih _ mem_cons_self).2,
        ihl fun p hp => ih p (mem_cons_of_mem _ hp)]
      rfl

theorem isErrorFree_large (type : LargeType) (buffer : List Byte) :
    (large type buffer).isErrorFree = true := by
  have hne : type.1 ≠ kErrorTypeCode :=
    (SmallType.ne_large ⟨kErrorTypeCode, by decide⟩ type).symm
  simpa [isErrorFree, isError, mType] using hne

theorem flattened_isErrorFree : ∀ v : SValue, v.isErrorFree = true →
    (v.flattened flat).isErrorFree = true := by
  intro v
  induction v using SValue.ind with
  | small type data =>
    intro h
    rw [flattened]
    split
    · exact isErrorFree_large _ _
    · exact h
  | large type buffer => intro h; rw [flattened]; exact h
  | map m ih =>
    intro h
    rw [flattened_map, isErrorFree_map]
    have hm := isErrorFree_map.1 h
    generalize m.maps = l at ih hm
    induction l with
    | nil =>
      rw [flattenedMaps]
      intro p hp
      cases hp
    | cons p l ihl =>
      rw [flattenedMaps]
      intro p hp
      rcases mem_cons.1 hp with rfl | hp
      · exact ⟨(ih _ mem_cons_self).1 (hm _ mem_cons_self).1,
          (ih _ mem_cons_self).2 (hm _ mem_cons_self).2⟩
      · exact ihl (fun p hp => ih p (mem_cons_of_mem _ hp))
          (fun p hp => hm p (mem_cons_of_mem _ hp)) p hp

theorem isSmallObject_ne_error {type : BitVec 32} (h : isSmallObject type = true) :
    type ≠ kErrorTypeCode := by
  rintro rfl
  exact absurd h (by decide)

theorem archivedSize_flattened : ∀ v : SValue, (v.flattened flat).archivedSize = v.archivedSize := by
  intro v
  induction v using SValue.ind with
  | small type data =>
    rw [flattened]
    split
    · rename_i h
      have herr : (small type data).isError = false := by
        simpa [isError, mType] using isSmallObject_ne_error h
      rw [archivedSize, archivedSize, herr, show (small type data).isObject = true from h,
        length_append, wordBytes_length, wordBytes_length,
        show ssize (8 + (valueDataAlign (4 + 4) : ℕ)) = 16 by decide]
      rfl
    · rfl
  | large type buffer => rw [flattened]
  | map m ih =>
    have hmaps : computeArchivedSize (flattenedMaps flat m.maps) = computeArchivedSize m.maps := by
      generalize m.maps = l at ih
      induction l with
      | nil => rw [flattenedMaps]
      | cons p l ihl =>
        rw [flattenedMaps, computeArchivedSize, computeArchivedSize, (ih _ mem_cons_self).1,
          (ih _ mem_cons_self).2, ihl fun p hp => ih p (mem_cons_of_mem _ hp)]
    rw [flattened_map]
    simp only [archivedSize]
    rw [hmaps]

theorem flattenedMaps_length (l : List Pair) : (flattenedMaps flat l).length = l.length := by
  induction l with
  | nil => rw [flattenedMaps]
  | cons p l ih =>
    rw [flattenedMaps, length_cons, length_cons, ih]

/-- What is written for a map before its pairs does not show its objects. -/
theorem mapHeader_flattened (m : BValueMap SValue) :
    mapHeader ⟨m.avail, m.dataSize, flattenedMaps flat m.maps⟩ = mapHeader m := by
  obtain ⟨avail, dataSize, maps⟩ := m
  unfold mapHeader mapArchivedSize BValueMap.countMaps
  rw [flattenedMaps_length]
  cases dataSize with
  | some size => rfl
  | none =>
    have hmaps : computeArchivedSize (flattenedMaps flat maps) = computeArchivedSize maps := by
      have hall : ∀ l : List Pair, computeArchivedSize (flattenedMaps flat l) = computeArchivedSize l := by
        intro l
        induction l with
        | nil => rw [flattenedMaps]
        | cons p l ih =>
          rw [flattenedMaps, computeArchivedSize, computeArchivedSize, archivedSize_flattened,
            archivedSize_flattened, ih]
      exact hall maps
    rw [hmaps]

end Flatten

theorem archive_writes {flat : BitVec 32 → BitVec 32 → BitVec 32 × BitVec 32}
    {Ready : SParcel → Prop} {W : SParcel → List Byte → SParcel → Prop} {binders : Prop}
    (w : SParcel.Writer Ready W binders) :
    ∀ (v : SValue) (into : SParcel), v.isErrorFree = true → (binders ∨ v.objects = []) →
      Ready into → into.pos + (v.flattened flat).wireSize < 2 ^ 31 →
      ∃ q, archive flat v into = .ok ((v.flattened flat).wireSize, q) ∧
        W into (v.flattened flat).wireBytes q := by
  intro v
  induction v using SValue.ind with
  | small type data =>
    intro into he ho hr hlen
    rw [archive, isError_of_isErrorFree he, if_neg Bool.false_ne_true]
    by_cases hobj : isSmallObject type.1 = true
    · have hb : binders := by
        refine ho.resolve_right fun hnil => ?_
        rw [objects, if_pos hobj] at hnil
        cases hnil
      have hbytes := wireBytes_object flat hobj data
      have hsize : ((small type data).flattened flat).wireSize = 16 := by
        unfold wireSize
        rw [hbytes]
        rfl
      rw [hsize] at hlen ⊢
      rw [show (small type data).isObject = true from hobj, if_pos rfl, hbytes]
      exact w.writeBinder type.1 (flat type.1 data).1 (flat type.1 data).2 hb hr hlen
    · rw [flattened, if_neg hobj, wireSize_small] at hlen
      rw [flattened, if_neg hobj, wireSize_small, wireBytes,
        show (small type data).isObject = isSmallObject type.1 from rfl, if_neg hobj]
      exact w.writeSmallData hr type.1 data hlen
  | large type buffer =>
    intro into _ _ hr hlen
    rw [flattened, wireSize_large] at hlen
    rw [archive, flattened, wireSize_large, wireBytes]
    exact w.writeLargeData hr type.1 (by exact_mod_cast hlen)
  | map m ih =>
    intro into he ho hr hlen
    have hm := isErrorFree_map.1 he
    have hom : ∀ p ∈ m.maps, (binders ∨ p.1.objects = []) ∧ (binders ∨ p.2.objects = []) := by
      intro p hp
      rcases ho with hb | ho
      · exact ⟨.inl hb, .inl hb⟩
      · have := objectsMaps_eq_nil.1 ((objects_map m).symm.trans ho) p hp
        exact ⟨.inr this.1, .inr this.2⟩
    rw [flattened_map, wireSize_map] at hlen
    dsimp only at hlen
    have h0 := w.pos_nonneg hr
    obtain ⟨q, hq, hw⟩ := w.write (mapHeader m) hr
      (by rw [mapHeader_length]; push_cast at hlen ⊢; omega)
    have hpos := w.pos hr hw
    rw [mapHeader_length] at hpos
    -- the loop: what is written so far is `total`
    have hloop : ∀ (l : List Pair), (∀ p ∈ l, p ∈ m.maps) → ∀ (into : SParcel) (total : ℕ),
        Ready into → into.pos + (wireMaps (flattenedMaps flat l)).length < 2 ^ 31 →
        total ≤ into.pos →
        ∃ q, archiveMaps flat l total into =
          .ok ((total + (wireMaps (flattenedMaps flat l)).length : ℕ), q) ∧
          W into (wireMaps (flattenedMaps flat l)) q := by
      intro l
      induction l with
      | nil =>
        intro _ into total hr _ _
        refine ⟨into, ?_, ?_⟩
        · rw [archiveMaps, flattenedMaps, wireMaps]
          rfl
        · rw [flattenedMaps, wireMaps]
          exact w.refl hr
      | cons p l ihl =>
        intro hsub into total hr hlen htotal
        obtain ⟨k, v⟩ := p
        have hmem := hsub _ mem_cons_self
        rw [flattenedMaps, wireMaps_cons_length] at hlen
        have hkl : ((k.flattened flat).wireBytes.length : ℤ) = (k.flattened flat).wireSize := rfl
        have hvl : ((v.flattened flat).wireBytes.length : ℤ) = (v.flattened flat).wireSize := rfl
        obtain ⟨a, ha, hwa⟩ := (ih _ hmem).1 into (hm _ hmem).1 (hom _ hmem).1 hr
          (by simp only; omega)
        have hra := w.ready hr hwa
        have hpa := w.pos hr hwa
        obtain ⟨b, hb, hwb⟩ := (ih _ hmem).2 a (hm _ hmem).2 (hom _ hmem).2 hra
          (by simp only at hpa ⊢; omega)
        have hrb := w.ready hra hwb
        have hpb := w.pos hra hwb
        simp only at ha hb hpa hpb hwa hwb
        obtain ⟨c, hc, hwc⟩ := ihl (fun p hp => hsub p (mem_cons_of_mem _ hp)) b
          (total + (k.flattened flat).wireSize + (v.flattened flat).wireSize) hrb
          (by omega) (by push_cast; omega)
        refine ⟨c, ?_, ?_⟩
        · rw [archiveMaps, ha, ok_bind]
          dsimp only
          rw [if_neg (by omega), hb, ok_bind]
          rw [if_neg (by omega), ssize_ssize_add, ssize_of_lt (by omega) (by omega)]
          push_cast at hc
          rw [hc, flattenedMaps, wireMaps_cons_length]
          congr 2
          push_cast
          ring
        · rw [flattenedMaps, wireMaps]
          exact w.trans hwa (w.trans hwb hwc)
    obtain ⟨r, hr', hw'⟩ := hloop m.maps (fun _ h => h) q 0 (w.ready hr hw)
      (by push_cast at hlen; omega) (by push_cast; omega)
    refine ⟨r, ?_, ?_⟩
    · rw [flattened_map, wireSize_map]
      rw [archive, hq, ok_bind]
      dsimp only
      rw [show ((0 : ℕ) : ℤ) = 0 from rfl, zero_add] at hr'
      rw [hr', ok_bind]
      rw [if_pos (by omega), ssize_of_lt (by omega) (by omega)]
      rfl
    · rw [flattened_map, wireBytes_map, mapHeader_flattened]
      exact w.trans hw hw'

theorem archive_spec (flat : BitVec 32 → BitVec 32 → BitVec 32 × BitVec 32) (v : SValue)
    (into : SParcel) (he : v.isErrorFree = true) (ho : v.objects = []) (hend : into.AtEnd)
    (hlen : into.length + v.wireSize < 2 ^ 31) :
    ∃ avail, archive flat v into = .ok (v.wireSize, into.appended v.wireBytes avail) := by
  have hpos : into.pos = into.length := hend
  have hflat := flattened_of_objects flat v ho
  obtain ⟨q, hq, -, avail, rfl⟩ := @archive_writes flat _ _ _ SParcel.appends v into he (.inr ho)
    hend (by rw [hflat, hpos]; exact hlen)
  rw [hflat] at hq
  exact ⟨avail, hq⟩

end SValue

end OpenBinder
