import OpenBinder.Parcel.TypedLaw

/-!
# Skipping a value

`SkipValue` goes by the length in the first header. `Unarchive` goes by what it reads.

* A large block that looks like an object is read without its padding. `isStraight` is what a value
  needs for all of its blocks to be passed whole.
* The length in the header of a map is what `ArchivedSize` says, rounded up. `isAligned` says when
  that is as long as the map.
* `skipValue_iff`: when the two leave the parcel at one place.
-/

namespace OpenBinder

open Lib List

namespace SParcel

/-- The part of `SkipValue` after the header. -/
def skipData (p : SParcel) (type data : BitVec 32) : ℤ × SParcel :=
  if unpackTypeLength type ≤ typeLengthMax then (0, p)
  else
    let amount : ℤ := valueDataAlign data.toNat
    (p.drained amount, p.drain amount)

def skipValue (p : SParcel) : Except Fault (ℤ × SParcel) :=
  if ssize (p.pos + 8) ≤ p.length then do
    let type ← p.wordAt 0
    let data ← p.wordAt 4
    return skipData { p with pos := p.pos + 8 } type data
  else do
    let ((type, data), amt, p) ← p.readSmallData
    if amt = 8 then return p.skipData type data
    else return (if amt < 0 then amt else -1, p)

variable {p q : SParcel} {rest : List Byte}

theorem At.skipValue {type data : BitVec 32} (h : p.At (wordBytes type ++ wordBytes data) rest) :
    p.skipValue = .ok ((p.skip 8).skipData type data) := by
  have hl := h.length_eq
  have h0 := h.pos_nonneg
  have hlt := h.length_lt
  have h8 : (wordBytes type ++ wordBytes data).length = 8 := rfl
  obtain ⟨ht, hd⟩ := h.wordAt
  unfold SParcel.skipValue
  rw [ssize_of_lt (by omega) (by omega), if_pos (by omega), ht, ok_bind, hd, ok_bind]
  rfl

/-- **What is drained to a place in the parcel.** A smaller number is not enough, and a larger one
empties the parcel or leaves it. -/
theorem drain_iff {amount n : ℤ} (h0 : 0 ≤ p.pos) (hn : 0 ≤ n) (hle : p.pos + n ≤ p.length)
    (hpos : 0 < p.length) (hlt : p.length < 2 ^ 31) (ha : 0 ≤ amount) (ha' : amount < 2 ^ 32) :
    (p.drain amount).data = p.data ∧ (p.drain amount).pos = p.pos + n ↔ amount = n := by
  unfold drain
  rw [ssize_eq (p.pos + amount), ssize_eq amount]
  dsimp only
  split
  · exact ⟨fun ⟨_, h⟩ => by dsimp only at h; omega, fun h => ⟨rfl, by dsimp only; omega⟩⟩
  · split
    · refine ⟨fun ⟨h, _⟩ => ?_, fun h => by omega⟩
      -- the parcel is not empty
      have hnil : p.data = [] := h.symm
      unfold length at hpos
      rw [hnil] at hpos
      exact absurd hpos (by decide)
    · omega

end SParcel

namespace SValue

open SParcel

mutual

/-- Whether every large block in a value that looks like an object is a multiple of eight long. -/
def isStraight : SValue → Bool
  | map ⟨_, _, maps⟩ => allStraight maps
  | large type buffer => !isLargeObject type.1 || decide (buffer.length < 8 ∨ buffer.length % 8 = 0)
  | small _ _ => true

/-- Whether every large block in a table that looks like an object is a multiple of eight long. -/
def allStraight : List Pair → Bool
  | [] => true
  | (k, v) :: rest => isStraight k && isStraight v && allStraight rest

end

theorem isStraight_map {m : BValueMap SValue} : (map m).isStraight = true ↔
    ∀ p ∈ m.maps, p.1.isStraight = true ∧ p.2.isStraight = true := by
  obtain ⟨avail, dataSize, maps⟩ := m
  rw [isStraight]
  induction maps with
  | nil => simp [allStraight]
  | cons p l ih =>
    simp [allStraight, ih]

section Flat

variable {flat : BitVec 32 → BitVec 32 → BitVec 32 × BitVec 32}

/-- What unarchiving at the bytes of a value does to the position. -/
def Walks (flat : BitVec 32 → BitVec 32 → BitVec 32 × BitVec 32)
    (f : SParcel → ℤ → Except Fault (SValue × ℤ × SParcel)) (v : SValue) : Prop :=
  ∀ ⦃source : SParcel⦄ ⦃rest : List Byte⦄, source.At (v.flattened flat).wireBytes rest →
    ∀ avail : ℤ, ((v.flattened flat).wireSize : ℤ) ≤ avail → avail < 2 ^ 31 →
      ∃ v' source', f source avail = .ok (v', (v.flattened flat).wireSize, source') ∧
        source'.data = source.data ∧ source'.pos = source.pos + (v.flattened flat).wireSize

theorem ReadsFlat.walks {f : SParcel → ℤ → Except Fault (SValue × ℤ × SParcel)} {v : SValue}
    (h : ReadsFlat flat f v) (hu : v.isUnambiguous = true) : Walks flat f v := by
  intro source rest hat avail hle hlt
  obtain ⟨v', hv, -⟩ := h.ok hat avail hle hlt hu
  exact ⟨v', _, hv, rfl, rfl⟩

theorem createMaps_walks {f : SParcel → ℤ → Except Fault (SValue × ℤ × SParcel)} :
    ∀ (l : List Pair), (∀ p ∈ l, Walks flat f p.1 ∧ Walks flat f p.2) →
    ∀ {source : SParcel} {rest : List Byte}, source.At (wireMaps (flattenedMaps flat l)) rest →
    ∀ (remain : ℤ) (room : ℕ), l.length ≤ room →
      ((wireMaps (flattenedMaps flat l)).length : ℤ) ≤ remain → remain < 2 ^ 31 →
      ∃ maps source', createMaps f l.length room source remain =
          .ok (0, maps, remain - (wireMaps (flattenedMaps flat l)).length, source') ∧
        source'.data = source.data ∧
        source'.pos = source.pos + (wireMaps (flattenedMaps flat l)).length := by
  intro l
  induction l with
  | nil =>
    intro _ source rest _ remain room _ _ _
    refine ⟨[], source, ?_, rfl, ?_⟩
    · rw [flattenedMaps, wireMaps]
      simp [createMaps]
    · rw [flattenedMaps, wireMaps, length_nil]
      simp
  | cons p l ih =>
    intro hr source rest hat remain room hroom hle hlt
    obtain ⟨k, v⟩ := p
    obtain ⟨room, rfl⟩ : ∃ n, room = n + 1 := ⟨room - 1, by simp only [length_cons] at hroom; omega⟩
    rw [flattenedMaps] at hat hle ⊢
    rw [wireMaps] at hat
    rw [wireMaps_cons_length] at hle ⊢
    obtain ⟨hrk, hrv⟩ : Walks flat f k ∧ Walks flat f v := hr _ mem_cons_self
    obtain ⟨k', s₁, hk, hdata₁, hpos₁⟩ := hrk hat.left remain (by push_cast at hle; omega) hlt
    have hat₁ := hat.of_moved hdata₁ hpos₁
    generalize hm : (k.flattened flat).wireSize = m at *
    obtain ⟨v', s₂, hv, hdata₂, hpos₂⟩ := hrv hat₁.left (remain - m)
      (by push_cast at hle; omega) (by omega)
    have hat₂ := hat₁.of_moved hdata₂ hpos₂
    generalize hn : (v.flattened flat).wireSize = n at *
    have hs1 : ssize (remain - m) = remain - m := ssize_of_lt (by omega) (by omega)
    have hs2 : ssize (remain - m - n) = remain - m - n := ssize_of_lt (by omega) (by omega)
    obtain ⟨maps, s₃, hmaps, hdata₃, hpos₃⟩ := ih (fun p hp => hr p (mem_cons_of_mem _ hp))
      hat₂ (remain - m - n) room (by simpa using hroom) (by omega) (by omega)
    refine ⟨(k', v') :: maps, s₃, ?_, by rw [hdata₃, hdata₂, hdata₁], ?_⟩
    · refine (createMaps_succ le_rfl).2 ⟨k', m, s₁, v', n, s₂, maps, hk, by omega, ?_, by omega, ?_, rfl⟩
      · rw [hs1]
        exact hv
      · have hremain : remain - m - n - (wireMaps (flattenedMaps flat l)).length =
            remain - ((m + (n + (wireMaps (flattenedMaps flat l)).length) : ℕ) : ℤ) := by
          push_cast
          ring
        rw [hs1, hs2, hmaps, hremain]
    · rw [hpos₃, hpos₂, hpos₁]
      push_cast
      ring

theorem readObject_block {p : SParcel} {type : BitVec 32} {buffer rest : List Byte}
    (h : p.At (wordBytes type ++ wordBytes (BitVec.ofNat 32 buffer.length)) (buffer ++ rest))
    (ho : isLargeObject type = true) (hbig : 8 ≤ buffer.length)
    (hd : (BitVec.ofNat 32 buffer.length).toNat = buffer.length) :
    ∃ binder p', p.readSmallDataOrObject =
        .ok ((packSmallType (unpackTypeCode type) 4, binder), 8 + buffer.length, p') ∧
      p'.data = p.data ∧ p'.pos = p.pos + (8 + buffer.length) := by
  have hl := h.length_eq
  have h0 := h.pos_nonneg
  have hlt := h.length_lt
  have h8 : (wordBytes type ++ wordBytes (BitVec.ofNat 32 buffer.length)).length = 8 := rfl
  rw [h8, length_append] at hl
  have hword : ∀ k : ℕ, k ≤ 4 → ∃ w, (p.skip 8).wordAt k = .ok w := by
    intro k hk
    unfold wordAt
    rw [if_pos ⟨by unfold SParcel.skip; dsimp only; omega,
      by show p.pos + 8 + k + 4 ≤ p.length; omega⟩]
    exact ⟨_, rfl⟩
  obtain ⟨binder, hb⟩ := hword 0 (by omega)
  obtain ⟨other, hother⟩ := hword 4 (by omega)
  have hcookie : ∃ w, (if binder ≠ 0 ∧ type = kPackedLargeBinderWeakType then (p.skip 8).wordAt 4
      else .ok 0) = Except.ok w := by
    split
    · exact ⟨other, hother⟩
    · exact ⟨0, rfl⟩
  obtain ⟨w, hw⟩ := hcookie
  have hsum : ssize ((p.skip 8).pos + (buffer.length : ℤ)) = (p.skip 8).pos + buffer.length :=
    ssize_of_lt (by show -2 ^ 31 ≤ p.pos + 8 + (buffer.length : ℤ); omega)
      (by show p.pos + 8 + (buffer.length : ℤ) < 2 ^ 31; omega)
  have hin : ¬ (buffer.length : ℤ) < 8 := by omega
  rw [SParcel.readSmallDataOrObject, h.readSmallData, ok_bind]
  dsimp only
  rw [if_neg (by simp [ho]), SParcel.readObject]
  rw [hd, if_neg hin, hsum, if_pos (by show p.pos + 8 + (buffer.length : ℤ) ≤ p.length; omega), hb,
    ok_bind, hw, ok_bind, @ssize_of_lt (8 + (buffer.length : ℤ)) (by omega) (by omega)]
  refine ⟨binder, _, rfl, rfl, ?_⟩
  show p.pos + 8 + (buffer.length : ℤ) = _
  ring

theorem walks_large (hflat : ∀ type data, (flat type data).1 = data) (type : LargeType)
    (buffer : List Byte) (hs : (large type buffer).isSound = true)
    (hst : (large type buffer).isStraight = true) (fuel : ℕ)
    (hf : ((large type buffer).flattened flat).wireSize < fuel + 1) :
    Walks flat (unarchiveInternal (fuel + 1)) (large type buffer) := by
  by_cases hu : (large type buffer).isUnambiguous = true
  · exact (unarchiveInternal_readsFlat hflat (large type buffer) hs (fuel + 1) hf).walks hu
  · intro source rest hat avail hle hlt
    obtain ⟨ho, hbig⟩ : isLargeObject type.1 = true ∧ 8 ≤ buffer.length := by
      simpa [isUnambiguous] using hu
    have h8 : buffer.length % 8 = 0 := by
      simpa [isStraight, ho, Nat.not_lt.2 hbig] using hst
    have hw : (large type buffer).flattened flat = large type buffer := by rw [flattened]
    rw [hw] at hat hle ⊢
    obtain ⟨h1, -, hd⟩ := at_large hat
    rw [wireSize_large] at hle ⊢
    have hpadded : padded buffer = buffer := by
      apply padded_of_aligned
      rw [valueDataAlign_of_lt (by omega)]
      omega
    rw [hpadded] at h1 hle ⊢
    obtain ⟨binder, p', hr, hdata, hpos⟩ := readObject_block h1 ho hbig hd
    have hsmall : unpackTypeLength (packSmallType (unpackTypeCode type.1) 4) ≤ typeLengthMax := by
      rw [unpackTypeLength_packSmallType _ (by decide)]
      decide
    refine ⟨small ⟨packSmallType (unpackTypeCode type.1) 4, hsmall⟩ binder, p', ?_, hdata, ?_⟩
    · rw [unarchiveInternal, if_neg (by rw [size_of_lt (by omega) (by omega)]; omega), hr, ok_bind]
      dsimp only
      rw [if_neg (by rw [size_of_lt (by omega) (by omega)]; omega), dif_pos hsmall]
      rfl
    · rw [hpos]
      rfl

/-- **`unarchive_internal` passes every value** that is straight. -/
theorem unarchiveInternal_walks (hflat : ∀ type data, (flat type data).1 = data) :
    ∀ v : SValue, v.isSound = true → v.isStraight = true →
      ∀ fuel, (v.flattened flat).wireSize < fuel → Walks flat (unarchiveInternal fuel) v := by
  intro v
  induction v using SValue.ind with
  | small type data =>
    intro hs _ fuel hf
    exact (unarchiveInternal_readsFlat hflat (small type data) hs fuel hf).walks
      (by rw [isUnambiguous])
  | large type buffer =>
    intro hs hst fuel hf
    obtain ⟨fuel, rfl⟩ : ∃ n, fuel = n + 1 := ⟨fuel - 1, by omega⟩
    exact walks_large hflat type buffer hs hst fuel hf
  | map m ih =>
    intro hs hst fuel hf
    obtain ⟨fuel, rfl⟩ : ∃ n, fuel = n + 1 := ⟨fuel - 1, by omega⟩
    have hlength := flattenedMaps_length flat m.maps
    rw [flattened_map, wireSize_map] at hf
    dsimp only at hf
    have hr : ∀ p ∈ m.maps, Walks flat (unarchiveInternal fuel) p.1 ∧
        Walks flat (unarchiveInternal fuel) p.2 := by
      intro p hp
      have hsp := (isSound_map.1 hs).2 p hp
      have hst' := isStraight_map.1 hst p hp
      obtain ⟨h1, h2⟩ := @flattened_wireSize_le flat _ _ hp
      exact ⟨(ih p hp).1 hsp.1 hst'.1 fuel (by omega), (ih p hp).2 hsp.2 hst'.2 fuel (by omega)⟩
    have hk7 : ¬ unpackTypeLength kMapTypeCode ≤ typeLengthMax := by decide
    have hk5 : ¬ unpackTypeLength kMapTypeCode = typeLengthLarge := by decide
    intro source rest hat avail hle hlt
    rw [flattened_map] at hat hle ⊢
    obtain ⟨length, h1, h2, h3⟩ := at_map hat
    obtain ⟨hcount, room, hroom, hle'⟩ := @slots_some
      ⟨m.avail, m.dataSize, flattenedMaps flat m.maps⟩ (by omega)
    rw [wireSize_map] at hle ⊢
    unfold BValueMap.countMaps at h1 h2 hcount
    dsimp only at h1 h2 h3 hcount hroom hle' hle ⊢
    rw [hlength] at h1 h2 hcount hroom hle'
    obtain ⟨maps, s₁, hm, hdata, hpos⟩ := createMaps_walks m.maps hr h3 (avail - 16) room hle'
      (by omega) (by omega)
    refine ⟨map ⟨room, some (wireMaps (flattenedMaps flat m.maps)).length, maps⟩, s₁, ?_, hdata, ?_⟩
    · rw [unarchiveInternal, if_neg (by rw [size_of_lt (by omega) (by omega)]; omega),
        h1.readSmallDataOrObject (by decide), ok_bind]
      simp only
      rw [if_neg (by decide), dif_neg hk7, if_neg hk5, h2.readSmallData, ok_bind]
      simp only
      rw [if_neg (by decide), SParcel.skip_skip, hcount, hroom]
      simp only
      rw [@ssize_of_lt (avail - 16) (by omega) (by omega), hm, ok_bind]
      simp only
      rw [if_neg (by decide), sub_sub_cancel, ssize_of_lt (by omega) (by omega), if_neg (by omega),
        ssize_of_lt (by omega) (by omega)]
      simp
    · rw [hpos]
      show source.pos + 16 + _ = _
      push_cast
      ring

end Flat

/-- What the cached sizes in a value are off by is lost where `Archive` rounds up the length in the
header. -/
def Rounded (v : SValue) : Prop :=
  ∃ k : ℤ, -8 < v.staleness + 2 ^ 32 * k ∧ v.staleness + 2 ^ 32 * k ≤ 0

theorem rounded_of_staleness {v : SValue} (h : v.staleness = 0) : v.Rounded :=
  ⟨0, by omega, by omega⟩

theorem wireSize_mod : ∀ v : SValue, v.wireSize < 2 ^ 31 → v.wireSize % 8 = 0 := by
  intro v
  induction v using SValue.ind with
  | small type data =>
    intro _
    rw [wireSize_small]
  | large type buffer =>
    intro hlt
    rw [wireSize_large] at hlt ⊢
    have hle := length_le_padded buffer
    rw [padded_length (by omega), valueDataAlign_of_lt (by omega)]
    omega
  | map m ih =>
    intro hlt
    rw [wireSize_map] at hlt ⊢
    have hloop : ∀ l : List Pair, (∀ p ∈ l, p ∈ m.maps) → (wireMaps l).length < 2 ^ 31 →
        (wireMaps l).length % 8 = 0 := by
      intro l
      induction l with
      | nil =>
        intro _ _
        rw [wireMaps, length_nil]
      | cons p l ihl =>
        intro hsub hlt
        obtain ⟨k, v⟩ := p
        rw [wireMaps_cons_length] at hlt ⊢
        have hmem := ih _ (hsub _ mem_cons_self)
        have hk := hmem.1 (by dsimp only; omega)
        have hv := hmem.2 (by dsimp only; omega)
        have hl := ihl (fun p hp => hsub p (mem_cons_of_mem _ hp)) (by omega)
        dsimp only at hk hv
        omega
    have := hloop m.maps (fun _ hp => hp) (by omega)
    omega

/-- **The length in the header of a map** is that of the map exactly when what the cached sizes are
off by is lost in it. -/
theorem mapLength_iff {m : BValueMap SValue} (he : (map m).isErrorFree = true)
    (ho : (map m).objects = []) (hlt : (map m).wireSize < 2 ^ 31) :
    valueDataAlign (BitVec.ofNat 32 (8 + valueDataAlign (size (mapArchivedSize m)).toNat)).toNat =
      8 + (wireMaps m.maps).length ↔ (map m).Rounded := by
  have hmod := wireSize_mod (map m) hlt
  have hsize := archivedSize_eq (map m) he ho hlt
  have harchived : (map m).archivedSize = ssize (16 + mapArchivedSize m) := by
    simp only [archivedSize, mapArchivedSize]
  rw [wireSize_map] at hlt hmod hsize
  rw [harchived, ssize_eq, ssize_eq] at hsize
  unfold Rounded
  generalize (map m).staleness = s at *
  generalize (wireMaps m.maps).length = W at *
  generalize mapArchivedSize m = a at *
  rw [BitVec.toNat_ofNat]
  unfold valueDataAlign size
  constructor
  · intro h
    refine ⟨(a - W - s) / 2 ^ 32 - a / 2 ^ 32 + (if W = 0 ∧ 0 < a % 2 ^ 32 then -1 else 0), ?_, ?_⟩
    · split <;> omega
    · split <;> omega
  · rintro ⟨k, h1, h2⟩
    omega

theorem errorsNegative_of_isErrorFree : ∀ v : SValue, v.isErrorFree = true →
    v.errorsNegative = true := by
  intro v
  induction v using SValue.ind with
  | small type data =>
    intro he
    simp [errorsNegative, isError_of_isErrorFree he]
  | large type buffer =>
    intro he
    simp [errorsNegative, isError_of_isErrorFree he]
  | map m ih =>
    intro he
    have hm := isErrorFree_map.1 he
    exact errorsNegative_map.2 fun p hp => ⟨(ih p hp).1 (hm p hp).1, (ih p hp).2 (hm p hp).2⟩

section Skip

variable {cookie : BitVec 32 → BitVec 32 → BitVec 32} {v : SValue} {start : SParcel}
  {rest : List Byte}

theorem skipValue_at (he : v.isErrorFree = true)
    (h : start.At (v.flattened (flat cookie)).wireBytes rest) :
    ∃ status q, start.skipValue = .ok (status, q) ∧
      (q.data = start.data ∧ q.pos = start.pos + (v.flattened (flat cookie)).wireSize ↔
        (v.flattened (flat cookie)).Rounded) := by
  have hl := h.length_eq
  have h0 := h.pos_nonneg
  have hlt := h.length_lt
  have hsize : (v.flattened (flat cookie)).wireBytes.length = (v.flattened (flat cookie)).wireSize := rfl
  -- a header with a length
  have hlarge : ∀ {type data : BitVec 32} {rest' : List Byte} {n : ℕ},
      start.At (wordBytes type ++ wordBytes data) rest' → ¬ unpackTypeLength type ≤ typeLengthMax →
      (v.flattened (flat cookie)).wireSize = 8 + n →
      (valueDataAlign data.toNat = n ↔ (v.flattened (flat cookie)).Rounded) →
      ∃ status q, start.skipValue = .ok (status, q) ∧
        (q.data = start.data ∧ q.pos = start.pos + (v.flattened (flat cookie)).wireSize ↔
          (v.flattened (flat cookie)).Rounded) := by
    intro type data rest' n hat htype hn hiff
    have hd := @drain_iff (start.skip 8) (valueDataAlign data.toNat) n
      (by show 0 ≤ start.pos + 8; omega) (by omega) (by show start.pos + 8 + n ≤ start.length; omega)
      (by show 0 < start.length; omega) hlt (by omega)
      (by
        unfold valueDataAlign
        omega)
    rw [hat.skipValue, skipData, if_neg htype]
    refine ⟨_, _, rfl, ?_⟩
    rw [← hiff, hn]
    have hpos : (start.skip 8).pos + (n : ℤ) = start.pos + ((8 + n : ℕ) : ℤ) := by
      show start.pos + 8 + (n : ℤ) = _
      push_cast
      ring
    rw [hpos] at hd
    rw [show (valueDataAlign data.toNat = n) = ((valueDataAlign data.toNat : ℤ) = n) by
      rw [Nat.cast_inj]]
    exact hd
  cases v with
  | small type data =>
    by_cases ho : isSmallObject type.1 = true
    · have hbytes := wireBytes_object (flat cookie) ho data
      have hround : ((small type data).flattened (flat cookie)).Rounded := by
        apply rounded_of_staleness
        rw [flattened, if_pos ho, staleness]
      rw [hbytes] at h
      refine hlarge h.left ?_ (n := 8) ?_ (iff_of_true (by decide) hround)
      · rw [unpackTypeLength_packLargeType]
        decide
      · unfold wireSize
        rw [hbytes]
        rfl
    · have hw : (small type data).flattened (flat cookie) = small type data := by
        rw [flattened, if_neg ho]
      have hround : (small type data).Rounded := rounded_of_staleness (by rw [staleness])
      rw [hw] at h ⊢
      rw [wireBytes] at h
      rw [h.skipValue, skipData, if_pos type.2, wireSize_small]
      exact ⟨_, _, rfl, iff_of_true ⟨rfl, rfl⟩ hround⟩
  | large type buffer =>
    have hw : (large type buffer).flattened (flat cookie) = large type buffer := by rw [flattened]
    have hround : (large type buffer).Rounded := rounded_of_staleness (by rw [staleness])
    rw [hw] at h hlarge hl
    obtain ⟨h1, h2, hd⟩ := at_large h
    have hle := length_le_padded buffer
    have hl2 := h2.length_eq
    have h20 := h2.pos_nonneg
    have hlt2 := h2.length_lt
    rw [hw]
    refine hlarge h1 (by rw [type.2]; decide) (wireSize_large type buffer) (iff_of_true ?_ hround)
    rw [hd, padded_length (by omega)]
  | map m =>
    rw [flattened_map] at h hlarge hl ⊢
    have hfree := flattened_isErrorFree (flat cookie) (map m) he
    have hobjects := flattened_objects (flat cookie) (map m)
    rw [flattened_map] at hfree hobjects
    have hwire : (map ⟨m.avail, m.dataSize, flattenedMaps (flat cookie) m.maps⟩).wireSize < 2 ^ 31 := by
      unfold wireSize
      omega
    have hlen := mapLength_iff hfree hobjects hwire
    have hmap := wireSize_map ⟨m.avail, m.dataSize, flattenedMaps (flat cookie) m.maps⟩
    have hbytes := wireBytes_map ⟨m.avail, m.dataSize, flattenedMaps (flat cookie) m.maps⟩
    rw [hbytes, mapHeader, append_assoc, append_assoc] at h
    refine hlarge h.left (by decide) ?_ hlen
    rw [hmap]
    omega

/-- What both leave the parcel at. -/
def SkipAgrees (start : SParcel) : Prop :=
  ∃ v n p status q, unarchive start = .ok (v, n, p) ∧ start.skipValue = .ok (status, q) ∧
    q.data = p.data ∧ q.pos = p.pos

/-- The values that are skipped as they are read. -/
structure Skips (cookie : BitVec 32 → BitVec 32 → BitVec 32) (v : SValue) : Prop where
  rounded : (v.flattened (flat cookie)).Rounded
  straight : v.isStraight = true

/-- **A value that is straight** is skipped as it is read exactly when its header is right. -/
theorem skipAgrees_iff_of_straight (hs : v.isSound = true) (he : v.isErrorFree = true)
    (hst : v.isStraight = true) (h : start.At (v.flattened (flat cookie)).wireBytes rest) :
    SkipAgrees start ↔ (v.flattened (flat cookie)).Rounded := by
  have hl := h.length_eq
  have h0 := h.pos_nonneg
  have hlt := h.length_lt
  have hsize : (v.flattened (flat cookie)).wireBytes.length = (v.flattened (flat cookie)).wireSize := rfl
  have hle : ((v.flattened (flat cookie)).wireSize : ℤ) ≤ start.length := by omega
  have hfuel : (v.flattened (flat cookie)).wireSize < start.data.length + 1 := by
    unfold SParcel.length at hle
    omega
  obtain ⟨v', p, hun, hdata, hpos⟩ := unarchiveInternal_walks (fun _ _ => rfl) v hs hst
    (start.data.length + 1) hfuel h 0x7fffffff (by omega) (by decide)
  obtain ⟨status, q, hskip, hiff⟩ := skipValue_at he h
  rw [← hiff, ← hdata, ← hpos]
  constructor
  · rintro ⟨v₁, n₁, p₁, status₁, q₁, hun₁, hskip₁, hd, hp⟩
    rw [show unarchive start = _ from hun] at hun₁
    obtain ⟨-, hrest⟩ := Prod.mk.inj (Except.ok.inj hun₁)
    obtain ⟨-, rfl⟩ := Prod.mk.inj hrest
    rw [hskip] at hskip₁
    obtain ⟨⟩ := hskip₁
    exact ⟨hd, hp⟩
  · rintro ⟨hd, hp⟩
    exact ⟨v', _, p, status, q, hun, hskip, hd, hp⟩

/-- **A large block that is read as an object** and that is no multiple of eight long is not skipped
as it is read. -/
theorem not_skipAgrees_large {type : LargeType} {buffer : List Byte}
    (hst : (large type buffer).isStraight = false)
    (h : start.At ((large type buffer).flattened (flat cookie)).wireBytes rest) :
    ¬ SkipAgrees start := by
  have hw : (large type buffer).flattened (flat cookie) = large type buffer := by rw [flattened]
  obtain ⟨ho, hbig, h8⟩ : isLargeObject type.1 = true ∧ 8 ≤ buffer.length ∧ buffer.length % 8 ≠ 0 := by
    simpa [isStraight] using hst
  obtain ⟨status, q, hskip, hiff⟩ := skipValue_at (v := large type buffer) (isErrorFree_large _ _) h
  rw [hw] at h hiff
  have hround : (large type buffer).Rounded := rounded_of_staleness (by rw [staleness])
  obtain ⟨-, hqpos⟩ := hiff.2 hround
  obtain ⟨h1, h2, hd⟩ := at_large h
  have h1' : start.At (wordBytes type.1 ++ wordBytes (BitVec.ofNat 32 buffer.length))
      (buffer ++ (List.replicate (valueDataAlign buffer.length - buffer.length) 0 ++ rest)) := by
    rw [← append_assoc]
    exact h1
  obtain ⟨binder, p', hr, -, hpos⟩ := readObject_block h1' ho hbig hd
  have hl := h2.length_eq
  have h0 := h.pos_nonneg
  have hlt := h.length_lt
  have hle := length_le_padded buffer
  have hsmall : unpackTypeLength (packSmallType (unpackTypeCode type.1) 4) ≤ typeLengthMax := by
    rw [unpackTypeLength_packSmallType _ (by decide)]
    decide
  have hskippos : (start.skip 8).pos = start.pos + 8 := rfl
  have hlength : (start.skip 8).length = start.length := rfl
  have hun : unarchive start = .ok (small ⟨packSmallType (unpackTypeCode type.1) 4, hsmall⟩ binder,
      8 + buffer.length, p') := by
    rw [unarchive, unarchiveInternal, if_neg (by decide), hr, ok_bind]
    dsimp only
    rw [if_neg (by rw [size_of_lt (by omega) (by omega)]; omega), dif_pos hsmall]
    rfl
  rintro ⟨v₁, n₁, p₁, status₁, q₁, hun₁, hskip₁, -, hp⟩
  rw [hun] at hun₁
  obtain ⟨-, hrest⟩ := Prod.mk.inj (Except.ok.inj hun₁)
  obtain ⟨-, rfl⟩ := Prod.mk.inj hrest
  rw [hskip] at hskip₁
  obtain ⟨⟩ := hskip₁
  -- the padding is between the two
  rw [hqpos, hpos, wireSize_large, padded_length (by omega), valueDataAlign_of_lt (by omega)] at hp
  omega

end Skip

/-- **`SkipValue` and `Unarchive` leave the parcel at one place** for every value without errors,
wherever it is archived, if the length in its header is right and what looks like an object in it
is a multiple of eight long. Both are needed, where no table has a block in it that is read without
its padding and so puts all that follows out of step. -/
theorem skipValue_iff (cookie : BitVec 32 → BitVec 32 → BitVec 32) (v : SValue) (p q : SParcel) (n : ℤ)
    (hs : v.isSound = true) (he : v.isErrorFree = true) (hp : p.InBounds)
    (hw : v.archive (flat cookie) p = .ok (n, q)) (h0 : 0 ≤ n) (hlt : q.length < 2 ^ 31) :
    (v.Skips cookie → SkipAgrees { q with pos := p.pos }) ∧
      (SkipAgrees { q with pos := p.pos } → (∀ m, v = map m → v.isStraight = true) →
        v.Skips cookie) := by
  obtain ⟨-, hwrote⟩ := archive_wrote cookie v (errorsNegative_of_isErrorFree v he) hp hw h0
  have hat := hwrote.at hp hlt
  constructor
  · intro h
    exact (skipAgrees_iff_of_straight hs he h.straight hat).2 h.rounded
  · intro h hmap
    have hst : v.isStraight = true := by
      cases v with
      | small type data => rw [isStraight]
      | large type buffer =>
        by_contra hst
        exact not_skipAgrees_large (Bool.not_eq_true _ ▸ hst) hat h
      | map m => exact hmap m rfl
    exact ⟨(skipAgrees_iff_of_straight hs he hst hat).1 h, hst⟩

/-- A cookie for each object. -/
def objectCookie (_ object : BitVec 32) : BitVec 32 := object

theorem skipValue_nested :
    let binder := small ⟨packSmallType (typeCode 0x73622a#32) 4, by decide⟩ 12
    let v := ofPairs [(int32 1, text [1, 2, 3, 4, 5]), (int32 2, binder)]
    ∃ n q, v.archive (flat objectCookie) ⟨[9, 9], 1, 8, []⟩ = .ok (n, q) ∧
      SkipAgrees { q with pos := 1 } := by
  intro binder v
  have hok : (match v.archive (flat objectCookie) ⟨[9, 9], 1, 8, []⟩ with
      | .ok (n, q) => decide (0 ≤ n ∧ q.length < 2 ^ 31)
      | .error _ => false) = true := by decide +kernel
  rcases hq : v.archive (flat objectCookie) ⟨[9, 9], 1, 8, []⟩ with e | ⟨n, q⟩
  · rw [hq] at hok
    exact absurd hok Bool.false_ne_true
  · rw [hq] at hok
    obtain ⟨h0, hlt⟩ := of_decide_eq_true hok
    have h := skipValue_iff objectCookie v ⟨[9, 9], 1, 8, []⟩ q n (by decide +kernel)
      (by decide +kernel) ⟨by decide, by decide⟩ hq h0 hlt
    exact ⟨n, q, rfl, h.1 ⟨⟨0, by decide +kernel, by decide +kernel⟩, by decide +kernel⟩⟩

/-- After `ArchivedSize` and then `ReplaceValues` with a longer value, the length in the header is
too short; and a block of nine bytes with a type code that ends in `'*'` is read without its
padding. -/
theorem skipValue_replaceValues :
    let replaced := (ofPairs [(int32 1, int32 2), (int32 3, int32 4)]).sized.replaceValues
      [text [1, 2, 3, 4, 5]] [0]
    let starred := large ⟨packLargeType (typeCode 0x78782a#32), unpackTypeLength_packLargeType _⟩
      [1, 2, 3, 4, 5, 6, 7, 8, 9]
    let into : SParcel := ⟨[], 0, 128, []⟩
    (replaced.isSound = true ∧ replaced.isErrorFree = true ∧
      ∃ n q, replaced.archive (flat objectCookie) into = .ok (n, q) ∧
        ¬ SkipAgrees { q with pos := 0 }) ∧
      starred.isSound = true ∧ starred.isErrorFree = true ∧
      ∃ n q, starred.archive (flat objectCookie) into = .ok (n, q) ∧
        ¬ SkipAgrees { q with pos := 0 } := by
  intro replaced starred into
  have hinto : into.InBounds := ⟨le_refl _, le_refl _⟩
  have hr : replaced.isErrorFree = true := by decide +kernel
  have hs : starred.isErrorFree = true := by decide +kernel
  refine ⟨⟨by decide +kernel, hr, _, _, rfl, ?_⟩, by decide +kernel, hs, _, _, rfl, ?_⟩
  · obtain ⟨-, hwrote⟩ := archive_wrote objectCookie replaced (errorsNegative_of_isErrorFree _ hr)
      hinto rfl (by decide +kernel)
    rw [show (0 : ℤ) = into.pos from rfl, skipAgrees_iff_of_straight (by decide +kernel) hr
      (by decide +kernel) (hwrote.at hinto (by decide +kernel))]
    rintro ⟨k, h1, h2⟩
    have hstale : (replaced.flattened (flat objectCookie)).staleness = -8 := by decide +kernel
    omega
  · obtain ⟨-, hwrote⟩ := archive_wrote objectCookie starred (errorsNegative_of_isErrorFree _ hs)
      hinto rfl (by decide +kernel)
    exact not_skipAgrees_large (by decide +kernel) (hwrote.at hinto (by decide +kernel))

end SValue

end OpenBinder
