import OpenBinder.Parcel.Wire

/-!
# `Unarchive` of what `Archive` wrote

* `ReadsFlat`: unarchiving at the bytes of a value gives the value back and goes on after
  them with a reference to each of its objects, provided no large block in it looks like an
  object; and otherwise what comes back is a different value. `Reads` is that without objects.
* `unarchiveInternal_readsFlat`: with fuel for the nesting, `unarchive_internal` reads
  every sound value, if the binder of an object is its data word.
-/

namespace OpenBinder

open Lib List SParcel

namespace SParcel

/-- What is next to read is `bytes`, and then `rest`. -/
structure At (p : SParcel) (bytes rest : List Byte) : Prop where
  pos_nonneg : 0 ≤ p.pos
  pos_le : p.pos ≤ p.length
  length_lt : p.length < 2 ^ 31
  drop_eq : p.data.drop p.pos.toNat = bytes ++ rest

/-- The parcel with the position moved on. -/
def skip (p : SParcel) (n : ℕ) : SParcel := { p with pos := p.pos + n }

@[simp] theorem skip_skip (p : SParcel) (m n : ℕ) : (p.skip m).skip n = p.skip (m + n) := by
  simp [skip, add_assoc]

@[simp] theorem skip_zero (p : SParcel) : p.skip 0 = p := by simp [skip]

/-- The parcel with references to more objects. -/
def acquireAll (p : SParcel) (objects : List (BitVec 32 × BitVec 32)) : SParcel :=
  { p with acquired := p.acquired ++ objects }

@[simp] theorem acquireAll_nil (p : SParcel) : p.acquireAll [] = p := by
  unfold acquireAll
  rw [append_nil]

@[simp] theorem acquireAll_acquireAll (p : SParcel) (a b : List (BitVec 32 × BitVec 32)) :
    (p.acquireAll a).acquireAll b = p.acquireAll (a ++ b) := by
  unfold acquireAll
  rw [append_assoc]

@[simp] theorem skip_acquireAll (p : SParcel) (l : List (BitVec 32 × BitVec 32)) (n : ℕ) :
    (p.acquireAll l).skip n = (p.skip n).acquireAll l := rfl

variable {p : SParcel} {rest : List Byte} {type data : BitVec 32}

theorem At.acquireAll {bytes : List Byte} (h : p.At bytes rest) (l : List (BitVec 32 × BitVec 32)) :
    (p.acquireAll l).At bytes rest :=
  ⟨h.pos_nonneg, h.pos_le, h.length_lt, h.drop_eq⟩

theorem At.length_eq {bytes : List Byte} (h : p.At bytes rest) :
    p.pos + bytes.length + rest.length = p.length := by
  have h1 := congrArg List.length h.drop_eq
  have h2 := h.pos_nonneg
  have h3 := h.pos_le
  simp only [length_drop, length_append] at h1
  unfold length at h3 ⊢
  omega

theorem At.skip {p : SParcel} {a b rest : List Byte} (h : p.At (a ++ b) rest) :
    (p.skip a.length).At b rest := by
  have hl := h.length_eq
  have h0 := h.pos_nonneg
  simp only [length_append, Nat.cast_add] at hl
  refine ⟨by simp only [SParcel.skip]; omega, ?_, h.length_lt, ?_⟩
  · simp only [SParcel.skip, length] at hl ⊢
    omega
  · have : (p.pos + (a.length : ℤ)).toNat = p.pos.toNat + a.length := by omega
    rw [SParcel.skip, this, ← drop_drop, h.drop_eq, append_assoc, drop_left]

theorem At.left {a b : List Byte} (h : p.At (a ++ b) rest) :
    p.At a (b ++ rest) :=
  ⟨h.pos_nonneg, h.pos_le, h.length_lt, by rw [h.drop_eq, append_assoc]⟩

theorem At.read {p : SParcel} {bytes rest : List Byte} (h : p.At bytes rest) {room : ℕ}
    (hr : bytes.length ≤ room) :
    p.read bytes.length room = .ok (bytes, bytes.length, p.skip bytes.length) := by
  have hl := h.length_eq
  have h0 := h.pos_nonneg
  have hlt := h.length_lt
  unfold SParcel.read
  rw [if_pos (by rw [ssize_of_lt (by omega) (by omega)]; omega), if_pos ⟨h0, by omega, hr⟩, h.drop_eq,
    take_left]
  rfl

theorem At.readSmallData (h : p.At (wordBytes type ++ wordBytes data) rest) :
    p.readSmallData = .ok ((type, data), 8, p.skip 8) := by
  have hr : p.read 8 8 = .ok (wordBytes type ++ wordBytes data, 8, p.skip 8) := h.read (by simp)
  unfold SParcel.readSmallData
  rw [hr]
  have h1 : (wordBytes type ++ wordBytes data).take 4 = wordBytes type := by
    rw [take_append_of_le_length (by simp)]; rfl
  have h2 : (wordBytes type ++ wordBytes data).drop 4 = wordBytes data := by
    rw [drop_append_of_le_length (by simp)]; rfl
  simp [bind, Except.bind, pure, Except.pure, h1, h2]

theorem At.readSmallDataOrObject (h : p.At (wordBytes type ++ wordBytes data) rest)
    (hl : isLargeObject type = false) :
    p.readSmallDataOrObject = .ok ((type, data), 8, p.skip 8) := by
  unfold SParcel.readSmallDataOrObject
  rw [h.readSmallData]
  simp [bind, Except.bind, pure, Except.pure, hl]

theorem At.wordAt {binder cookie : BitVec 32} (h : p.At (wordBytes binder ++ wordBytes cookie) rest)
    :
    p.wordAt 0 = .ok binder ∧ p.wordAt 4 = .ok cookie := by
  have hl := h.length_eq
  have h0 := h.pos_nonneg
  have h8 : (wordBytes binder ++ wordBytes cookie).length = 8 := rfl
  unfold SParcel.wordAt
  constructor
  · rw [if_pos ⟨h0, by push_cast; omega⟩, add_zero, h.drop_eq, append_assoc,
      take_append_of_le_length (by rw [wordBytes_length]), take_of_length_le (by rw [wordBytes_length]),
      wordOf_wordBytes]
  · rw [if_pos ⟨h0, by push_cast; omega⟩, ← drop_drop, h.drop_eq, append_assoc,
      drop_append_of_le_length (by rw [wordBytes_length]),
      drop_of_length_le (by rw [wordBytes_length]), nil_append,
      take_append_of_le_length (by rw [wordBytes_length]),
      take_of_length_le (by rw [wordBytes_length]), wordOf_wordBytes]

/-- **The header and the words of an object**: it is read, and a reference is taken. -/
theorem At.readObject {binder cookie : BitVec 32}
    (h : p.At (wordBytes type ++ wordBytes 8 ++ (wordBytes binder ++ wordBytes cookie)) rest)
    (hl : isLargeObject type = true) :
    p.readSmallDataOrObject = .ok ((packSmallType (unpackTypeCode type) 4, binder), 16,
      (p.skip 16).acquireAll [(packSmallType (unpackTypeCode type) 4, binder)]) := by
  have hat := h.skip
  have hlen := hat.length_eq
  have h0 := hat.pos_nonneg
  have hlt := hat.length_lt
  have h8 : (wordBytes type ++ wordBytes 8).length = 8 := rfl
  have h8' : (wordBytes binder ++ wordBytes cookie).length = 8 := rfl
  rw [h8] at hat hlen h0 hlt
  obtain ⟨hb, hc⟩ := hat.wordAt
  have hsum : ssize ((p.skip 8).pos + ((8 : BitVec 32).toNat : ℤ)) = (p.skip 8).pos + 8 :=
    ssize_of_lt (by show -2 ^ 31 ≤ (p.skip 8).pos + 8; omega)
      (by show (p.skip 8).pos + 8 < 2 ^ 31; omega)
  have hcookie : ∃ w, (if binder ≠ 0 ∧ type = kPackedLargeBinderWeakType then (p.skip 8).wordAt 4
      else .ok 0) = Except.ok w := by
    split
    · exact ⟨cookie, hc⟩
    · exact ⟨0, rfl⟩
  obtain ⟨w, hw⟩ := hcookie
  rw [SParcel.readSmallDataOrObject, h.left.readSmallData, ok_bind]
  dsimp only
  rw [if_neg (by simp [hl]), SParcel.readObject]
  have hpos : (p.skip 8).pos + 8 = p.pos + 16 := by
    show p.pos + 8 + 8 = p.pos + 16
    ring
  rw [if_neg (by decide), hsum, if_pos (by omega), hb, ok_bind, hw, ok_bind,
    show ssize (8 + ((8 : BitVec 32).toNat : ℤ)) = 16 by decide, hpos]
  rfl

/-- The header of a large block that does not look like an object; where only its type
does, the result is negative, which is not below eight as an unsigned word. -/
theorem At.readLarge (h : p.At (wordBytes type ++ wordBytes data) rest)
    (hu : isLargeObject type = false ∨ data.toNat < 8) :
    ∃ err, 8 ≤ size err ∧ p.readSmallDataOrObject = .ok ((type, data), err, p.skip 8) := by
  by_cases ho : isLargeObject type = false
  · exact ⟨8, by decide, h.readSmallDataOrObject ho⟩
  · have hd : data.toNat < 8 := hu.resolve_left ho
    refine ⟨badType, by decide, ?_⟩
    rw [SParcel.readSmallDataOrObject, h.readSmallData, ok_bind]
    simp only
    rw [if_neg (by simp [ho]), SParcel.readObject, if_pos (by exact_mod_cast hd)]

end SParcel

namespace SValue

mutual

/-- Whether no large block in a value looks like an object: its type code ends in
`'*'` and it is at least as long as the rest of a `flat_binder_object`. -/
def isUnambiguous : SValue → Bool
  | map ⟨_, _, maps⟩ => allUnambiguous maps
  | large type buffer => !isLargeObject type.1 || decide (buffer.length < 8)
  | small _ _ => true

/-- Whether no large block in a table looks like an object. -/
def allUnambiguous : List Pair → Bool
  | [] => true
  | (k, v) :: rest => isUnambiguous k && isUnambiguous v && allUnambiguous rest

end

theorem allUnambiguous_iff {l : List Pair} : allUnambiguous l = true ↔
    ∀ p ∈ l, p.1.isUnambiguous = true ∧ p.2.isUnambiguous = true := by
  induction l with
  | nil => simp [allUnambiguous]
  | cons p l ih =>
    simp [allUnambiguous, ih]

theorem isUnambiguous_map {m : BValueMap SValue} : (map m).isUnambiguous = true ↔
    ∀ p ∈ m.maps, p.1.isUnambiguous = true ∧ p.2.isUnambiguous = true := by
  rw [isUnambiguous, allUnambiguous_iff]

theorem isLargeObject_length {type : BitVec 32} (h : isLargeObject type = true) :
    unpackTypeLength type = typeLengthLarge := by
  have he : type &&& objectMask = BitVec.ofNat 32 typeLengthLarge ||| objectCode := by
    simpa [isLargeObject] using h
  have h7 := congrArg (fun x => (x &&& typeLengthMask).toNat) he
  simp only [BitVec.and_assoc, show objectMask &&& typeLengthMask = typeLengthMask by decide] at h7
  unfold unpackTypeLength
  rw [h7]
  decide

theorem isLargeObject_small (type : SmallType) : isLargeObject type.1 = false := by
  by_contra h
  have h1 := isLargeObject_length (by simpa using h)
  have h2 := type.2
  rw [h1] at h2
  exact absurd h2 (by decide)

/-- What unarchiving at the bytes of a value does. -/
structure Reads (f : SParcel → ℤ → Except Fault (SValue × ℤ × SParcel)) (v : SValue) : Prop where
  ok : ∀ {source : SParcel} {rest : List Byte}, source.At v.wireBytes rest →
    ∀ avail : ℤ, (v.wireSize : ℤ) ≤ avail → avail < 2 ^ 31 → v.isUnambiguous = true →
      ∃ v', f source avail = .ok (v', v.wireSize, source.skip v.wireSize) ∧ v'.code = v.code
  only : ∀ {source : SParcel} {rest : List Byte}, source.At v.wireBytes rest →
    ∀ avail : ℤ, (v.wireSize : ℤ) ≤ avail → avail < 2 ^ 31 → ∀ {v' : SValue} {n : ℤ} {source' : SParcel},
      f source avail = .ok (v', n, source') → v'.code = v.code → v.isUnambiguous = true

/-- What unarchiving at the bytes of a value does, whose objects are flattened there. -/
structure ReadsFlat (flat : BitVec 32 → BitVec 32 → BitVec 32 × BitVec 32)
    (f : SParcel → ℤ → Except Fault (SValue × ℤ × SParcel)) (v : SValue) : Prop where
  ok : ∀ {source : SParcel} {rest : List Byte}, source.At (v.flattened flat).wireBytes rest →
    ∀ avail : ℤ, ((v.flattened flat).wireSize : ℤ) ≤ avail → avail < 2 ^ 31 →
      v.isUnambiguous = true →
      ∃ v', f source avail = .ok (v', (v.flattened flat).wireSize,
        (source.skip (v.flattened flat).wireSize).acquireAll v.objects) ∧ v'.code = v.code
  only : ∀ {source : SParcel} {rest : List Byte}, source.At (v.flattened flat).wireBytes rest →
    ∀ avail : ℤ, ((v.flattened flat).wireSize : ℤ) ≤ avail → avail < 2 ^ 31 →
      ∀ {v' : SValue} {n : ℤ} {source' : SParcel}, f source avail = .ok (v', n, source') →
        v'.code = v.code → v.isUnambiguous = true

section Flat

variable {flat : BitVec 32 → BitVec 32 → BitVec 32 × BitVec 32}

theorem slots_of_lt {count : ℕ} (h : count < 2 ^ 27) : ∃ room, slots count = some room ∧ count ≤ room := by
  unfold slots
  split
  · exact ⟨_, rfl, BValueMap.le_capacity count⟩
  · simp only
    rw [Nat.mod_eq_of_lt (by omega), if_neg (by omega)]
    exact ⟨_, rfl, by omega⟩

theorem length_le_wireMaps (l : List Pair) : 16 * l.length ≤ (wireMaps l).length := by
  induction l with
  | nil => simp
  | cons p l ih =>
    obtain ⟨k, v⟩ := p
    have := wireSize_ge k
    have := wireSize_ge v
    rw [wireMaps_cons_length, length_cons]
    omega

variable {source : SParcel} {rest : List Byte}

theorem at_wireMaps_cons {k v : SValue} {l : List Pair}
    (h : source.At (wireMaps ((k, v) :: l)) rest) :
    source.At k.wireBytes (v.wireBytes ++ wireMaps l ++ rest) ∧
    (source.skip k.wireSize).At v.wireBytes (wireMaps l ++ rest) ∧
    (source.skip (k.wireSize + v.wireSize)).At (wireMaps l) rest := by
  rw [wireMaps] at h
  have h2 := h.skip
  have h3 := h2.skip
  rw [skip_skip] at h3
  exact ⟨h.left, h2.left, h3⟩

theorem createMaps_wire {f : SParcel → ℤ → Except Fault (SValue × ℤ × SParcel)} :
    ∀ (l : List Pair), (∀ p ∈ l, ReadsFlat flat f p.1 ∧ ReadsFlat flat f p.2) →
    ∀ {source : SParcel} {rest : List Byte}, source.At (wireMaps (flattenedMaps flat l)) rest →
    ∀ (remain : ℤ) (room : ℕ), l.length ≤ room →
      ((wireMaps (flattenedMaps flat l)).length : ℤ) ≤ remain → remain < 2 ^ 31 →
      (∀ p ∈ l, p.1.isUnambiguous = true ∧ p.2.isUnambiguous = true) →
      ∃ maps, createMaps f l.length room source remain =
          .ok (0, maps, remain - (wireMaps (flattenedMaps flat l)).length,
            (source.skip (wireMaps (flattenedMaps flat l)).length).acquireAll (objectsMaps l)) ∧
        List.Forall₂ (fun p q => p.1.code = q.1.code ∧ p.2.code = q.2.code) maps l := by
  intro l
  induction l with
  | nil =>
    intro _ source rest _ remain room _ _ _ _
    exact ⟨[], by simp [createMaps, flattenedMaps, wireMaps, objectsMaps], List.Forall₂.nil⟩
  | cons p l ih =>
    intro hr source rest hat remain room hroom hle hlt hu
    obtain ⟨k, v⟩ := p
    obtain ⟨room, rfl⟩ : ∃ n, room = n + 1 := ⟨room - 1, by simp only [length_cons] at hroom; omega⟩
    rw [flattenedMaps] at hat hle ⊢
    obtain ⟨hk, hv, hl⟩ := at_wireMaps_cons hat
    obtain ⟨hrk, hrv⟩ : ReadsFlat flat f k ∧ ReadsFlat flat f v := hr _ mem_cons_self
    obtain ⟨huk, huv⟩ := hu _ mem_cons_self
    rw [wireMaps_cons_length] at hle ⊢
    obtain ⟨k', hk', hck⟩ := hrk.ok hk remain (by push_cast at hle; omega) hlt huk
    generalize (k.flattened flat).wireSize = m at *
    obtain ⟨v', hv', hcv⟩ := hrv.ok (hv.acquireAll k.objects) (remain - m)
      (by push_cast at hle; omega) (by omega) huv
    generalize (v.flattened flat).wireSize = n at *
    have hs1 : ssize (remain - m) = remain - m := ssize_of_lt (by omega) (by omega)
    have hs2 : ssize (remain - m - n) = remain - m - n := ssize_of_lt (by omega) (by omega)
    obtain ⟨maps, hm, hall⟩ := ih (fun p hp => hr p (mem_cons_of_mem _ hp))
      (hl.acquireAll (k.objects ++ v.objects)) (remain - m - n) room
      (by simpa using hroom) (by omega) (by omega) (fun p hp => hu p (mem_cons_of_mem _ hp))
    refine ⟨(k', v') :: maps, ?_, List.Forall₂.cons ⟨hck, hcv⟩ hall⟩
    refine (createMaps_succ le_rfl).2 ⟨k', m, _, v', n, (((source.skip m).acquireAll k.objects).skip
      n).acquireAll v.objects, maps, hk', by omega, ?_, by omega, ?_, rfl⟩
    · rw [hs1]
      exact hv'
    · rw [hs1, hs2, skip_acquireAll, acquireAll_acquireAll, skip_skip, hm,
        skip_acquireAll, skip_skip, acquireAll_acquireAll, objectsMaps,
        append_assoc]
      simp only [Except.ok.injEq, Prod.mk.injEq, true_and]
      refine ⟨by push_cast; ring, by rw [add_assoc]⟩

/-- **The loop comes back with the pairs of the table only if it reads them.** -/
theorem createMaps_only {f : SParcel → ℤ → Except Fault (SValue × ℤ × SParcel)} :
    ∀ (l : List Pair), (∀ p ∈ l, ReadsFlat flat f p.1 ∧ ReadsFlat flat f p.2) →
    ∀ {source source' : SParcel} {remain remain' err : ℤ} {rest : List Byte} {room : ℕ}
      {maps : List Pair},
      source.At (wireMaps (flattenedMaps flat l)) rest →
      ((wireMaps (flattenedMaps flat l)).length : ℤ) ≤ remain → remain < 2 ^ 31 →
      createMaps f l.length room source remain = .ok (err, maps, remain', source') → 0 ≤ err →
      List.Forall₂ (fun p q => p.1.code = q.1.code ∧ p.2.code = q.2.code) maps l →
      ∀ p ∈ l, p.1.isUnambiguous = true ∧ p.2.isUnambiguous = true := by
  intro l
  induction l with
  | nil => intro _ _ _ _ _ _ _ _ _ _ _ _ _ _ _ p hp; cases hp
  | cons p l ih =>
    intro hr source source' remain remain' err rest room maps hat hle hlt h herr hall
    obtain ⟨k, v⟩ := p
    cases room with
    | zero => simp [createMaps] at h
    | succ room =>
      obtain ⟨k', n, s₁, v', n', s₂, maps', hk', -, hv', -, hm, rfl⟩ := (createMaps_succ herr).1 h
      rw [flattenedMaps] at hat hle
      obtain ⟨hk, hv, hl⟩ := at_wireMaps_cons hat
      obtain ⟨hrk, hrv⟩ : ReadsFlat flat f k ∧ ReadsFlat flat f v := hr _ mem_cons_self
      rw [wireMaps_cons_length] at hle
      cases hall with
      | cons hkv hall =>
        -- a key that comes back was read, so the value is read where it stands
        have huk := hrk.only hk remain (by omega) hlt hk' hkv.1
        obtain ⟨k'', hk'', -⟩ := hrk.ok hk remain (by omega) hlt huk
        rw [hk', Except.ok.injEq, Prod.mk.injEq, Prod.mk.injEq] at hk''
        obtain ⟨rfl, rfl, rfl⟩ := hk''
        rw [@ssize_of_lt (remain - _) (by omega) (by omega)] at hv' hm
        have huv := hrv.only (hv.acquireAll k.objects) (remain - (k.flattened flat).wireSize)
          (by omega) (by omega) hv' hkv.2
        obtain ⟨v'', hv'', -⟩ := hrv.ok (hv.acquireAll k.objects)
          (remain - (k.flattened flat).wireSize) (by omega) (by omega) huv
        rw [hv', Except.ok.injEq, Prod.mk.injEq, Prod.mk.injEq] at hv''
        obtain ⟨rfl, rfl, rfl⟩ := hv''
        rw [skip_acquireAll, acquireAll_acquireAll, skip_skip,
          ssize_of_lt (by omega) (by omega)] at hm
        have hul := ih (fun p hp => hr p (mem_cons_of_mem _ hp)) (hl.acquireAll _) (by omega)
          (by omega) hm herr hall
        intro p hp
        rcases mem_cons.1 hp with rfl | hp
        · exact ⟨huk, huv⟩
        · exact hul p hp

theorem flattened_wireSize_le {l : List Pair} {p : Pair} (h : p ∈ l) :
    (p.1.flattened flat).wireSize ≤ (wireMaps (flattenedMaps flat l)).length ∧
      (p.2.flattened flat).wireSize ≤ (wireMaps (flattenedMaps flat l)).length := by
  have hmem : (p.1.flattened flat, p.2.flattened flat) ∈ flattenedMaps flat l := by
    induction l with
    | nil => cases h
    | cons q l ih =>
      rw [flattenedMaps]
      rcases mem_cons.1 h with rfl | h
      · exact mem_cons_self
      · exact mem_cons_of_mem _ (ih h)
  exact wireSize_le_of_mem hmem

theorem slots_some {m : BValueMap SValue} (hlt : (map m).wireSize < 2 ^ 31) :
    (BitVec.ofNat 32 m.countMaps).toNat = m.maps.length ∧
    ∃ room, slots m.maps.length = some room ∧ m.maps.length ≤ room := by
  have := length_le_wireMaps m.maps
  rw [wireSize_map] at hlt
  refine ⟨?_, slots_of_lt (by omega)⟩
  unfold BValueMap.countMaps
  rw [BitVec.toNat_ofNat, Nat.mod_eq_of_lt (by omega)]

theorem at_map {m : BValueMap SValue} (h : source.At (map m).wireBytes rest) :
    ∃ length, source.At (wordBytes kMapTypeCode ++ wordBytes length)
        (wordBytes (BitVec.ofNat 32 m.countMaps) ++ wordBytes 1 ++ wireMaps m.maps ++ rest) ∧
      (source.skip 8).At (wordBytes (BitVec.ofNat 32 m.countMaps) ++ wordBytes 1)
        (wireMaps m.maps ++ rest) ∧
      (source.skip 16).At (wireMaps m.maps) rest := by
  rw [wireBytes_map, mapHeader] at h
  have h1 : source.At ((wordBytes kMapTypeCode ++
      wordBytes (BitVec.ofNat 32 (8 + valueDataAlign (size (mapArchivedSize m)).toNat))) ++
      ((wordBytes (BitVec.ofNat 32 m.countMaps) ++ wordBytes 1) ++ wireMaps m.maps)) rest := by
    simpa [append_assoc] using h
  have h2 := h1.skip
  have h3 := h2.skip
  rw [skip_skip] at h3
  exact ⟨_, h1.left, h2.left, h3⟩

theorem at_large {type : LargeType} {buffer : List Byte}
    (h : source.At (large type buffer).wireBytes rest) :
    source.At (wordBytes type.1 ++ wordBytes (BitVec.ofNat 32 buffer.length))
        (padded buffer ++ rest) ∧
      (source.skip 8).At (padded buffer) rest ∧
      (BitVec.ofNat 32 buffer.length).toNat = buffer.length := by
  rw [wireBytes] at h
  have h2 := h.skip
  refine ⟨h.left, h2, ?_⟩
  have h3 := h2.length_eq
  have h4 := h2.pos_nonneg
  have h5 := h2.length_lt
  have := length_le_padded buffer
  rw [BitVec.toNat_ofNat, Nat.mod_eq_of_lt (by omega)]

theorem unarchiveLarge_padded {p : SParcel} {htype : BitVec 32} {buffer : List Byte}
    (h : p.At (padded buffer) rest) (hpos : 8 ≤ p.pos) (hlen : typeLengthMax < buffer.length) :
    unarchiveLarge htype (BitVec.ofNat 32 buffer.length) p =
      .ok (large ⟨packLargeType htype, unpackTypeLength_packLargeType htype⟩ buffer,
        (8 + (padded buffer).length : ℕ), p.skip (padded buffer).length) := by
  have h1 := h.length_eq
  have h3 := h.length_lt
  have hle := length_le_padded buffer
  have hd : (BitVec.ofNat 32 buffer.length).toNat = buffer.length := by
    rw [BitVec.toNat_ofNat, Nat.mod_eq_of_lt (by omega)]
  have hp : (padded buffer).length = valueDataAlign buffer.length := padded_length (by omega)
  unfold unarchiveLarge
  simp only [hd]
  rw [dif_neg (by omega), if_neg (by omega), ← hp, h.read le_rfl, ok_bind]
  rw [if_neg (by simp), pure_eq_ok, ssize_of_lt (by omega) (by omega), padded, take_left]
  rfl

theorem failed_mType (err : ℤ) (source : SParcel) : (failed err source).1.mType = kErrorTypeCode :=
  rfl

theorem readsFlat_object {type : SmallType} {data : BitVec 32} (hs : checkType type.1 = true)
    (ho : isSmallObject type.1 = true) (hflat : (flat type.1 data).1 = data) (fuel : ℕ) :
    ReadsFlat flat (unarchiveInternal (fuel + 1)) (small type data) := by
  have hu : (small type data).isUnambiguous = true := by rw [isUnambiguous]
  refine ⟨?_, fun _ _ _ _ _ _ _ _ _ => hu⟩
  intro source rest hat avail hle hlt _
  have hbytes := wireBytes_object flat ho data
  have hsize : ((small type data).flattened flat).wireSize = 16 := by
    unfold wireSize
    rw [hbytes]
    rfl
  rw [hbytes, hflat] at hat
  rw [hsize] at hle ⊢
  obtain ⟨hlarge, hback⟩ := largeObject_of_object hs ho
  have hr := hat.readObject hlarge
  rw [unpackTypeCode_packLargeType, unpackTypeCode_unpackTypeCode, hback] at hr
  refine ⟨small type data, ?_, rfl⟩
  rw [unarchiveInternal, if_neg (by rw [size_of_lt (by omega) (by omega)]; omega), hr, ok_bind]
  dsimp only
  rw [if_neg (by decide), dif_pos type.2, objects, if_pos ho]
  rfl

/-- **`unarchive_internal` reads every value** whose nodes are as they should be, with
fuel for its nesting, if the binder of an object is its data word. -/
theorem unarchiveInternal_readsFlat (hflat : ∀ type data, (flat type data).1 = data) :
    ∀ v : SValue, v.isSound = true → ∀ fuel, (v.flattened flat).wireSize < fuel →
      ReadsFlat flat (unarchiveInternal fuel) v := by
  intro v
  induction v using SValue.ind with
  | small type data =>
    intro hs fuel hf
    obtain ⟨fuel, rfl⟩ : ∃ n, fuel = n + 1 := ⟨fuel - 1, by omega⟩
    by_cases ho : isSmallObject type.1 = true
    · exact readsFlat_object (by simpa [isSound, checkIntegrity] using hs) ho (hflat type.1 data) fuel
    have hw : (small type data).flattened flat = small type data := by rw [flattened, if_neg ho]
    refine ⟨?_, fun _ _ _ _ _ _ _ _ _ => by rw [isUnambiguous]⟩
    intro source rest hat avail hle hlt _
    rw [hw, wireBytes] at hat
    rw [hw, wireSize_small] at hle ⊢
    have hl : isLargeObject type.1 = false := isLargeObject_small type
    have hr := hat.readSmallDataOrObject hl
    refine ⟨small type data, ?_, rfl⟩
    rw [unarchiveInternal, if_neg (by rw [size_of_lt (by omega) (by omega)]; omega), hr, ok_bind]
    simp only
    rw [if_neg (by decide), dif_pos type.2, objects, if_neg ho, acquireAll_nil]
    rfl
  | large type buffer =>
    intro hs fuel hf
    obtain ⟨fuel, rfl⟩ : ∃ n, fuel = n + 1 := ⟨fuel - 1, by omega⟩
    obtain ⟨hct, hlen⟩ : checkType type.1 = true ∧ typeLengthMax < buffer.length := by
      simpa [isSound, checkIntegrity] using hs
    have hw : (large type buffer).flattened flat = large type buffer := by rw [flattened]
    constructor
    · intro source rest hat avail hle hlt hu
      rw [hw] at hat hle ⊢
      obtain ⟨h1, h2, hd⟩ := at_large hat
      obtain ⟨err, herr, hr⟩ := h1.readLarge
        (by simpa [isUnambiguous, hd] using hu)
      rw [wireSize_large] at hle ⊢
      refine ⟨large ⟨packLargeType type.1, unpackTypeLength_packLargeType type.1⟩ buffer, ?_, ?_⟩
      · rw [unarchiveInternal, if_neg (by rw [size_of_lt (by omega) (by omega)]; omega), hr, ok_bind]
        simp only
        rw [if_neg (by omega), dif_neg (by rw [type.2]; decide), if_pos type.2,
          unarchiveLarge_padded h2 (by have := hat.pos_nonneg; simp only [SParcel.skip]; omega) hlen,
          skip_skip, objects, acquireAll_nil]
      · simp only [code, packLargeType_of_checkType hct type.2]
    · intro source rest hat avail hle hlt v' n source' h hc
      rw [hw] at hat hle
      obtain ⟨h1, h2, hd⟩ := at_large hat
      have hl2 := h2.length_eq
      have h0 := h2.pos_nonneg
      have hpad := length_le_padded buffer
      have hty : v'.mType = type.1 := mType_eq_of_code hc
      by_contra hu
      obtain ⟨ho, hbig⟩ : isLargeObject type.1 = true ∧ 8 ≤ buffer.length := by
        simpa [isUnambiguous] using hu
      rw [wireSize_large] at hle
      rw [unarchiveInternal, if_neg (by rw [size_of_lt (by omega) (by omega)]; omega)] at h
      obtain ⟨⟨⟨t, d⟩, err, s₁⟩, hr, h⟩ := bind_eq_ok.1 h
      rw [SParcel.readSmallDataOrObject, h1.readSmallData, ok_bind] at hr
      simp only [ho] at hr
      rw [if_neg (by simp)] at hr
      have ht : t = packSmallType (unpackTypeCode type.1) 4 := by
        rcases readObject_cases hr with ⟨-, -, hbad, -⟩ | ⟨ht, -⟩
        · rw [hd, ssize_of_lt (by omega) (by have := h2.length_lt; omega)] at hbad
          omega
        · exact ht
      have htl : unpackTypeLength t ≤ typeLengthMax := by
        rw [ht, unpackTypeLength_packSmallType _ (by decide)]
        decide
      simp only at h
      split at h
      · rw [pure_eq_ok, Except.ok.injEq] at h
        rw [← show (failed err s₁).1 = v' by rw [h], failed_mType] at hty
        exact SmallType.ne_large ⟨kErrorTypeCode, by decide⟩ type hty
      · rw [pure_eq_ok, Except.ok.injEq, Prod.mk.injEq] at h
        obtain ⟨rfl, -⟩ := h
        exact SmallType.ne_large ⟨t, htl⟩ type hty
  | map m ih =>
    intro hs fuel hf
    obtain ⟨fuel, rfl⟩ : ∃ n, fuel = n + 1 := ⟨fuel - 1, by omega⟩
    have hlength := flattenedMaps_length flat m.maps
    rw [flattened_map, wireSize_map] at hf
    dsimp only at hf
    have hr : ∀ p ∈ m.maps, ReadsFlat flat (unarchiveInternal fuel) p.1 ∧
        ReadsFlat flat (unarchiveInternal fuel) p.2 := by
      intro p hp
      have hsp := (isSound_map.1 hs).2 p hp
      obtain ⟨h1, h2⟩ := @flattened_wireSize_le flat _ _ hp
      exact ⟨(ih p hp).1 hsp.1 fuel (by omega), (ih p hp).2 hsp.2 fuel (by omega)⟩
    have hk7 : ¬ unpackTypeLength kMapTypeCode ≤ typeLengthMax := by decide
    have hk5 : ¬ unpackTypeLength kMapTypeCode = typeLengthLarge := by decide
    constructor
    · intro source rest hat avail hle hlt hu
      rw [flattened_map] at hat hle ⊢
      obtain ⟨length, h1, h2, h3⟩ := at_map hat
      obtain ⟨hcount, room, hroom, hle'⟩ := @slots_some
        ⟨m.avail, m.dataSize, flattenedMaps flat m.maps⟩ (by omega)
      rw [wireSize_map] at hle ⊢
      unfold BValueMap.countMaps at h1 h2 hcount
      dsimp only at h1 h2 h3 hcount hroom hle' hle ⊢
      rw [hlength] at h1 h2 hcount hroom hle'
      obtain ⟨maps, hm, hall⟩ := createMaps_wire m.maps hr h3 (avail - 16) room hle' (by omega)
        (by omega) (isUnambiguous_map.1 hu)
      refine ⟨map ⟨room, some (wireMaps (flattenedMaps flat m.maps)).length, maps⟩, ?_,
        code_of_forall₂ hall⟩
      rw [unarchiveInternal, if_neg (by rw [size_of_lt (by omega) (by omega)]; omega),
        h1.readSmallDataOrObject (by decide), ok_bind]
      simp only
      rw [if_neg (by decide), dif_neg hk7, if_neg hk5, h2.readSmallData, ok_bind]
      simp only
      rw [if_neg (by decide), skip_skip, hcount, hroom]
      simp only
      rw [@ssize_of_lt (avail - 16) (by omega) (by omega), hm, ok_bind]
      simp only
      rw [if_neg (by decide), sub_sub_cancel, ssize_of_lt (by omega) (by omega), if_neg (by omega),
        ssize_of_lt (by omega) (by omega), skip_skip, objects_map]
      simp
    · intro source rest hat avail hle hlt v' n source' h hc
      rw [flattened_map] at hat hle
      obtain ⟨length, h1, h2, h3⟩ := at_map hat
      obtain ⟨hcount, room, hroom, -⟩ := @slots_some
        ⟨m.avail, m.dataSize, flattenedMaps flat m.maps⟩ (by omega)
      rw [wireSize_map] at hle
      unfold BValueMap.countMaps at h1 h2 hcount
      dsimp only at h1 h2 h3 hcount hroom hle
      rw [hlength] at h1 h2 hcount hroom
      have hty : v'.mType ≠ kErrorTypeCode := by
        rw [mType_eq_of_code hc]
        exact (by decide : kMapTypeCode ≠ kErrorTypeCode)
      rw [unarchiveInternal, if_neg (by rw [size_of_lt (by omega) (by omega)]; omega),
        h1.readSmallDataOrObject (by decide), ok_bind] at h
      simp only at h
      rw [if_neg (by decide), dif_neg hk7, if_neg hk5, h2.readSmallData, ok_bind] at h
      simp only at h
      rw [if_neg (by decide), skip_skip, hcount, hroom] at h
      obtain ⟨⟨err, maps, remain, s₁⟩, hm, h⟩ := bind_eq_ok.1 h
      rw [@ssize_of_lt (avail - 16) (by omega) (by omega)] at hm
      split at h
      · rw [pure_eq_ok, Except.ok.injEq] at h
        exact absurd (failed_mType err s₁) (by rw [h]; exact hty)
      split at h
      · rw [pure_eq_ok, Except.ok.injEq] at h
        exact absurd (failed_mType _ s₁) (by rw [h]; exact hty)
      rw [pure_eq_ok, Except.ok.injEq, Prod.mk.injEq] at h
      obtain ⟨rfl, -⟩ := h
      exact isUnambiguous_map.2 (createMaps_only m.maps hr h3 (by omega) (by omega) hm (by omega)
        (forall₂_of_code hc))

end Flat

theorem unarchiveInternal_reads (v : SValue) (hs : v.isSound = true) (ho : v.objects = [])
    (fuel : ℕ) (hf : v.wireSize < fuel) : Reads (unarchiveInternal fuel) v := by
  have hflat := flattened_of_objects (fun _ data => (data, data)) v ho
  have hr := @unarchiveInternal_readsFlat (fun _ data => (data, data)) (fun _ _ => rfl) v hs fuel
    (by rw [hflat]; exact hf)
  obtain ⟨hok, honly⟩ := hr
  rw [hflat, ho] at hok
  rw [hflat] at honly
  simp only [acquireAll_nil] at hok
  exact ⟨hok, honly⟩

end SValue

end OpenBinder
