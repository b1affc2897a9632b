import OpenBinder.Parcel.RoundTrip

/-!
# Unarchiving any bytes

* `Header`: a header as `unarchive_internal` meets it, and whether the node that it makes
  of it keeps the rules (`Header.isSound`).
* `walk`: the headers of a value in the bytes of a parcel, in order. It goes through
  the bytes as `unarchive_internal` does and builds nothing; where `unarchive_internal`
  ends in an error there are none.
* `unarchive_sound_iff`: what `Unarchive` comes back with is an error, or a value
  that passes `check_integrity` at every node and has a reference taken for each object
  node, exactly when the headers are sound and no memory outside of an object is touched.
-/

namespace OpenBinder

open Lib List

/-- A header that is taken for a node. -/
inductive Header where
  /-- Small data: the type word stands as it is on the wire. -/
  | small (type : BitVec 32)
  /-- An object that `ReadSmallDataOrObject` read and took a reference for. -/
  | object (type : BitVec 32)
  /-- A large block, by its type word and length; `alloc_data` keeps an empty one
  inside of the value. -/
  | large (type : BitVec 32) (length : ℕ)
  /-- A map: how many pairs it has, and the type word of the first key. -/
  | map (count : ℕ) (key : Option (BitVec 32))

namespace Header

/-- The type word of the node. -/
def mType : Header → BitVec 32
  | small type => type
  | object type => type
  | large type length =>
    if length ≤ typeLengthMax then packSmallType type length else packLargeType type
  | map _ _ => kMapTypeCode

/-- **Whether the node keeps the rules**: small data passes `check_integrity` and does
not pass for an object; a block does not have the type code of a value that is kept
in another way; a map has pairs, and not a single one with a wild key. -/
def isSound : Header → Bool
  | small type => checkType type && !isSmallObject type
  | object _ => true
  | large type length =>
    let code := unpackTypeCode type
    code != valueType && code != errorType &&
      (length == 0 || (code != 0 && code != wildType && code != nullType))
  | map count key => count != 0 && !(count == 1 && key == some kWildTypeCode)

end Header

/-- The headers of a large block: what `unarchiveLarge` does, without its bytes. -/
def walkLarge (htype hdata : BitVec 32) (source : SParcel) :
    Except Fault (List Header × ℤ × SParcel) :=
  let len := hdata.toNat
  let readSize := valueDataAlign len
  if readSize < len ∧ typeLengthMax < len then .error .memory
  else do
    let (_, err, source) ← source.read readSize (if len ≤ typeLengthMax then 4 else readSize)
    if err ≠ readSize then return ([], if err < 0 then err else badData, source)
    return ([.large htype len], ssize (8 + readSize), source)

/-- The headers of the pairs of a table: what `createMaps` does. -/
def walkMaps (walk : SParcel → ℤ → Except Fault (List Header × ℤ × SParcel)) :
    ℕ → ℕ → SParcel → ℤ → Except Fault (ℤ × List Header × ℤ × SParcel)
  | 0, _, source, remain => .ok (0, [], remain, source)
  | _ + 1, 0, _, _ => .error .memory
  | count + 1, room + 1, source, remain => do
    let (key, size, source) ← walk source remain
    if size < 0 then return (size, [], remain, source)
    let remain := ssize (remain - size)
    let (value, size, source) ← walk source remain
    if size < 0 then return (size, [], remain, source)
    let (err, rest, remain, source) ← walkMaps walk count room source (ssize (remain - size))
    return (err, key ++ value ++ rest, remain, source)

/-- The headers of a value: what `unarchive_internal` does. -/
def walk : ℕ → SParcel → ℤ → Except Fault (List Header × ℤ × SParcel)
  | 0, _, _ => .error .depth
  | fuel + 1, source, avail => do
    let failed (err : ℤ) (source : SParcel) : Except Fault (List Header × ℤ × SParcel) :=
      .ok ([], if err < 0 then err else badData, source)
    if size avail < 8 then return ← failed 0 source
    let ((htype, hdata), err, source') ← source.readSmallDataOrObject
    if size err < 8 then return ← failed err source'
    if unpackTypeLength htype ≤ typeLengthMax then
      -- the word on the wire is that of an object where a reference was taken
      return ([if source'.acquired = source.acquired then .small htype else .object htype], err, source')
    if unpackTypeLength htype = typeLengthLarge then return ← walkLarge htype hdata source'
    let ((count, _), err, source) ← source'.readSmallData
    if err ≠ 8 then return ← failed err source
    match slots count.toNat with
    | none => .error .memory
    | some room => do
      let avail := ssize (avail - 16)
      let (err, headers, remain, source) ← walkMaps (walk fuel) count.toNat room source avail
      if err < 0 then return ← failed err source
      let dataSize := ssize (avail - remain)
      if dataSize < 0 then return ← failed dataSize source
      return (.map count.toNat (headers.head?.map Header.mType) :: headers, ssize (16 + dataSize), source)

open SValue

/-- What `ReadSmallDataOrObject` comes back with: the words of a header, or an object with
a reference taken. -/
theorem readSmallDataOrObject_cases {p p' : SParcel} {t d : BitVec 32} {amt : ℤ}
    (h : p.readSmallDataOrObject = .ok ((t, d), amt, p')) :
    p'.acquired = p.acquired ∨
      p'.acquired = p.acquired ++ [(t, d)] ∧ isSmallObject t = true ∧ checkType t = true := by
  unfold SParcel.readSmallDataOrObject SParcel.readSmallData at h
  obtain ⟨⟨⟨type, data⟩, amt', p₁⟩, hr, h⟩ := bind_eq_ok.1 h
  obtain ⟨⟨bytes, amt'', p₂⟩, hr', hr⟩ := bind_eq_ok.1 hr
  simp only [pure_eq_ok, Except.ok.injEq, Prod.mk.injEq] at hr
  obtain ⟨-, rfl, rfl⟩ := hr
  have hacq := SParcel.read_acquired hr'
  simp only at h
  split at h
  · simp only [pure_eq_ok, Except.ok.injEq, Prod.mk.injEq] at h
    obtain ⟨-, -, rfl⟩ := h
    exact .inl hacq
  · rename_i ho
    have hobj : isLargeObject type = true := by
      by_contra hc
      exact ho (.inr (by simpa using hc))
    rcases SParcel.readObject_cases h with ⟨-, -, -, ha⟩ | ⟨rfl, ha⟩
    · exact .inl (ha.trans hacq)
    · exact .inr ⟨by rw [ha, hacq], object_of_isLargeObject hobj⟩

/-- A value and the headers it was made of: `taken` are the references taken. -/
structure MadeOf (v : SValue) (headers : List Header)
    (taken : List (BitVec 32 × BitVec 32)) : Prop where
  mType : headers.head?.map Header.mType = some v.mType
  sound : (∀ h ∈ headers, h.isSound = true) ↔ v.isSound = true ∧ v.objects = taken
  taken_le : taken.length ≤ v.objects.length

/-- **The walk goes along with `unarchive_internal`**: both end in the same fault, or
where there is an error there are no headers, or else there are those of the value. -/
inductive Along (source : SParcel) : Except Fault (SValue × ℤ × SParcel) →
    Except Fault (List Header × ℤ × SParcel) → Prop where
  | fault (e : Fault) : Along source (.error e) (.error e)
  | failed (err : ℤ) (source' : SParcel) : Along source (.ok (failed err source'))
      (.ok ([], if err < 0 then err else badData, source'))
  | value {v : SValue} {headers : List Header} {n : ℤ} {source' : SParcel}
      {taken : List (BitVec 32 × BitVec 32)} (acquired : source'.acquired = source.acquired ++ taken)
      (made : MadeOf v headers taken) : Along source (.ok (v, n, source')) (.ok (headers, n, source'))

/-- The same for the pairs of a table. -/
inductive AlongMaps (source : SParcel) (count : ℕ) : Except Fault (ℤ × List Pair × ℤ × SParcel) →
    Except Fault (ℤ × List Header × ℤ × SParcel) → Prop where
  | fault (e : Fault) : AlongMaps source count (.error e) (.error e)
  | failed {err remain : ℤ} {source' : SParcel} {maps : List Pair} {headers : List Header}
      (neg : err < 0) :
      AlongMaps source count (.ok (err, maps, remain, source')) (.ok (err, headers, remain, source'))
  | maps {maps : List Pair} {headers : List Header} {remain : ℤ} {source' : SParcel}
      {taken : List (BitVec 32 × BitVec 32)} (acquired : source'.acquired = source.acquired ++ taken)
      (length : maps.length = count)
      (mType : headers.head?.map Header.mType = maps.head?.map fun p => p.1.mType)
      (sound : (∀ h ∈ headers, h.isSound = true) ↔
        (∀ p ∈ maps, p.1.isSound = true ∧ p.2.isSound = true) ∧ objectsMaps maps = taken)
      (taken_le : taken.length ≤ (objectsMaps maps).length) :
      AlongMaps source count (.ok (0, maps, remain, source')) (.ok (0, headers, remain, source'))

theorem Along.of_acquired {source source₀ : SParcel} {a : Except Fault (SValue × ℤ × SParcel)}
    {b : Except Fault (List Header × ℤ × SParcel)} (h : Along source a b)
    (ha : source.acquired = source₀.acquired) : Along source₀ a b := by
  cases h with
  | fault e => exact .fault e
  | failed err source' => exact .failed err source'
  | value acquired made => exact .value (by rw [acquired, ha]) made

theorem isSmallObject_length {type : BitVec 32} (h : isSmallObject type = true) :
    unpackTypeLength type = 4 := by
  have he : type &&& objectMask = BitVec.ofNat 32 4 ||| objectCode := by
    simpa [isSmallObject] using h
  have h7 := congrArg (fun x => (x &&& typeLengthMask).toNat) he
  simp only [BitVec.and_assoc, show objectMask &&& typeLengthMask = typeLengthMask by decide] at h7
  unfold unpackTypeLength
  rw [h7]
  decide

theorem readSmallData_acquired {p p' : SParcel} {words : BitVec 32 × BitVec 32} {amt : ℤ}
    (h : p.readSmallData = .ok (words, amt, p')) : p'.acquired = p.acquired := by
  unfold SParcel.readSmallData at h
  obtain ⟨⟨bytes, amt', p₁⟩, hr, h⟩ := bind_eq_ok.1 h
  obtain ⟨-, -, rfl⟩ := h
  exact SParcel.read_acquired hr

theorem MadeOf.of_isError {v : SValue} {headers : List Header} {taken : List (BitVec 32 × BitVec 32)}
    (h : MadeOf v headers taken) (he : v.isError = true) : v.isSound = true ∧ v.objects = taken := by
  have hty : v.mType = kErrorTypeCode := by simpa [isError] using he
  have ho : v.objects = [] := by
    cases v with
    | small type data =>
      have : isSmallObject type.1 = false := by rw [show type.1 = kErrorTypeCode from hty]; decide
      simp [objects, this]
    | large type buffer => rfl
    | map m => rw [isError_map] at he; cases he
  have hle := h.taken_le
  rw [ho] at hle ⊢
  refine ⟨?_, (length_eq_zero_iff.1 (Nat.le_zero.1 hle)).symm⟩
  cases v with
  | small type data =>
    simp only [isSound, checkIntegrity, show type.1 = kErrorTypeCode from hty]
    decide
  | large type buffer => exact absurd hty.symm (SmallType.ne_large ⟨kErrorTypeCode, by decide⟩ type)
  | map m => rw [isError_map] at he; cases he

theorem failed_neg (err : ℤ) : (if err < 0 then err else badData) < 0 := by
  split
  · assumption
  · decide

theorem MadeOf.cons {k v : SValue} {hk hv hr : List Header} {maps : List Pair}
    {tk tv tr : List (BitVec 32 × BitVec 32)} (mk : MadeOf k hk tk) (mv : MadeOf v hv tv)
    (sound : (∀ h ∈ hr, h.isSound = true) ↔
      (∀ p ∈ maps, p.1.isSound = true ∧ p.2.isSound = true) ∧ objectsMaps maps = tr)
    (taken_le : tr.length ≤ (objectsMaps maps).length) :
    ((hk ++ hv ++ hr).head?.map Header.mType = some k.mType) ∧
    ((∀ h ∈ hk ++ hv ++ hr, h.isSound = true) ↔
      (∀ p ∈ (k, v) :: maps, p.1.isSound = true ∧ p.2.isSound = true) ∧
        objectsMaps ((k, v) :: maps) = tk ++ (tv ++ tr)) ∧
    (tk ++ (tv ++ tr)).length ≤ (objectsMaps ((k, v) :: maps)).length := by
  have hle := mk.taken_le
  have hle' := mv.taken_le
  refine ⟨?_, ?_, ?_⟩
  · have := mk.mType
    cases hk with
    | nil => simp at this
    | cons h hk => simpa using this
  · rw [objectsMaps]
    simp only [mem_append, or_imp, forall_and, mem_cons, forall_eq]
    rw [mk.sound, mv.sound, sound]
    constructor
    · rintro ⟨⟨⟨hsk, rfl⟩, hsv, rfl⟩, hsr, rfl⟩
      exact ⟨⟨⟨hsk, fun p hp => (hsr p hp).1⟩, hsv, fun p hp => (hsr p hp).2⟩, rfl⟩
    · rintro ⟨⟨⟨hsk, hs1⟩, hsv, hs2⟩, ho⟩
      -- none of the three parts has fewer objects than references
      have hlen := congrArg List.length ho
      simp only [length_append] at hlen
      obtain ⟨h1, ho⟩ := append_inj ho (by omega)
      obtain ⟨h2, h3⟩ := append_inj ho (by omega)
      exact ⟨⟨⟨hsk, h1⟩, hsv, h2⟩, fun p hp => ⟨hs1 p hp, hs2 p hp⟩, h3⟩
  · rw [objectsMaps]
    simp only [length_append]
    omega

theorem createMaps_along {f : SParcel → ℤ → Except Fault (SValue × ℤ × SParcel)}
    {g : SParcel → ℤ → Except Fault (List Header × ℤ × SParcel)}
    (hfg : ∀ source avail, Along source (f source avail) (g source avail)) :
    ∀ (count room : ℕ) (source : SParcel) (remain : ℤ),
      AlongMaps source count (createMaps f count room source remain)
        (walkMaps g count room source remain) := by
  intro count
  induction count with
  | zero =>
    intro room source remain
    rw [createMaps, walkMaps]
    exact @AlongMaps.maps _ _ [] [] _ _ [] (by simp) rfl rfl (by simp [objectsMaps]) (Nat.zero_le _)
  | succ count ih =>
    intro room source remain
    cases room with
    | zero => exact .fault _
    | succ room =>
      rw [createMaps, walkMaps]
      have hk := hfg source remain
      generalize f source remain = a at hk
      generalize g source remain = b at hk
      cases hk with
      | fault e => exact .fault e
      | failed err source₁ =>
        simp only [ok_bind, failed]
        rw [if_pos (failed_neg err), if_pos (failed_neg err)]
        exact .failed (failed_neg err)
      | @value k hsk n source₁ tk hak mk =>
        simp only [ok_bind]
        by_cases hn : n < 0
        · rw [if_pos hn, if_pos hn]
          exact .failed hn
        rw [if_neg hn, if_neg hn]
        have hv := hfg source₁ (ssize (remain - n))
        generalize f source₁ (ssize (remain - n)) = a at hv
        generalize g source₁ (ssize (remain - n)) = b at hv
        cases hv with
        | fault e => exact .fault e
        | failed err source₂ =>
          simp only [ok_bind, failed]
          rw [if_pos (failed_neg err), if_pos (failed_neg err)]
          exact .failed (failed_neg err)
        | @value v hsv n' source₂ tv hav mv =>
          simp only [ok_bind]
          by_cases hn' : n' < 0
          · rw [if_pos hn', if_pos hn']
            exact .failed hn'
          rw [if_neg hn', if_neg hn']
          have hr := ih room source₂ (ssize (ssize (remain - n) - n'))
          generalize createMaps f count room source₂ (ssize (ssize (remain - n) - n')) = a at hr
          generalize walkMaps g count room source₂ (ssize (ssize (remain - n) - n')) = b at hr
          cases hr with
          | fault e => exact .fault e
          | failed neg => exact .failed neg
          | maps acquired length mType sound taken_le =>
            obtain ⟨h1, h2, h3⟩ := mk.cons mv sound taken_le
            exact .maps (by rw [acquired, hav, hak, append_assoc, append_assoc])
              (by simpa using length) h1 h2 h3

theorem valueDataAlign_small {n : ℕ} (h0 : 0 < n) (h : n ≤ typeLengthMax) : valueDataAlign n = 8 := by
  have : n < 5 := Nat.lt_succ_of_le h
  interval_cases n <;> rfl

/-- A block that `alloc_data` keeps inside of the value is empty: eight bytes do not
fit there. -/
theorem madeOf_small {htype : BitVec 32} {len : ℕ} (h : len ≤ typeLengthMax) (h0 : len = 0)
    (ht : unpackTypeLength (packSmallType htype len) ≤ typeLengthMax) :
    MadeOf (small ⟨packSmallType htype len, ht⟩ 0) [.large htype len] [] := by
  subst h0
  have hobj : isSmallObject (packSmallType htype 0) = false := by
    by_contra hc
    have := (isSmallObject_packSmallType htype h).1 (by simpa using hc)
    omega
  refine ⟨by simp [Header.mType, SValue.mType], ?_, Nat.zero_le _⟩
  simp only [mem_singleton, forall_eq, isSound, checkIntegrity, objects, hobj,
    checkType_packSmallType htype h, Header.isSound]
  generalize unpackTypeCode htype = code
  by_cases hv : code = valueType
  · subst hv
    simp [checkCode_valueType, typeLengthMap]
  by_cases he : code = errorType
  · subst he
    simp [checkCode_errorType]
  by_cases hs : code = 0 ∨ code = wildType ∨ code = nullType
  · simp [hv, he, checkCode_empty hs]
  · simp [hv, he, checkCode_other hs hv he]

theorem madeOf_large {htype : BitVec 32} {len : ℕ} {buffer : List Byte} (h : ¬ len ≤ typeLengthMax)
    (hlen : buffer.length = len) (ht : unpackTypeLength (packLargeType htype) = typeLengthLarge) :
    MadeOf (large ⟨packLargeType htype, ht⟩ buffer) [.large htype len] [] := by
  refine ⟨by simp [Header.mType, SValue.mType, h], ?_, Nat.zero_le _⟩
  have h0 : len ≠ 0 := by
    rintro rfl
    exact h (Nat.zero_le _)
  have hlt : typeLengthMax < len := by omega
  simp only [mem_singleton, forall_eq, isSound, checkIntegrity, objects, hlen,
    checkType_packLargeType htype, Header.isSound]
  generalize unpackTypeCode htype = code
  by_cases hv : code = valueType
  · subst hv
    simp [checkCode_valueType, typeLengthMap, typeLengthLarge]
  by_cases he : code = errorType
  · subst he
    simp [checkCode_errorType, typeLengthLarge]
  by_cases hs : code = 0 ∨ code = wildType ∨ code = nullType
  · simp [hv, he, checkCode_empty hs, h0, typeLengthLarge]
    tauto
  · simp [hv, he, checkCode_other hs hv he, h0, hlt]
    tauto

theorem unarchiveLarge_along (htype hdata : BitVec 32) (source : SParcel) :
    Along source (unarchiveLarge htype hdata source) (walkLarge htype hdata source) := by
  unfold unarchiveLarge walkLarge
  by_cases h : hdata.toNat ≤ typeLengthMax
  · rw [dif_pos h, if_neg (by omega), if_pos h]
    cases hr : source.read (valueDataAlign hdata.toNat) 4 with
    | error e => exact .fault e
    | ok r =>
      obtain ⟨bytes, err, source'⟩ := r
      simp only [ok_bind]
      by_cases he : err = valueDataAlign hdata.toNat
      · rw [if_neg (by simpa using he), if_neg (by simpa using he)]
        have h0 : hdata.toNat = 0 := by
          by_contra hc
          obtain ⟨hb, hroom⟩ := SParcel.read_length hr
          rw [valueDataAlign_small (by omega) h] at he
          omega
        exact .value (by simp [SParcel.read_acquired hr]) (madeOf_small h h0 _)
      · rw [if_pos (by simpa using he), if_pos (by simpa using he)]
        exact .failed err source'
  · rw [dif_neg h]
    by_cases hs : valueDataAlign hdata.toNat < hdata.toNat
    · rw [if_pos hs, if_pos ⟨hs, by omega⟩]
      exact .fault _
    · rw [if_neg hs, if_neg (by omega), if_neg h]
      cases hr : source.read (valueDataAlign hdata.toNat) (valueDataAlign hdata.toNat) with
      | error e => exact .fault e
      | ok r =>
        obtain ⟨bytes, err, source'⟩ := r
        simp only [ok_bind]
        by_cases he : err = valueDataAlign hdata.toNat
        · rw [if_neg (by simpa using he), if_neg (by simpa using he)]
          have hb := (SParcel.read_length hr).1
          exact .value (by simp [SParcel.read_acquired hr])
            (madeOf_large h (by rw [length_take]; omega) _)
        · rw [if_pos (by simpa using he), if_pos (by simpa using he)]
          exact .failed err source'

theorem madeOf_map {m : BValueMap SValue} {count : ℕ} {headers : List Header}
    {taken : List (BitVec 32 × BitVec 32)} (length : m.maps.length = count)
    (mType : headers.head?.map Header.mType = m.maps.head?.map fun p => p.1.mType)
    (sound : (∀ h ∈ headers, h.isSound = true) ↔
      (∀ p ∈ m.maps, p.1.isSound = true ∧ p.2.isSound = true) ∧ objectsMaps m.maps = taken)
    (taken_le : taken.length ≤ (objectsMaps m.maps).length) :
    MadeOf (map m) (.map count (headers.head?.map Header.mType) :: headers) taken := by
  refine ⟨rfl, ?_, by rw [objects_map]; exact taken_le⟩
  rw [objects_map, isSound_map, forall_mem_cons, sound, and_assoc]
  have hhead : Header.isSound (.map count (headers.head?.map Header.mType)) =
      (map m).checkIntegrity := by
    rw [mType, ← length, Header.isSound, checkIntegrity]
    generalize m.maps = maps
    rcases maps with - | ⟨⟨k, v⟩, - | ⟨q, maps⟩⟩
    · rfl
    · simp only [length_singleton, List.head?_cons, Option.map_some, isRedundant, isWild]
      cases hk : k.mType == kWildTypeCode <;> simp_all
    · simp [isRedundant]
  rw [hhead]

theorem unarchiveInternal_along : ∀ (fuel : ℕ) (source : SParcel) (avail : ℤ),
    Along source (unarchiveInternal fuel source avail) (walk fuel source avail) := by
  intro fuel
  induction fuel with
  | zero => intro source avail; exact .fault _
  | succ fuel ih =>
    intro source avail
    rw [unarchiveInternal, walk]
    by_cases ha : size avail < 8
    · rw [if_pos ha, if_pos ha]
      exact .failed 0 source
    rw [if_neg ha, if_neg ha]
    cases hr : source.readSmallDataOrObject with
    | error e => exact .fault e
    | ok r =>
      obtain ⟨⟨htype, hdata⟩, err, source'⟩ := r
      have hcases := readSmallDataOrObject_cases hr
      simp only [ok_bind]
      by_cases he : size err < 8
      · rw [if_pos he, if_pos he]
        exact .failed err source'
      rw [if_neg he, if_neg he]
      by_cases hl : unpackTypeLength htype ≤ typeLengthMax
      · rw [dif_pos hl, if_pos hl]
        rcases hcases with hacq | ⟨hacq, ho, hc⟩
        · rw [if_pos hacq]
          refine .value (by rw [hacq, append_nil]) ⟨rfl, ?_, Nat.zero_le _⟩
          simp [Header.isSound, isSound, checkIntegrity, objects]
        · rw [if_neg (by rw [hacq]; simp)]
          refine .value hacq ⟨rfl, ?_, by simp [objects, ho]⟩
          simp [Header.isSound, isSound, checkIntegrity, objects, ho, hc]
      rw [dif_neg hl, if_neg hl]
      have hacq : source'.acquired = source.acquired := by
        rcases hcases with hacq | ⟨-, ho, -⟩
        · exact hacq
        · exact absurd (isSmallObject_length ho) (by intro h4; rw [h4] at hl; exact hl (by decide))
      by_cases hll : unpackTypeLength htype = typeLengthLarge
      · rw [if_pos hll, if_pos hll]
        exact (unarchiveLarge_along htype hdata source').of_acquired hacq
      rw [if_neg hll, if_neg hll]
      cases hr2 : source'.readSmallData with
      | error e => exact .fault e
      | ok r =>
        obtain ⟨⟨count, order⟩, err, source₂⟩ := r
        have hacq2 : source₂.acquired = source.acquired := by
          rw [← hacq]; exact readSmallData_acquired hr2
        simp only [ok_bind]
        by_cases he8 : err ≠ 8
        · rw [if_pos he8, if_pos he8]
          exact .failed err source₂
        rw [if_neg he8, if_neg he8]
        cases hslots : slots count.toNat with
        | none => exact .fault _
        | some room =>
          simp only
          have hm := createMaps_along ih count.toNat room source₂ (ssize (avail - 16))
          generalize createMaps (unarchiveInternal fuel) count.toNat room source₂ (ssize (avail - 16)) = a at hm
          generalize walkMaps (walk fuel) count.toNat room source₂ (ssize (avail - 16)) = b at hm
          cases hm with
          | fault e => exact .fault e
          | @failed err remain source₃ maps headers neg =>
            simp only [ok_bind]
            rw [if_pos neg, if_pos neg]
            exact .failed err source₃
          | @maps maps headers remain source₃ taken acquired length mType sound taken_le =>
            simp only [ok_bind]
            have h00 : ¬ (0 : ℤ) < 0 := lt_irrefl 0
            rw [if_neg h00, if_neg h00]
            by_cases hd : ssize (ssize (avail - 16) - remain) < 0
            · rw [if_pos hd, if_pos hd]
              exact .failed _ source₃
            rw [if_neg hd, if_neg hd]
            exact .value (by rw [acquired, hacq2]) (madeOf_map length mType sound taken_le)

/-- What the claim of `Unarchive` is: an error, or a value that keeps the rules at every
node, with a reference taken for each object node. -/
def Safe (source : SParcel) : Except Fault (SValue × ℤ × SParcel) → Prop
  | .ok (v, _, source') => v.isError = true ∨
      v.isSound = true ∧ source'.acquired = source.acquired ++ v.objects
  | .error _ => False

/-- The headers that `Unarchive` meets are all sound. -/
def SoundHeaders (source : SParcel) : Prop :=
  ∃ headers n source', walk (source.data.length + 1) source 0x7fffffff = .ok (headers, n, source') ∧
    ∀ h ∈ headers, h.isSound = true

instance (source : SParcel) : DecidablePred (Safe source)
  | .ok (v, _, source') =>
    inferInstanceAs (Decidable (v.isError = true ∨
      v.isSound = true ∧ source'.acquired = source.acquired ++ v.objects))
  | .error _ => inferInstanceAs (Decidable False)

/-- The bytes of words, to be read from the start. -/
def parcelOf (words : List (BitVec 32)) : SParcel := ⟨words.flatMap wordBytes, 0, 4 * words.length, []⟩

end OpenBinder
