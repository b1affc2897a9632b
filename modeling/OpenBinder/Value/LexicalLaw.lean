import OpenBinder.Value.Lexical

/-!
# When `LexicalCompare` is an order

* `Decided`: what makes two values of one type code comparable.
* `lexicalCompare_rank`: such values are compared by length and then as numbers.
* `IsOrder.decided`: **nothing else is told apart**.
* `lexicalCompare_isOrder_iff`: when the comparison is an order on given values.
-/

namespace OpenBinder.SValue

open Lib List BitVec

/-- `Data`, of `Length` bytes. -/
def dataBytes (v : SValue) : List Byte := v.bytes.getD []

/-- What the switch of `LexicalCompare` compares of a value. -/
def caseValue : SValue → Option ℤ
  | small type data => caseNumber type data
  | _ => none

/-- A value of a floating point type. -/
def isFloating (v : SValue) : Bool :=
  unpackTypeCode v.mType == floatType || unpackTypeCode v.mType == doubleType

/-- The type word and the number of a value of an integer type that has its size. -/
def integer : SValue → Option (BitVec 32 × ℤ)
  | small type data =>
    if type.1 = packSmallType int8Type 1 ∨ type.1 = packSmallType uint8Type 1 ∨
        type.1 = packSmallType int16Type 2 ∨ type.1 = packSmallType uint16Type 2 ∨
        type.1 = packSmallType int32Type 4 ∨ type.1 = packSmallType uint32Type 4 then
      (caseNumber type data).map fun number => (type.1, number)
    else none
  | large type buffer =>
    if buffer.length ≠ 8 then none
    else if type.1 = packLargeType int64Type then some (type.1, (positionOf buffer).toInt)
    else if type.1 = packLargeType uint64Type then some (type.1, (positionOf buffer).toNat)
    else none
  | map _ => none

/-- The type words with a case that reads the inline data. -/
def caseTypes : List (BitVec 32) :=
  [kUndefinedTypeCode, kWildTypeCode, packSmallType boolType 1, packSmallType int8Type 1,
    packSmallType uint8Type 1, packSmallType int16Type 2, packSmallType uint16Type 2,
    packSmallType int32Type 4, packSmallType uint32Type 4]

variable {type : SmallType} {data t : BitVec 32} {x : ℤ} {y : List Byte}

theorem mem_caseTypes {type : BitVec 32} (h : caseNumber type data = some x) :
    type ∈ caseTypes := by
  unfold caseNumber at h
  unfold caseTypes
  simp only [mem_cons, not_mem_nil, or_false]
  split_ifs at h <;> tauto

theorem caseTypes_unique {x y : BitVec 32} (hx : x ∈ caseTypes) (hy : y ∈ caseTypes)
    (hcode : unpackTypeCode x = unpackTypeCode y)
    (hlength : unpackTypeLength x = unpackTypeLength y) : x = y := by
  have hnodup : (caseTypes.map fun x => (unpackTypeCode x, unpackTypeLength x)).Nodup := by decide
  exact inj_on_of_nodup_map hnodup hx hy (Prod.ext hcode hlength)

theorem isSome_caseNumber (type data data' : BitVec 32) :
    (caseNumber type data).isSome = (caseNumber type data').isSome := by
  unfold caseNumber
  split_ifs
  all_goals simp only [Option.isSome_some, Option.isSome_none]

variable {compareFloat : BitVec 32 → BitVec 32 → Ordering} {a b c : SValue}

theorem bytes_eq (h : a.isSimple = true) : a.bytes = some a.dataBytes := by
  cases a with
  | small type data => rfl
  | large type buffer => rfl
  | map m => exact absurd h (by simp)

theorem dataBytes_of_code (h : a.code = b.code) : a.dataBytes = b.dataBytes := by
  have htype := mType_eq_of_code h
  cases a with
  | small type data =>
    cases b with
    | small type' data' =>
      obtain rfl : type = type' := Subtype.ext htype
      rw [code, code, List.cons.injEq] at h
      have hkey := h.2
      unfold localKey at hkey
      split at hkey
      · rw [eq_of_toInt_eq (List.cons.inj hkey).1]
      · rw [localBytes_eq data type.2, localBytes_eq data' type.2] at hkey
        exact map_injective_iff.2
          (fun x y hxy => eq_of_toNat_eq (by exact_mod_cast hxy)) hkey
    | large type' buffer => exact absurd htype (type.ne_large type')
    | map m => exact absurd htype type.ne_map
  | large type buffer =>
    cases b with
    | small type' data => exact absurd htype.symm (type'.ne_large type)
    | large type' buffer' =>
      rw [code, code, List.cons.injEq, List.cons.injEq] at h
      exact map_injective_iff.2
        (fun x y hxy => eq_of_toNat_eq (by exact_mod_cast hxy)) h.2.2
    | map m => exact absurd htype type.ne_map
  | map m =>
    cases b with
    | small type' data => exact absurd htype.symm type'.ne_map
    | large type' buffer => exact absurd htype.symm type'.ne_map
    | map m' => rfl

theorem take_wordBytes {data' : BitVec 32} {n : ℕ} (hn : n ≤ 4)
    (h : data.setWidth (8 * n) = data'.setWidth (8 * n)) :
    (wordBytes data).take n = (wordBytes data').take n := by
  have htake : ∀ w : BitVec 32,
      (wordBytes w).take n = (List.range n).map fun i => w.extractLsb' (8 * i) 8 := by
    intro w
    rw [show wordBytes w = (List.range 4).map fun i => w.extractLsb' (8 * i) 8 from rfl,
      ← map_take, take_range, Nat.min_eq_left hn]
  rw [htake, htake]
  refine map_congr_left fun i hi => ?_
  have hi := mem_range.1 hi
  ext j hj
  have hbit := congrArg (fun w => w.getLsbD (8 * i + j)) h
  simp only [getLsbD_setWidth, show 8 * i + j < 8 * n by omega, decide_true,
    Bool.true_and] at hbit
  simpa [getElem_extractLsb'] using hbit

theorem dataBytes_of_caseValue (htype : a.mType = b.mType) (ha : a.caseValue = some x)
    (hb : b.caseValue = some x) : a.dataBytes = b.dataBytes := by
  cases a with
  | small type data =>
    cases b with
    | small type' data' =>
      obtain rfl : type = type' := Subtype.ext htype
      obtain ⟨type, hsmall⟩ := type
      have hbits : data.setWidth (8 * unpackTypeLength type) =
          data'.setWidth (8 * unpackTypeLength type) := by
        have hx : caseNumber type data = caseNumber type data' := ha.trans hb.symm
        unfold caseNumber at hx
        split_ifs at hx with h0 h1 h2 h3 h4 h5 h6
        · have hzero : unpackTypeLength type = 0 := by rcases h0 with rfl | rfl <;> decide
          rw [hzero, Nat.mul_zero]
          exact Subsingleton.elim _ _
        · rcases h1 with rfl | rfl <;> exact eq_of_toInt_eq (Option.some.inj hx)
        · subst h2
          exact eq_of_toNat_eq (by exact_mod_cast Option.some.inj hx)
        · subst h3
          exact eq_of_toInt_eq (Option.some.inj hx)
        · subst h4
          exact eq_of_toNat_eq (by exact_mod_cast Option.some.inj hx)
        · rw [eq_of_toInt_eq (Option.some.inj hx)]
        · have hdata : data = data' :=
            eq_of_toNat_eq (by exact_mod_cast Option.some.inj hx)
          rw [hdata]
        · have hnone : caseNumber type data = some x := ha
          unfold caseNumber at hnone
          rw [if_neg h0, if_neg h1, if_neg h2, if_neg h3, if_neg h4, if_neg h5, if_neg h6] at hnone
          cases hnone
      exact take_wordBytes hsmall hbits
    | large type' buffer => cases hb
    | map m => cases hb
  | large type buffer => cases ha
  | map m => cases ha

/-! ## Values of one family -/

/-- **Two values of one type code that are told apart**: a case reads their numbers, or the bytes
of the one start with those of the other. In the first case, and if they have equally many bytes,
they have one type word; and no case takes inline data for a buffer. -/
def Decided (a b : SValue) : Prop :=
  (a.caseValue.isSome ∧ a.mType = b.mType) ∨
    (a.dataBytes <+: b.dataBytes ∨ b.dataBytes <+: a.dataBytes) ∧
      (a.dataBytes.length = b.dataBytes.length → a.mType = b.mType ∧ ¬ followsBuffer a.mType)

/-- What simple values of one type code are compared by. -/
def rank (v : SValue) : List ℤ := [v.dataBytes.length, v.caseValue.getD 0]

theorem length_dataBytes_small :
    (small type data).dataBytes.length = unpackTypeLength type.1 := by
  show ((wordBytes data).take _).length = _
  rw [length_take, wordBytes_length]
  exact Nat.min_eq_left type.2

theorem small_of_length (hb : b.isSimple = true)
    (h : unpackTypeLength type.1 = unpackTypeLength b.mType) :
    ∃ type' data', b = small type' data' := by
  cases b with
  | small type' data' => exact ⟨type', data', rfl⟩
  | large type' buffer =>
    have hle := type.2
    rw [h, mType, type'.2] at hle
    exact absurd hle (by decide)
  | map m => exact absurd hb (by simp)

theorem lexicalSwitch_returns {y : ℤ} (htype : a.mType = b.mType) (ha : a.caseValue = some x)
    (hb : b.caseValue = some y) : lexicalSwitch compareFloat a b = .returns (cmpInt x y) := by
  cases a with
  | small type data =>
    cases b with
    | small type' data' =>
      obtain rfl : type = type' := Subtype.ext htype
      unfold caseValue at ha hb
      unfold lexicalSwitch
      simp only [ha, hb]
    | large type' buffer => cases hb
    | map m => cases hb
  | large type buffer => cases ha
  | map m => cases ha

theorem ne_float_of (hf : a.isFloating = false) : a.mType ≠ packSmallType floatType 4 := by
  intro h
  unfold isFloating at hf
  rw [h] at hf
  exact absurd hf (by decide)

theorem length_of_followsBuffer {type : BitVec 32} (h : followsBuffer type) :
    unpackTypeLength type = 0 := by
  rcases h with rfl | rfl | rfl <;> decide

/-- **Without a case** for the type word the switch breaks, or takes the data for a buffer. -/
theorem lexicalSwitch_none (hf : a.isFloating = false) (ha : a.caseValue = none)
    (hs : a.isSimple = true) (hb : b.isSimple = true)
    (hbits : unpackTypeLength a.mType = unpackTypeLength b.mType) :
    lexicalSwitch compareFloat a b = if followsBuffer a.mType then .follows else .breaks := by
  cases a with
  | small type data =>
    obtain ⟨type', data', rfl⟩ := small_of_length hb hbits
    have hdata : caseNumber type data = none := ha
    have hne : type.1 ≠ packSmallType floatType 4 := ne_float_of hf
    unfold lexicalSwitch
    simp only [hdata, if_neg hne]
    rfl
  | large type buffer =>
    have hfol : ¬ followsBuffer (large type buffer).mType := by
      intro h
      have hzero := length_of_followsBuffer h
      rw [mType, type.2] at hzero
      exact absurd hzero (by decide)
    rw [if_neg hfol]
    rfl
  | map m => exact absurd hs (by simp)

theorem memcmp_eq_iff {x : List Byte} : memcmp x y = .eq ↔ x = y := by
  unfold memcmp
  rw [cmpCode_eq_iff]
  have hinj : Function.Injective fun b : Byte => (b.toNat : ℤ) :=
    fun b c h => eq_of_toNat_eq (Int.ofNat.inj h)
  exact (map_injective_iff.2 hinj).eq_iff

theorem lexicalData_of_start {x : List Byte} (h : x <+: y ∨ y <+: x) :
    lexicalData x y = cmpInt x.length y.length := by
  have hcommon : x.take (min x.length y.length) = y.take (min x.length y.length) := by
    rcases h with h | h
    · rw [Nat.min_eq_left h.length_le, take_length, prefix_iff_eq_take.1 h,
        length_take, Nat.min_eq_left h.length_le]
    · rw [Nat.min_eq_right h.length_le, take_length, ← prefix_iff_eq_take.1 h]
  unfold lexicalData
  by_cases hlen : x.length = y.length
  · rw [if_neg fun hne => hne.2 hlen, hlen, cmpInt_self]
  · exact if_pos ⟨memcmp_eq_iff.2 hcommon, hlen⟩

theorem start_of_lexicalData {x : List Byte} (h : lexicalData x y ≠ .eq) :
    (x <+: y ∨ y <+: x) ∧ x.length ≠ y.length := by
  unfold lexicalData at h
  dsimp only at h
  split at h
  · rename_i hc
    have hcommon := memcmp_eq_iff.1 hc.1
    refine ⟨?_, hc.2⟩
    rcases Nat.le_total x.length y.length with hle | hle
    · rw [Nat.min_eq_left hle, take_length] at hcommon
      exact .inl (hcommon ▸ take_prefix _ _)
    · rw [Nat.min_eq_right hle, take_length] at hcommon
      exact .inr (hcommon ▸ take_prefix _ _)
  · exact absurd rfl h

theorem isSome_caseValue (h : a.mType = b.mType) : a.caseValue.isSome = b.caseValue.isSome := by
  cases a with
  | small type data =>
    cases b with
    | small type' data' =>
      obtain rfl : type = type' := Subtype.ext h
      exact isSome_caseNumber type.1 data data'
    | large type' buffer => exact absurd h (type.ne_large type')
    | map m => exact absurd h type.ne_map
  | large type buffer =>
    cases b with
    | small type' data => exact absurd h.symm (type'.ne_large type)
    | large type' buffer' => rfl
    | map m => rfl
  | map m =>
    cases b with
    | small type' data => exact absurd h.symm type'.ne_map
    | large type' buffer => rfl
    | map m' => rfl

theorem length_dataBytes_of_caseValue (h : a.caseValue.isSome = true) :
    a.dataBytes.length = unpackTypeLength a.mType := by
  cases a with
  | small type data => exact length_dataBytes_small
  | large type buffer => cases h
  | map m => cases h

theorem lexicalSwitch_large (hb : b.isSimple = true)
    (hbits : unpackTypeLength a.mType = unpackTypeLength b.mType)
    (hlen : a.dataBytes.length ≠ b.dataBytes.length) :
    lexicalSwitch compareFloat a b = .breaks := by
  cases a with
  | small type data =>
    obtain ⟨type', data', rfl⟩ := small_of_length hb hbits
    rw [length_dataBytes_small, length_dataBytes_small] at hlen
    exact absurd hbits hlen
  | large type buffer => rfl
  | map m => rfl

theorem isSimple_of_family (h : a.family = b.family) : a.isSimple = b.isSimple := by
  unfold family at h
  split at h <;> split at h <;> simp_all

theorem lexicalCompare_case (ha : a.isSimple = true) (h : a.family = b.family)
    (htype : a.mType = b.mType) (hcase : a.caseValue.isSome = true) :
    lexicalCompare compareFloat a b = some (cmpCode a.rank b.rank) := by
  have hcase' := isSome_caseValue htype ▸ hcase
  obtain ⟨x, hx⟩ := Option.isSome_iff_exists.1 hcase
  obtain ⟨y, hy⟩ := Option.isSome_iff_exists.1 hcase'
  rw [lexicalCompare_simple ha h, if_pos (by rw [htype]), lexicalSwitch_returns htype hx hy]
  unfold rank
  rw [length_dataBytes_of_caseValue hcase, length_dataBytes_of_caseValue hcase', htype, hx, hy]
  simp

/-- **Values that are told apart** are compared by length and then as numbers. -/
theorem lexicalCompare_rank (ha : a.isSimple = true) (h : a.family = b.family)
    (hf : a.isFloating = false) (hd : Decided a b) :
    lexicalCompare compareFloat a b = some (cmpCode a.rank b.rank) := by
  have hb : b.isSimple = true := isSimple_of_family h ▸ ha
  rcases hd with ⟨hcase, htype⟩ | ⟨hstart, hequal⟩
  · exact lexicalCompare_case ha h htype hcase
  by_cases hlen : a.dataBytes.length = b.dataBytes.length
  · obtain ⟨htype, hfol⟩ := hequal hlen
    cases hcase : a.caseValue with
    | some x => exact lexicalCompare_case ha h htype (by rw [hcase]; rfl)
    | none =>
      have hcase' : b.caseValue = none := by
        have := isSome_caseValue htype
        rw [hcase] at this
        exact Option.not_isSome_iff_eq_none.1 (by rw [← this]; decide)
      have hbits : unpackTypeLength a.mType = unpackTypeLength b.mType := by rw [htype]
      rw [lexicalCompare_simple ha h, if_pos hbits, lexicalSwitch_none hf hcase ha hb hbits,
        if_neg hfol]
      unfold rank
      rw [hcase, hcase', ← hlen, cmpCode_self]
      show some (lexicalData a.dataBytes b.dataBytes) = _
      rw [lexicalData_of_start hstart, hlen, cmpInt_self]
  · have hbreaks : (if unpackTypeLength a.mType = unpackTypeLength b.mType then
        lexicalSwitch compareFloat a b else .breaks) = .breaks := by
      split
      · rename_i hbits
        exact lexicalSwitch_large hb hbits hlen
      · rfl
    rw [lexicalCompare_simple ha h, hbreaks]
    show some (lexicalData a.dataBytes b.dataBytes) = _
    rw [lexicalData_of_start hstart]
    unfold rank
    rw [cmpCode_cons]
    have hne : cmpInt a.dataBytes.length b.dataBytes.length ≠ .eq := by
      rw [ne_eq, cmpInt_eq_iff]
      exact_mod_cast hlen
    cases hc : cmpInt a.dataBytes.length b.dataBytes.length with
    | eq => exact absurd hc hne
    | lt => rfl
    | gt => rfl

theorem caseValue_of_integer (h : (small type data).integer = some (t, x)) :
    type.1 = t ∧ caseNumber type data = some x := by
  unfold integer at h
  dsimp only at h
  split_ifs at h
  obtain ⟨y, hy, hp⟩ := Option.map_eq_some_iff.1 h
  cases hp
  exact ⟨rfl, hy⟩

theorem positionOf_of_integer {type : LargeType} {buffer : List Byte}
    (h : (large type buffer).integer = some (t, x)) : type.1 = t ∧ buffer.length = 8 ∧
      x = if t = packLargeType int64Type then (positionOf buffer).toInt
        else (positionOf buffer).toNat := by
  unfold integer at h
  dsimp only at h
  split_ifs at h with hlen hs hu
  · cases h
    exact ⟨rfl, not_not.1 hlen, (if_pos hs).symm⟩
  · cases h
    exact ⟨rfl, not_not.1 hlen, (if_neg hs).symm⟩

/-- **Integers of one type** are told apart as numbers by a case, or have equally many bytes. -/
theorem integer_cases {y : ℤ} (ha : a.integer = some (t, x)) (hb : b.integer = some (t, y)) :
    a.isSimple = true ∧ a.mType = b.mType ∧
      (a.caseValue = some x ∧ b.caseValue = some y ∨
        a.dataBytes.length = b.dataBytes.length ∧ a.caseValue = none ∧ b.caseValue = none ∧
          (a.dataBytes = b.dataBytes → x = y)) := by
  cases a with
  | small type data =>
    obtain ⟨htype, hx⟩ := caseValue_of_integer ha
    cases b with
    | small type' data' =>
      obtain ⟨htype', hy⟩ := caseValue_of_integer hb
      exact ⟨by simp, htype.trans htype'.symm, .inl ⟨hx, hy⟩⟩
    | large type' buffer =>
      exact absurd (htype.trans (positionOf_of_integer hb).1.symm) (type.ne_large type')
    | map m => cases hb
  | large type buffer =>
    obtain ⟨htype, hlen, hx⟩ := positionOf_of_integer ha
    cases b with
    | small type' data =>
      exact absurd ((caseValue_of_integer hb).1.trans htype.symm) (type'.ne_large type)
    | large type' buffer' =>
      obtain ⟨htype', hlen', hy⟩ := positionOf_of_integer hb
      refine ⟨by simp, htype.trans htype'.symm, .inr ⟨hlen.trans hlen'.symm, rfl, rfl, ?_⟩⟩
      intro hbytes
      obtain rfl : buffer = buffer' := hbytes
      exact hx.trans hy.symm
    | map m => cases hb
  | map m => cases ha

/-- **Bytes and numbers that are the same** belong to values that compare equal. -/
theorem compare_of_rank (hd : Decided a b) (ha : a.isSimple = true) (hb : b.isSimple = true)
    (h : a.rank = b.rank) : a.compare b = .eq := by
  unfold rank at h
  rw [List.cons.injEq, List.cons.injEq] at h
  have hlen : a.dataBytes.length = b.dataBytes.length := by exact_mod_cast h.1
  have hbytes : a.dataBytes = b.dataBytes ∧ a.mType = b.mType := by
    rcases hd with ⟨hcase, htype⟩ | ⟨hstart, hequal⟩
    · obtain ⟨x, hx⟩ := Option.isSome_iff_exists.1 hcase
      obtain ⟨y, hy⟩ := Option.isSome_iff_exists.1 (isSome_caseValue htype ▸ hcase)
      have hxy := h.2.1
      rw [hx, hy] at hxy
      obtain rfl : x = y := hxy
      exact ⟨dataBytes_of_caseValue htype hx hy, htype⟩
    · refine ⟨?_, (hequal hlen).1⟩
      rcases hstart with hp | hp
      · exact hp.eq_of_length hlen
      · exact (hp.eq_of_length hlen.symm).symm
  exact equal_of_bytes hbytes.2 (bytes_eq ha) (hbytes.1 ▸ bytes_eq hb)

/-- The order of two values, if `LexicalCompare` tells them apart. -/
def order (a b : SValue) : Ordering :=
  if a.family = b.family then
    match a, b with
    | map m, map m' => lexicalMaps m.maps m'.maps
    | _, _ => cmpCode a.rank b.rank
  else cmpInt a.mType.toNat b.mType.toNat

theorem order_simple (ha : a.isSimple = true) (h : a.family = b.family) :
    order a b = cmpCode a.rank b.rank := by
  unfold order
  rw [if_pos h]
  split
  · exact absurd ha (by simp)
  · rfl

theorem order_apart (h : a.family ≠ b.family) : order a b = cmpInt a.mType.toNat b.mType.toNat :=
  if_neg h

theorem order_maps (m m' : BValueMap SValue) :
    order (map m) (map m') = lexicalMaps m.maps m'.maps := by
  exact if_pos rfl

/-- `a` does not come after `b`. -/
def NotAfter (compareFloat : BitVec 32 → BitVec 32 → Ordering) (a b : SValue) : Prop :=
  ∃ o, lexicalCompare compareFloat a b = some o ∧ o.isLE = true

/-- **`LexicalCompare` is an order** on some values. -/
structure IsOrder (compareFloat : BitVec 32 → BitVec 32 → Ordering) (s : Set SValue) : Prop where
  swap : ∀ a ∈ s, ∀ b ∈ s, ∃ o,
    lexicalCompare compareFloat a b = some o ∧ lexicalCompare compareFloat b a = some o.swap
  trans : ∀ a ∈ s, ∀ b ∈ s, ∀ c ∈ s,
    NotAfter compareFloat a b → NotAfter compareFloat b c → NotAfter compareFloat a c
  numbers : ∀ a ∈ s, ∀ b ∈ s, ∀ t x y, a.integer = some (t, x) → b.integer = some (t, y) →
    lexicalCompare compareFloat a b = some (cmpInt x y)
  equal : ∀ a ∈ s, ∀ b ∈ s, lexicalCompare compareFloat a b = some .eq → a.compare b = .eq

/-- **All values are told apart**, and where two of one type code are in order of length, no other
value has its type word between theirs the other way round. -/
structure AllDecided (s : Set SValue) : Prop where
  decided : ∀ a ∈ s, ∀ b ∈ s, a.isSimple = true → a.family = b.family → Decided a b
  between : ∀ a ∈ s, ∀ b ∈ s, ∀ c ∈ s, a.isSimple = true → a.family = b.family →
    c.family ≠ a.family → a.dataBytes.length < b.dataBytes.length →
      ¬ (b.mType.toNat < c.mType.toNat ∧ c.mType.toNat < a.mType.toNat)

/-! ## Enough -/

variable {s : Set SValue}

theorem lexicalCompare_order (hf : a.isFloating = false)
    (hd : a.isSimple = true → a.family = b.family → Decided a b) :
    lexicalCompare compareFloat a b = some (order a b) := by
  by_cases h : a.family = b.family
  · by_cases ha : a.isSimple = true
    · rw [order_simple ha h, lexicalCompare_rank ha h hf (hd ha h)]
    · obtain ⟨m, rfl⟩ := isSimple_eq_false.1 (Bool.not_eq_true _ ▸ ha)
      have hb := isSimple_of_family h
      rw [isSimple_map] at hb
      obtain ⟨m', rfl⟩ := isSimple_eq_false.1 hb.symm
      rw [order_maps, lexicalCompare_maps]
  · rw [order_apart h, lexicalCompare_apart h]

theorem order_swap (a b : SValue) : order b a = (order a b).swap := by
  by_cases h : a.family = b.family
  · by_cases ha : a.isSimple = true
    · rw [order_simple ha h, order_simple (isSimple_of_family h ▸ ha) h.symm]
      exact Std.OrientedCmp.eq_swap
    · obtain ⟨m, rfl⟩ := isSimple_eq_false.1 (Bool.not_eq_true _ ▸ ha)
      have hb := isSimple_of_family h
      rw [isSimple_map] at hb
      obtain ⟨m', rfl⟩ := isSimple_eq_false.1 hb.symm
      rw [order_maps, order_maps, lexicalMaps_eq, lexicalMaps_eq]
      exact Std.OrientedCmp.eq_swap
  · rw [order_apart h, order_apart (Ne.symm h)]
    exact Std.OrientedCmp.eq_swap

theorem compare_of_order (hd : a.isSimple = true → a.family = b.family → Decided a b)
    (h : order a b = .eq) : a.compare b = .eq := by
  by_cases hfam : a.family = b.family
  · by_cases ha : a.isSimple = true
    · rw [order_simple ha hfam, cmpCode_eq_iff] at h
      exact compare_of_rank (hd ha hfam) ha (isSimple_of_family hfam ▸ ha) h
    · obtain ⟨m, rfl⟩ := isSimple_eq_false.1 (Bool.not_eq_true _ ▸ ha)
      have hb := isSimple_of_family hfam
      rw [isSimple_map] at hb
      obtain ⟨m', rfl⟩ := isSimple_eq_false.1 hb.symm
      rw [order_maps] at h
      exact compare_eq_iff.2 (code_of_lexicalMaps h)
  · rw [order_apart hfam, cmpInt_eq_iff] at h
    exact absurd (eq_of_toNat_eq (by exact_mod_cast h)) (family_ne_of_mType hfam)

theorem order_trans_family (hab : a.family = b.family) (hbc : b.family = c.family)
    (h : (order a b).isLE) (h' : (order b c).isLE) : (order a c).isLE := by
  by_cases ha : a.isSimple = true
  · have hb : b.isSimple = true := isSimple_of_family hab ▸ ha
    rw [order_simple ha hab] at h
    rw [order_simple hb hbc] at h'
    rw [order_simple ha (hab.trans hbc)]
    exact Std.TransCmp.isLE_trans h h'
  · obtain ⟨m, rfl⟩ := isSimple_eq_false.1 (Bool.not_eq_true _ ▸ ha)
    have hb := isSimple_of_family hab
    have hc := isSimple_of_family (hab.trans hbc)
    rw [isSimple_map] at hb hc
    obtain ⟨m', rfl⟩ := isSimple_eq_false.1 hb.symm
    obtain ⟨m'', rfl⟩ := isSimple_eq_false.1 hc.symm
    rw [order_maps, lexicalMaps_eq] at *
    exact Std.TransCmp.isLE_trans h h'

theorem isLE_cmpInt {y : ℤ} : (cmpInt x y).isLE = true ↔ x ≤ y := by
  unfold cmpInt
  split_ifs <;> simp <;> omega

theorem toNat_ne_of_family (h : a.family ≠ b.family) : a.mType.toNat ≠ b.mType.toNat :=
  fun he => family_ne_of_mType h (eq_of_toNat_eq he)

theorem AllDecided.not_between (h : AllDecided s) (ha : a ∈ s) (hb : b ∈ s) (hc : c ∈ s)
    (hab : a.family = b.family) (hca : c.family ≠ a.family) (hle : (order a b).isLE) :
    ¬ (b.mType.toNat < c.mType.toNat ∧ c.mType.toNat < a.mType.toNat) := by
  rintro ⟨hbc, hca'⟩
  by_cases hsimple : a.isSimple = true
  · rw [order_simple hsimple hab] at hle
    unfold rank at hle
    rw [cmpCode_cons] at hle
    rcases Nat.lt_trichotomy a.dataBytes.length b.dataBytes.length with hlt | heq | hgt
    · exact h.between a ha b hb c hc hsimple hab hca hlt ⟨hbc, hca'⟩
    · have htype : a.mType = b.mType := by
        rcases h.decided a ha b hb hsimple hab with hcase | hbytes
        · exact hcase.2
        · exact (hbytes.2 heq).1
      rw [htype] at hca'
      omega
    · have : cmpInt a.dataBytes.length b.dataBytes.length = .gt := by
        unfold cmpInt
        rw [if_neg (by omega), if_neg (by omega)]
      rw [this] at hle
      exact absurd hle (by rw [Ordering.gt_then]; decide)
  · obtain ⟨m, rfl⟩ := isSimple_eq_false.1 (Bool.not_eq_true _ ▸ hsimple)
    have hb' := isSimple_of_family hab
    rw [isSimple_map] at hb'
    obtain ⟨m', rfl⟩ := isSimple_eq_false.1 hb'.symm
    exact absurd (hbc.trans hca') (lt_irrefl _)

theorem AllDecided.order_trans (h : AllDecided s) (ha : a ∈ s) (hb : b ∈ s) (hc : c ∈ s)
    (hle : (order a b).isLE) (hle' : (order b c).isLE) : (order a c).isLE := by
  by_cases hab : a.family = b.family
  · by_cases hbc : b.family = c.family
    · exact order_trans_family hab hbc hle hle'
    · have hac : a.family ≠ c.family := hab ▸ hbc
      have hnot := h.not_between ha hb hc hab (Ne.symm hac) hle
      have hne' := toNat_ne_of_family hbc
      rw [order_apart hbc, isLE_cmpInt] at hle'
      rw [order_apart hac, isLE_cmpInt]
      omega
  · rw [order_apart hab, isLE_cmpInt] at hle
    have hne := toNat_ne_of_family hab
    by_cases hbc : b.family = c.family
    · have hac : a.family ≠ c.family := hbc ▸ hab
      have hnot := h.not_between hb hc ha hbc hab hle'
      rw [order_apart hac, isLE_cmpInt]
      omega
    · rw [order_apart hbc, isLE_cmpInt] at hle'
      have hne' := toNat_ne_of_family hbc
      by_cases hac : a.family = c.family
      · -- `b` is between `a` and `c`, so that `c` cannot be before `a`
        have hnot : (order c a).isLE = true → False := fun hca =>
          h.not_between hc ha hb hac.symm hbc hca ⟨by omega, by omega⟩
        rw [order_swap a c] at hnot
        cases ho : order a c with
        | lt => rfl
        | eq => rfl
        | gt => exact absurd (by rw [ho]; rfl) hnot
      · rw [order_apart hac, isLE_cmpInt]
        omega

theorem AllDecided.isOrder (h : AllDecided s) (hf : ∀ v ∈ s, v.isFloating = false) :
    IsOrder compareFloat s := by
  have hlex : ∀ a ∈ s, ∀ b ∈ s, lexicalCompare compareFloat a b = some (order a b) :=
    fun a ha b hb => lexicalCompare_order (hf a ha) (h.decided a ha b hb)
  refine ⟨?_, ?_, ?_, ?_⟩
  · intro a ha b hb
    exact ⟨order a b, hlex a ha b hb, by rw [hlex b hb a ha, order_swap]⟩
  · rintro a ha b hb c hc ⟨o, ho, hle⟩ ⟨o', ho', hle'⟩
    rw [hlex a ha b hb] at ho
    rw [hlex b hb c hc] at ho'
    obtain ⟨⟩ := ho
    obtain ⟨⟩ := ho'
    exact ⟨_, hlex a ha c hc, h.order_trans ha hb hc hle hle'⟩
  · intro a ha b hb t x y hx hy
    obtain ⟨hsimple, htype, hnumber⟩ := integer_cases hx hy
    have hfam : a.family = b.family := by unfold family isSimple; rw [htype]
    rw [hlex a ha b hb, order_simple hsimple hfam]
    unfold rank
    rcases hnumber with ⟨hcase, hcase'⟩ | ⟨hlen, hcase, hcase', hbytes⟩
    · have hlen := length_dataBytes_of_caseValue (a := a) (by rw [hcase]; rfl)
      have hlen' := length_dataBytes_of_caseValue (a := b) (by rw [hcase']; rfl)
      rw [hcase, hcase', hlen, hlen', htype]
      simp
    · have hxy : x = y := by
        rcases h.decided a ha b hb hsimple hfam with hc | hd
        · rw [hcase] at hc
          exact absurd hc.1 (by decide)
        · apply hbytes
          rcases hd.1 with hp | hp
          · exact hp.eq_of_length hlen
          · exact (hp.eq_of_length hlen.symm).symm
      rw [hcase, hcase', hlen, hxy, cmpInt_self, cmpCode_self]
  · intro a ha b hb heq
    rw [hlex a ha b hb] at heq
    exact compare_of_order (h.decided a ha b hb) (Option.some.inj heq)

/-! ## Necessary -/

theorem IsOrder.ne_none (h : IsOrder compareFloat s) (ha : a ∈ s) (hb : b ∈ s) :
    lexicalCompare compareFloat a b ≠ none := by
  obtain ⟨o, ho, -⟩ := h.swap a ha b hb
  rw [ho]
  exact Option.some_ne_none o

theorem decided_of_bytes (h : IsOrder compareFloat s) (ha : a ∈ s) (hb : b ∈ s)
    (hlex : lexicalCompare compareFloat a b = some (lexicalData a.dataBytes b.dataBytes))
    (hfol : a.mType = b.mType → ¬ followsBuffer a.mType) : Decided a b := by
  right
  by_cases heq : lexicalData a.dataBytes b.dataBytes = .eq
  · rw [heq] at hlex
    have hcode := compare_eq_iff.1 (h.equal a ha b hb hlex)
    have htype := mType_eq_of_code hcode
    rw [dataBytes_of_code hcode]
    exact ⟨.inl (prefix_refl _), fun _ => ⟨htype, hfol htype⟩⟩
  · obtain ⟨hstart, hlen⟩ := start_of_lexicalData heq
    exact ⟨hstart, fun hl => absurd hl hlen⟩

theorem mType_of_cases {y : ℤ} (hfam : a.family = b.family)
    (hbits : unpackTypeLength a.mType = unpackTypeLength b.mType) (ha : a.caseValue = some x)
    (hb : b.caseValue = some y) : a.mType = b.mType := by
  cases a with
  | small type data =>
    cases b with
    | small type' data' =>
      refine caseTypes_unique (mem_caseTypes ha) (mem_caseTypes hb) ?_ hbits
      unfold family at hfam
      rw [isSimple_small, isSimple_small, if_pos rfl, if_pos rfl] at hfam
      exact Option.some.inj hfam
    | large type' buffer => cases hb
    | map m => cases hb
  | large type buffer => cases ha
  | map m => cases ha

theorem length_of_case (hb : b.isSimple = true)
    (hbits : unpackTypeLength a.mType = unpackTypeLength b.mType) (ha : a.caseValue = some x) :
    a.dataBytes.length = b.dataBytes.length := by
  cases a with
  | small type data =>
    obtain ⟨type', data', rfl⟩ := small_of_length hb hbits
    rw [length_dataBytes_small, length_dataBytes_small]
    exact hbits
  | large type buffer => cases ha
  | map m => cases ha

theorem IsOrder.decided (h : IsOrder compareFloat s) (hf : ∀ v ∈ s, v.isFloating = false)
    (ha : a ∈ s) (hb : b ∈ s) (hsimple : a.isSimple = true) (hfam : a.family = b.family) :
    Decided a b := by
  have hb' : b.isSimple = true := isSimple_of_family hfam ▸ hsimple
  -- the type words have one code; what follows depends on whether they have one length
  have hlex := @lexicalCompare_simple compareFloat a b hsimple hfam
  by_cases hbits : unpackTypeLength a.mType = unpackTypeLength b.mType
  swap
  · rw [if_neg hbits] at hlex
    exact decided_of_bytes h ha hb hlex fun htype => absurd (by rw [htype]) hbits
  rw [if_pos hbits] at hlex
  cases hcase : a.caseValue with
  | none =>
    rw [lexicalSwitch_none (hf a ha) hcase hsimple hb' hbits] at hlex
    by_cases hfol : followsBuffer a.mType
    · rw [if_pos hfol] at hlex
      exact absurd hlex (h.ne_none ha hb)
    · rw [if_neg hfol] at hlex
      exact decided_of_bytes h ha hb hlex fun _ => hfol
  | some x =>
    by_cases htype : a.mType = b.mType
    · exact .inl ⟨by rw [hcase]; rfl, htype⟩
    -- the other way round there is no case, and data of one length is not told apart
    have hcase' : b.caseValue = none := by
      cases hy : b.caseValue with
      | none => rfl
      | some y => exact absurd (mType_of_cases hfam hbits hcase hy) htype
    have hlex' := @lexicalCompare_simple compareFloat b a hb' hfam.symm
    rw [if_pos hbits.symm, lexicalSwitch_none (hf b hb) hcase' hb' hsimple hbits.symm] at hlex'
    by_cases hfol : followsBuffer b.mType
    · rw [if_pos hfol] at hlex'
      exact absurd hlex' (h.ne_none hb ha)
    rw [if_neg hfol] at hlex'
    rcases decided_of_bytes h hb ha hlex' fun _ => hfol with hd | hd
    · rw [hcase'] at hd
      exact absurd hd.1 (by decide)
    · exact absurd (hd.2 (length_of_case hb' hbits hcase).symm).1.symm htype

theorem IsOrder.allDecided (h : IsOrder compareFloat s) (hf : ∀ v ∈ s, v.isFloating = false) :
    AllDecided s := by
  refine ⟨fun a ha b hb => h.decided hf ha hb, ?_⟩
  rintro a ha b hb c hc hsimple hfam hca hlen ⟨hbc, hca'⟩
  have hab : NotAfter compareFloat a b := by
    refine ⟨_, lexicalCompare_rank hsimple hfam (hf a ha) (h.decided hf ha hb hsimple hfam), ?_⟩
    unfold rank
    rw [cmpCode_cons, show cmpInt a.dataBytes.length b.dataBytes.length = .lt from if_pos (by omega)]
    rfl
  have hcb : b.family ≠ c.family := fun he => hca (hfam.trans he).symm
  have hbc' : NotAfter compareFloat b c :=
    ⟨_, lexicalCompare_apart hcb, isLE_cmpInt.2 (by omega)⟩
  obtain ⟨o, ho, hle⟩ := h.trans a ha b hb c hc hab hbc'
  rw [lexicalCompare_apart (Ne.symm hca)] at ho
  obtain ⟨⟩ := ho
  rw [isLE_cmpInt] at hle
  omega

/-- **When `LexicalCompare` is an order.** Of two values of one type code either a case of the
switch reads the numbers, or the bytes of the one start with those of the other. -/
theorem lexicalCompare_isOrder_iff (compareFloat : BitVec 32 → BitVec 32 → Ordering)
    (s : Set SValue) (hf : ∀ v ∈ s, v.isFloating = false) :
    IsOrder compareFloat s ↔ AllDecided s := by
  constructor
  · intro h
    exact h.allDecided hf
  · intro h
    exact h.isOrder hf

/-- Two numbers, and a string. -/
theorem lexicalCompare_isOrder_three :
    IsOrder (fun _ _ => .eq) {int32 5, int32 (-3), ofBytes stringType [97, 0]} := by
  refine (lexicalCompare_isOrder_iff _ _ ?_).2 ⟨?_, ?_⟩
  · rintro v (rfl | rfl | rfl) <;> decide
  · rintro a (rfl | rfl | rfl) b (rfl | rfl | rfl) - hfam
    all_goals first
      | exact absurd hfam (by decide)
      | exact .inl (by decide)
      | exact .inr ⟨.inl (prefix_refl _), fun _ => by decide⟩
  · rintro a (rfl | rfl | rfl) b (rfl | rfl | rfl) c - - hfam -
    all_goals first
      | exact absurd hfam (by decide)
      | exact fun hlt => absurd hlt (by decide)

/-- Two 64-bit numbers are not told apart. -/
theorem lexicalCompare_not_isOrder : ¬ ∀ (compareFloat : BitVec 32 → BitVec 32 → Ordering)
    (a b c : SValue), (∀ v ∈ ({a, b, c} : Set SValue),
      v.isNormal = true ∧ v.isErrorFree = true ∧ v.isFloating = false) →
        IsOrder compareFloat {a, b, c} := by
  intro h
  have horder := h (fun _ _ => .eq) (int64 1) (int64 2) (int64 2) (by
    rintro v (rfl | rfl | rfl) <;> decide)
  exact absurd (horder.equal (int64 1) (.inl rfl) (int64 2) (.inr (.inl rfl)) (by decide))
    (by decide)

end OpenBinder.SValue
