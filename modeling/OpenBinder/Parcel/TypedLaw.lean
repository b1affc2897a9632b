import OpenBinder.Parcel.ArchiveLaw
import OpenBinder.Parcel.Typed

/-!
# Typed data there and back

* `Wrote`: what a write leaves in front of the position, wherever in the parcel that is. What
  comes back with a result wrote its bytes, also where a binder has made the parcel longer.
* `Item`: a type code with a pointer. `Item.bytes` is what it is on the wire, and
  `Item.Marshals` says which items the three switches agree on.
* `typed_roundTrip_iff`: a list of items that `WriteTypedData` accepts is read back as it was
  written, each item from exactly its bytes and with its `TypedDataSize`, exactly when all of them
  marshal. A `double` is written as one and read as a large `float`; points and rectangles have
  no size; a `NULL` pointer to a binder is half as long as what is read for it.
-/

namespace OpenBinder

open Lib List

namespace SParcel

/-! ### Writing in place -/

variable {p q r : SParcel} {bytes : List Byte}

/-- The position is in the parcel. -/
structure InBounds (p : SParcel) : Prop where
  pos_nonneg : 0 ≤ p.pos
  pos_le : p.pos ≤ p.length

/-- **What a write leaves in front of the position.** -/
structure Wrote (p : SParcel) (bytes : List Byte) (q : SParcel) : Prop where
  pos : q.pos = p.pos + bytes.length
  pos_le : q.pos ≤ q.length
  data : q.data.take q.pos.toNat = p.data.take p.pos.toNat ++ bytes

theorem InBounds.refl (h : p.InBounds) : p.Wrote [] p :=
  ⟨by rw [length_nil]; exact (add_zero _).symm, h.pos_le, (append_nil _).symm⟩

theorem Wrote.inBounds (h : p.InBounds) (hw : p.Wrote bytes q) : q.InBounds := by
  have h0 := h.pos_nonneg
  have hpos := hw.pos
  exact ⟨by omega, hw.pos_le⟩

theorem Wrote.trans {a b : List Byte} (h : p.Wrote a q) (h' : q.Wrote b r) : p.Wrote (a ++ b) r := by
  refine ⟨?_, h'.pos_le, ?_⟩
  · rw [h'.pos, h.pos, length_append]
    push_cast
    ring
  · rw [h'.data, h.data, append_assoc]

theorem InBounds.put (h : p.InBounds) (bytes : List Byte) (avail : ℤ) :
    p.Wrote bytes (p.put bytes avail) := by
  have h0 := h.pos_nonneg
  have hle := h.pos_le
  have htake : (p.data.take p.pos.toNat).length = p.pos.toNat := by
    unfold length at hle
    rw [length_take]
    omega
  refine ⟨rfl, ?_, ?_⟩
  · unfold SParcel.put length
    simp only [length_append, htake]
    omega
  · have hpos : (p.pos + (bytes.length : ℤ)).toNat = (p.data.take p.pos.toNat ++ bytes).length := by
      rw [length_append, htake]
      omega
    unfold SParcel.put
    rw [hpos, take_left]

theorem Wrote.of_extended (h : p.InBounds) {zeros : List Byte} {avail : ℤ}
    (hw : Wrote { p with data := p.data ++ zeros, avail := avail } bytes q) : p.Wrote bytes q := by
  have hle := h.pos_le
  refine ⟨hw.pos, hw.pos_le, ?_⟩
  have hdata := hw.data
  unfold length at hle
  dsimp only at hdata
  rw [take_append_of_le_length (by omega)] at hdata
  exact hdata

theorem Wrote.write (h : p.InBounds) {n : ℤ} (hw : p.write bytes = .ok (n, q)) :
    p.Wrote bytes q := by
  unfold SParcel.write at hw
  dsimp only at hw
  split at hw
  · split at hw
    · obtain ⟨⟩ := hw
      exact h.put bytes p.avail
    · cases hw
  · obtain ⟨⟩ := hw
    exact h.put bytes _

/-- **`WriteBinder`** writes the words of the binder, though it may make the parcel longer. -/
theorem InBounds.writeBinder (h : p.InBounds) (type binder cookie : BitVec 32) :
    ∃ q, p.writeBinder type binder cookie = .ok (16, q) ∧
      p.Wrote (wordBytes (packLargeType (unpackTypeCode type)) ++ wordBytes 8 ++
        (wordBytes binder ++ wordBytes cookie)) q := by
  have h0 := h.pos_nonneg
  have hle := h.pos_le
  unfold SParcel.writeBinder
  rw [← append_assoc]
  generalize wordBytes (packLargeType (unpackTypeCode type)) ++ wordBytes 8 ++ wordBytes binder ++
    wordBytes cookie = words
  have hput : ∀ acquired, Wrote p words { (if p.pos + 16 > p.avail then
      { p with
        data := p.data ++ List.replicate ((p.grown (p.pos + 16)).toNat - p.data.length) 0
        avail := p.grown (p.pos + 16) }
      else p).put words (if p.pos + 16 > p.avail then
      { p with
        data := p.data ++ List.replicate ((p.grown (p.pos + 16)).toNat - p.data.length) 0
        avail := p.grown (p.pos + 16) }
      else p).avail with acquired := acquired } := by
    intro acquired
    split
    · refine Wrote.of_extended h (?_ : Wrote { p with
        data := p.data ++ List.replicate ((p.grown (p.pos + 16)).toNat - p.data.length) 0
        avail := p.grown (p.pos + 16) } words _)
      have hb : InBounds { p with
          data := p.data ++ List.replicate ((p.grown (p.pos + 16)).toNat - p.data.length) 0
          avail := p.grown (p.pos + 16) } := by
        refine ⟨h0, ?_⟩
        unfold length at hle ⊢
        dsimp only
        rw [length_append]
        omega
      have hw := hb.put words (p.grown (p.pos + 16))
      exact ⟨hw.pos, hw.pos_le, hw.data⟩
    · have hw := h.put words p.avail
      exact ⟨hw.pos, hw.pos_le, hw.data⟩
  by_cases hb : binder = 0
  · rw [if_pos hb]
    exact ⟨_, rfl, hput _⟩
  · rw [if_neg hb]
    exact ⟨_, rfl, hput _⟩

theorem writes : Writer InBounds Wrote True where
  pos_nonneg := fun h => h.pos_nonneg
  refl := fun h => h.refl
  ready := fun h hw => hw.inBounds h
  pos := fun _ hw => hw.pos
  trans := fun h h' => h.trans h'
  write := by
    intro p bytes h hlen
    have h0 := h.pos_nonneg
    have hok : ∃ q, p.write bytes = .ok (bytes.length, q) := by
      unfold SParcel.write
      dsimp only
      rw [ssize_of_lt (by omega) hlen]
      split
      · exact ⟨_, rfl⟩
      · exact ⟨_, rfl⟩
    obtain ⟨q, hq⟩ := hok
    exact ⟨q, hq, Wrote.write h hq⟩
  writeBinder := fun type binder cookie _ h _ => h.writeBinder type binder cookie

theorem Wrote.writeSmallData (h : p.InBounds) {type data : BitVec 32} {n : ℤ}
    (hw : p.writeSmallData type data = .ok (n, q)) : p.Wrote (wordBytes type ++ wordBytes data) q :=
  Wrote.write h hw

theorem Wrote.writePadded (h : p.InBounds) {data : List Byte} {n : ℤ}
    (hw : p.writePadded data = .ok (n, q)) : p.Wrote (padded data) q := by
  unfold SParcel.writePadded at hw
  dsimp only at hw
  split at hw
  · split at hw
    · obtain ⟨⟩ := hw
      exact h.put _ p.avail
    · cases hw
  · obtain ⟨⟨n₁, p₁⟩, h1, hw⟩ := bind_eq_ok.1 hw
    obtain ⟨⟨n₂, p₂⟩, h2, hw⟩ := bind_eq_ok.1 hw
    obtain ⟨⟩ := hw
    have hw1 := Wrote.write h h1
    exact hw1.trans (Wrote.write (hw1.inBounds h) h2)

theorem Wrote.writeLargeData (h : p.InBounds) {type : BitVec 32} {data : List Byte} {n : ℤ}
    (hw : p.writeLargeData type data = .ok (n, q)) :
    p.Wrote (wordBytes type ++ wordBytes (BitVec.ofNat 32 data.length) ++ padded data) q := by
  obtain ⟨⟨n₁, p₁⟩, h1, hw⟩ := bind_eq_ok.1 hw
  obtain ⟨⟨n₂, p₂⟩, h2, hw⟩ := bind_eq_ok.1 hw
  obtain ⟨⟩ := hw
  have hw1 := Wrote.writeSmallData h h1
  exact hw1.trans (Wrote.writePadded (hw1.inBounds h) h2)

end SParcel

namespace SValue

open SParcel

theorem errorsNegative_map {m : BValueMap SValue} : (map m).errorsNegative = true ↔
    ∀ p ∈ m.maps, p.1.errorsNegative = true ∧ p.2.errorsNegative = true := by
  obtain ⟨avail, dataSize, maps⟩ := m
  rw [errorsNegative]
  induction maps with
  | nil => simp [allErrorsNegative]
  | cons p l ih =>
    simp [allErrorsNegative, ih]

/-- **What `Archive` accepts** has no errors, and its bytes are written. -/
theorem archive_wrote (cookie : BitVec 32 → BitVec 32 → BitVec 32) :
    ∀ (v : SValue) {p q : SParcel} {n : ℤ}, v.errorsNegative = true → p.InBounds →
      archive (flat cookie) v p = .ok (n, q) → 0 ≤ n →
      v.isErrorFree = true ∧ p.Wrote (v.flattened (flat cookie)).wireBytes q := by
  intro v
  induction v using SValue.ind with
  | small type data =>
    intro p q n he h hw h0
    rw [archive] at hw
    by_cases herr : (small type data).isError = true
    · rw [if_pos herr] at hw
      obtain ⟨⟩ := hw
      have : (small type data).errorCheck < 0 := by
        simpa [errorsNegative, herr] using he
      omega
    rw [if_neg herr] at hw
    refine ⟨by simpa [isErrorFree] using herr, ?_⟩
    by_cases hobj : isSmallObject type.1 = true
    · rw [show (small type data).isObject = true from hobj, if_pos rfl] at hw
      obtain ⟨q', hq', hwrote⟩ := h.writeBinder type.1 (flat cookie type.1 data).1
        (flat cookie type.1 data).2
      rw [hw] at hq'
      obtain ⟨⟩ := hq'
      rw [wireBytes_object _ hobj]
      exact hwrote
    · rw [show (small type data).isObject = isSmallObject type.1 from rfl, if_neg hobj] at hw
      rw [flattened, if_neg hobj, wireBytes]
      exact Wrote.writeSmallData h hw
  | large type buffer =>
    intro p q n _ h hw _
    rw [archive] at hw
    rw [flattened, wireBytes]
    exact ⟨isErrorFree_large _ _, Wrote.writeLargeData h hw⟩
  | map m ih =>
    intro p q n he h hw h0
    have hm := errorsNegative_map.1 he
    -- the loop: what comes back with a result wrote all pairs
    have hloop : ∀ (l : List Pair), (∀ x ∈ l, x ∈ m.maps) → ∀ {p q : SParcel} {total n : ℤ},
        p.InBounds → archiveMaps (flat cookie) l total p = .ok (n, q) → 0 ≤ n →
        (∀ x ∈ l, x.1.isErrorFree = true ∧ x.2.isErrorFree = true) ∧
          p.Wrote (wireMaps (flattenedMaps (flat cookie) l)) q := by
      intro l
      induction l with
      | nil =>
        intro _ p q total n h hw _
        rw [archiveMaps] at hw
        obtain ⟨⟩ := hw
        rw [flattenedMaps, wireMaps]
        exact ⟨fun x hx => absurd hx not_mem_nil, h.refl⟩
      | cons x l ihl =>
        intro hsub p q total n h hw h0
        have hmem := hsub _ mem_cons_self
        rw [archiveMaps] at hw
        obtain ⟨⟨sizeK, p₁⟩, h1, hw⟩ := bind_eq_ok.1 hw
        dsimp only at hw
        by_cases hk : sizeK < 0
        · rw [if_pos hk] at hw
          obtain ⟨⟩ := hw
          omega
        rw [if_neg hk] at hw
        obtain ⟨⟨sizeV, p₂⟩, h2, hw⟩ := bind_eq_ok.1 hw
        by_cases hv : sizeV < 0
        · rw [if_pos hv] at hw
          obtain ⟨⟩ := hw
          omega
        rw [if_neg hv] at hw
        obtain ⟨hek, hw1⟩ := (ih _ hmem).1 (hm _ hmem).1 h h1 (by omega)
        have hb1 := hw1.inBounds h
        obtain ⟨hev, hw2⟩ := (ih _ hmem).2 (hm _ hmem).2 hb1 h2 (by omega)
        obtain ⟨hel, hw3⟩ := ihl (fun x hx => hsub x (mem_cons_of_mem _ hx))
          (hw2.inBounds hb1) hw h0
        rw [flattenedMaps, wireMaps]
        refine ⟨fun x hx => ?_, hw1.trans (hw2.trans hw3)⟩
        rcases mem_cons.1 hx with rfl | hx
        · exact ⟨hek, hev⟩
        · exact hel x hx
    obtain ⟨avail, dataSize, maps⟩ := m
    rw [archive] at hw
    obtain ⟨⟨n₁, p₁⟩, h1, hw⟩ := bind_eq_ok.1 hw
    obtain ⟨⟨err, p₂⟩, h2, hw⟩ := bind_eq_ok.1 hw
    obtain ⟨hn, rfl⟩ := Prod.mk.inj (Except.ok.inj hw)
    have herr : 0 ≤ err := by
      by_contra hneg
      rw [if_neg hneg] at hn
      omega
    have hw1 := Wrote.write h h1
    obtain ⟨hfree, hw2⟩ := hloop maps (fun _ hx => hx) (hw1.inBounds h) h2 herr
    refine ⟨isErrorFree_map.2 hfree, ?_⟩
    rw [flattened_map, wireBytes_map, mapHeader_flattened]
    exact hw1.trans hw2

end SValue

/-! ### Items -/

/-- A type code with a pointer. -/
abbrev Item := (type : DataType) × Option type.Value

/-- What an item is on the wire. -/
inductive Form where
  | header (type data : BitVec 32)
  | block (type : BitVec 32) (data : List Byte)
  | binder (o : FlatBinder)
  | value (v : SValue)
  | refused

namespace Item

open SParcel

section Form

variable (cookie : BitVec 32 → BitVec 32 → BitVec 32) (behind : List Byte → BitVec 32)

/-- A number. -/
def numberForm (value : BitVec 32) : Form := .header (packSmallType int32Type 4) value

/-- A string. -/
def stringForm (text : List Byte) : Form :=
  if text.length + 1 ≤ typeLengthMax then
    .header (packSmallType stringType (text.length + 1))
      (wordOf ((text ++ [0] ++ wordBytes (behind text)).take 4))
  else .block (packLargeType stringType) (text ++ [0])

/-- The form of an item. -/
def form : Item → Form
  | ⟨.undefined, _⟩ => .header (packSmallType undefinedType 0) 0
  | ⟨_, none⟩ => .header (packSmallType nullType 0) 0
  | ⟨.bool, some value⟩ => numberForm (if value then 1 else 0)
  | ⟨.float, some value⟩ => .header (packSmallType floatType 4) value
  | ⟨.double, some value⟩ => .block (packLargeType doubleType) value.1
  | ⟨.char, some value⟩ => numberForm (value.signExtend 32)
  | ⟨.int8, some value⟩ => numberForm (value.signExtend 32)
  | ⟨.uint8, some value⟩ => numberForm (value.setWidth 32)
  | ⟨.int16, some value⟩ => numberForm (value.signExtend 32)
  | ⟨.uint16, some value⟩ => numberForm (value.setWidth 32)
  | ⟨.int32, some value⟩ => numberForm value
  | ⟨.ssizeT, some value⟩ => numberForm value
  | ⟨.uint32, some value⟩ => numberForm value
  | ⟨.sizeT, some value⟩ => numberForm value
  | ⟨.wchar, some value⟩ => numberForm value
  | ⟨.int64, some value⟩ => .block (packLargeType int64Type) value.1
  | ⟨.uint64, some value⟩ => .block (packLargeType int64Type) value.1
  | ⟨.nsecs, some value⟩ => .block (packLargeType int64Type) value.1
  | ⟨.bigtime, some value⟩ => .block (packLargeType int64Type) value.1
  | ⟨.offT, some value⟩ => .block (packLargeType int64Type) value.1
  | ⟨.binder, some value⟩ => .binder value.1
  | ⟨.binderWeak, some value⟩ => .binder value.1
  | ⟨.value, some value⟩ => .value value
  | ⟨.constchar, some value⟩ => stringForm behind value
  | ⟨.string, some value⟩ => stringForm behind value
  | ⟨.point, some value⟩ => .block (packLargeType pointType) value.1
  | ⟨.rect, some value⟩ => .block (packLargeType rectType) value.1
  | ⟨.null, some _⟩ => .header (packSmallType nullType 0) 0
  | ⟨.other, some _⟩ => .refused

end Form

end Item

namespace Form

open SParcel

variable (cookie : BitVec 32 → BitVec 32 → BitVec 32)

/-- The bytes of a form. -/
def bytes : Form → List Byte
  | header type data => wordBytes type ++ wordBytes data
  | block type data => wordBytes type ++ wordBytes (BitVec.ofNat 32 data.length) ++ padded data
  | binder o => wordBytes (packLargeType (unpackTypeCode o.type)) ++ wordBytes 8 ++
      (wordBytes o.binder ++ wordBytes o.cookie)
  | value v => (v.flattened (flat cookie)).wireBytes
  | refused => []

/-- Writing a form. -/
def write : Form → SParcel → Except Fault (ℤ × SParcel)
  | header type data, p => p.writeSmallData type data
  | block type data, p => p.writeLargeData type data
  | binder o, p => p.writeBinder o.type o.binder o.cookie
  | value v, p => v.archive (flat cookie) p
  | refused, p => .ok (badType, p)

variable {cookie} {p q : SParcel} {n : ℤ}

/-- A value as it can be built. -/
def Built : Form → Prop
  | value v => v.Built
  | _ => True

section

variable {f : Form} (hb : f.Built) (h : p.InBounds) (hw : f.write cookie p = .ok (n, q))
  (h0 : 0 ≤ n)
include hb h hw h0

theorem wrote : (∀ v, f = .value v → v.isErrorFree = true) ∧ f ≠ .refused ∧
      p.Wrote (f.bytes cookie) q := by
  cases f with
  | header type data =>
    exact ⟨fun _ hv => (by cases hv), fun hr => (by cases hr), Wrote.writeSmallData h hw⟩
  | block type data =>
    exact ⟨fun _ hv => (by cases hv), fun hr => (by cases hr), Wrote.writeLargeData h hw⟩
  | binder o =>
    obtain ⟨q', hq', hwrote⟩ := h.writeBinder o.type o.binder o.cookie
    rw [show p.writeBinder o.type o.binder o.cookie = .ok (n, q) from hw] at hq'
    obtain ⟨⟩ := hq'
    exact ⟨fun _ hv => (by cases hv), fun hr => (by cases hr), hwrote⟩
  | value v =>
    obtain ⟨hfree, hwrote⟩ := SValue.archive_wrote cookie v hb.negative h hw h0
    exact ⟨fun _ hv => (by cases hv; exact hfree), fun hr => (by cases hr), hwrote⟩
  | refused =>
    obtain ⟨⟩ := hw
    exact absurd h0 (by decide)

/-- **The result** of writing a form that fits is the number of its bytes. -/
theorem result (hlen : p.pos + (f.bytes cookie).length < 2 ^ 31) : n = (f.bytes cookie).length := by
  obtain ⟨hfree, hne, -⟩ := wrote hb h hw h0
  have hforward : ∃ q, f.write cookie p = .ok (((f.bytes cookie).length : ℕ), q) := by
    cases f with
    | header type data =>
      obtain ⟨q, hq, -⟩ := writes.writeSmallData h type data hlen
      exact ⟨q, hq⟩
    | block type data =>
      have hbytes : ((bytes cookie (.block type data)).length : ℤ) = 8 + (padded data).length := by
        unfold bytes
        rw [length_append]
        rfl
      rw [hbytes] at hlen ⊢
      obtain ⟨q, hq, -⟩ := writes.writeLargeData h type hlen
      exact ⟨q, hq⟩
    | binder o =>
      obtain ⟨q, hq, -⟩ := h.writeBinder o.type o.binder o.cookie
      exact ⟨q, hq⟩
    | value v =>
      obtain ⟨q, hq, -⟩ := @SValue.archive_writes (flat cookie) _ _ _ writes v p (hfree v rfl)
        (.inl trivial) h hlen
      exact ⟨q, hq⟩
    | refused => exact absurd rfl hne
  obtain ⟨q', hq'⟩ := hforward
  rw [hw] at hq'
  exact (Prod.mk.inj (Except.ok.inj hq')).1

end

end Form

namespace Item

open SParcel

variable {cookie : BitVec 32 → BitVec 32 → BitVec 32} {behind : List Byte → BitVec 32}

theorem writeTypeHeaderAndData_large {n : ℕ} (hn : typeLengthMax < n) (type : BitVec 32)
    (value : Raw n) (next : BitVec 32) (p : SParcel) :
    p.writeTypeHeaderAndData type value.1 next = p.writeLargeData (packLargeType type) value.1 := by
  unfold SParcel.writeTypeHeaderAndData
  rw [if_neg (by rw [value.2]; omega)]

theorem writeStringData_eq (text : List Byte) (p : SParcel) :
    p.writeStringData behind text = (stringForm behind text).write cookie p := by
  unfold SParcel.writeStringData SParcel.writeTypeHeaderAndData stringForm
  rw [length_append, length_singleton]
  split
  · rfl
  · rfl

theorem writeTypedData_eq (item : Item) (p : SParcel) :
    writeTypedData cookie behind item.1 item.2 p = (item.form behind).write cookie p := by
  obtain ⟨type, value⟩ := item
  have h8 : ∀ (t : BitVec 32) (v : Raw 8), p.writeTypeHeaderAndData t v.1 0 =
      (Form.block (packLargeType t) v.1).write cookie p := fun t v =>
    writeTypeHeaderAndData_large (by decide) t v 0 p
  have h16 : ∀ (t : BitVec 32) (v : Raw 16), p.writeTypeHeaderAndData t v.1 0 =
      (Form.block (packLargeType t) v.1).write cookie p := fun t v =>
    writeTypeHeaderAndData_large (by decide) t v 0 p
  cases value with
  | none => cases type <;> rfl
  | some value =>
    cases type with
    | double | int64 | uint64 | nsecs | bigtime | offT | point => exact h8 _ value
    | rect => exact h16 _ value
    | constchar | string => exact writeStringData_eq value p
    | _ => rfl

end Item

namespace SParcel

/-! ### Reading -/

variable {p q : SParcel} {rest : List Byte}

theorem At.of_moved {a b : List Byte} (h : p.At (a ++ b) rest) (hdata : q.data = p.data)
    (hpos : q.pos = p.pos + a.length) : q.At b rest := by
  have h' := h.skip
  have hlen : q.length = (p.skip a.length).length := congrArg (fun l => (List.length l : ℤ)) hdata
  refine ⟨by rw [hpos]; exact h'.pos_nonneg, ?_, ?_, by rw [hpos, hdata]; exact h'.drop_eq⟩
  · rw [hpos, hlen]
    exact h'.pos_le
  · rw [hlen]
    exact h'.length_lt

theorem Wrote.at {bytes : List Byte} (hw : p.Wrote bytes q) (h : p.InBounds)
    (hlt : q.length < 2 ^ 31) :
    At { q with pos := p.pos } bytes (q.data.drop q.pos.toNat) := by
  have h0 := h.pos_nonneg
  have hle := h.pos_le
  have hpos := hw.pos
  have hqle := hw.pos_le
  refine ⟨h0, ?_, hlt, ?_⟩
  · show p.pos ≤ q.length
    omega
  · -- what is in front of the old position is not touched
    have hdata : q.data = q.data.take q.pos.toNat ++ q.data.drop q.pos.toNat :=
      (take_append_drop _ _).symm
    have htake : (p.data.take p.pos.toNat).length = p.pos.toNat := by
      unfold SParcel.length at hle
      rw [length_take]
      omega
    rw [hw.data, append_assoc] at hdata
    have hdrop := congrArg (List.drop p.pos.toNat) hdata
    rw [drop_left' htake] at hdrop
    exact hdrop

/-- What a read at the bytes of an item comes back with. -/
def ReadsTo {α : Type} (p : SParcel) (n : ℕ) (status : ℤ) (stored : Option α)
    (result : Except Fault (TypedResult α)) : Prop :=
  ∃ q, result = .ok (status, stored, q) ∧ q.data = p.data ∧ q.pos = p.pos + n

theorem ReadsTo.skip {α : Type} {n : ℕ} {status : ℤ} {stored : Option α} :
    p.ReadsTo n status stored (.ok (status, stored, p.skip n)) := ⟨_, rfl, rfl, rfl⟩

variable {htype : BitVec 32} {o : FlatBinder}

theorem At.readWithHeader {hdata : BitVec 32} (h : p.At (wordBytes htype ++ wordBytes hdata) rest)
    (hne : htype ≠ packSmallType nullType 0) (type : DataType) :
    SParcel.readWithHeader type p = readHeaderData type htype hdata (p.skip 8) := by
  unfold SParcel.readWithHeader
  rw [h.readSmallData, ok_bind]
  dsimp only
  rw [if_pos rfl, if_neg hne]

theorem At.readWithHeader_null (h : p.At (wordBytes (packSmallType nullType 0) ++ wordBytes 0) rest)
    (type : DataType) : SParcel.readWithHeader type p = .ok (readNullValue, none, p.skip 8) := by
  unfold SParcel.readWithHeader
  rw [h.readSmallData, ok_bind]
  dsimp only
  rw [if_pos rfl, if_pos rfl]
  rfl

theorem At.readPadded {data : List Byte} (h : p.At (padded data) rest) :
    p.readPadded data.length data.length =
      .ok (data, (padded data).length, p.skip (padded data).length) := by
  have hl := h.length_eq
  have h0 := h.pos_nonneg
  have hlt := h.length_lt
  have hle := length_le_padded data
  have hp : (padded data).length = valueDataAlign data.length := padded_length (by omega)
  unfold SParcel.readPadded
  dsimp only
  rw [← hp, ssize_of_lt (by omega) (by omega), if_pos (by omega), if_pos ⟨h0, by omega, le_refl _⟩,
    h.drop_eq, padded, append_assoc, take_left]
  rfl

theorem padded_of_aligned {data : List Byte} (h : valueDataAlign data.length = data.length) :
    padded data = data := by
  unfold padded
  rw [h, Nat.sub_self, replicate_zero, append_nil]

theorem At.block {type : BitVec 32} {data : List Byte}
    (h : p.At (wordBytes type ++ wordBytes (BitVec.ofNat 32 data.length) ++ padded data) rest)
    (halign : valueDataAlign data.length = data.length) :
    p.At (wordBytes type ++ wordBytes (BitVec.ofNat 32 data.length)) (data ++ rest) ∧
      (p.skip 8).At data rest := by
  have h1 := h.left
  have h2 := h.skip
  rw [padded_of_aligned halign] at h1 h2
  exact ⟨h1, h2⟩

theorem At.readRaw {n : ℕ} {value : Raw n} (h : p.At value.1 rest) :
    p.read n n = .ok (value.1, (n : ℤ), p.skip n) := by
  have hr := @At.read p value.1 rest h n (le_of_eq value.2)
  rwa [value.2] at hr

theorem At.readAfterHeader {expected : BitVec 32} {value : Raw 8} (h : p.At value.1 rest) :
    SParcel.readAfterHeader expected expected p = .ok (0, some value, p.skip 8) := by
  unfold SParcel.readAfterHeader
  rw [if_pos rfl, h.readRaw, ok_bind]
  dsimp only
  rw [dif_pos value.2]
  rfl

theorem At.readPointData {value : Raw 8} (h : p.At value.1 rest) :
    SParcel.readPointData (packLargeType pointType) p = .ok (0, some value, p.skip 8) := by
  unfold SParcel.readPointData
  rw [if_pos rfl, h.readRaw, ok_bind]
  dsimp only
  rw [dif_pos ⟨rfl, value.2⟩]
  rfl

theorem At.readRectData {value : Raw 16} (h : p.At value.1 rest) :
    SParcel.readRectData (packLargeType rectType) p = .ok (0, some value, p.skip 16) := by
  unfold SParcel.readRectData
  rw [if_pos rfl, h.readRaw, ok_bind]
  dsimp only
  rw [dif_pos value.2]
  rfl

theorem readStringData_small {text : List Byte} (hlen : text.length + 1 ≤ typeLengthMax)
    (behind : BitVec 32) (p : SParcel) :
    readStringData (packSmallType stringType (text.length + 1))
      (wordOf ((text ++ [0] ++ wordBytes behind).take 4)) p = .ok (0, some text, p) := by
  have h4 : ((text ++ [0] ++ wordBytes behind).take 4).length = 4 := by
    simp only [length_take, length_append, wordBytes_length, length_singleton]
    omega
  have htext : (text ++ [0] ++ wordBytes behind).take text.length = text := by
    rw [append_assoc, take_left]
  unfold readStringData
  rw [unpackTypeCode_packSmallType _ hlen, if_pos (by decide)]
  rw [unpackTypeLength_packSmallType _ hlen, if_pos hlen, if_neg (Nat.succ_ne_zero _),
    wordBytes_wordOf h4, take_take, Nat.add_sub_cancel,
    Nat.min_eq_left (by unfold typeLengthMax at hlen; omega), htext]

theorem At.readStringData {text : List Byte} (h : p.At (padded (text ++ [0])) rest) :
    SParcel.readStringData (packLargeType stringType) (BitVec.ofNat 32 (text ++ [0]).length) p =
      .ok (0, some text, p.skip (padded (text ++ [0])).length) := by
  have hl := h.length_eq
  have h0 := h.pos_nonneg
  have hlt := h.length_lt
  have hle := length_le_padded (text ++ [0])
  have hd : (BitVec.ofNat 32 (text ++ [0]).length).toNat = (text ++ [0]).length := by
    rw [BitVec.toNat_ofNat, Nat.mod_eq_of_lt (by omega)]
  have htext : (text ++ [0]).take ((text ++ [0]).length - 1) = text := by
    rw [length_append, length_singleton, Nat.add_sub_cancel, take_left]
  unfold SParcel.readStringData
  rw [unpackTypeCode_packLargeType, if_pos (by decide)]
  dsimp only
  rw [unpackTypeLength_packLargeType, if_neg (by decide), hd, h.readPadded, ok_bind]
  dsimp only
  rw [if_pos (by rw [ssize_of_lt (by omega) (by omega)]; exact_mod_cast hle), htext]
  rfl

theorem At.readFlatBinderObject
    (h : p.At (wordBytes (packLargeType (unpackTypeCode o.type)) ++ wordBytes 8 ++
      (wordBytes o.binder ++ wordBytes o.cookie)) rest) :
    p.readFlatBinderObject =
      .ok (⟨packLargeType (unpackTypeCode o.type), o.binder, o.cookie⟩, 16, p.skip 16) := by
  have hr := @At.read p _ rest h 16 (le_refl _)
  unfold SParcel.readFlatBinderObject
  rw [show p.read 16 16 = _ from hr, ok_bind]
  dsimp only
  have h1 : (wordBytes (packLargeType (unpackTypeCode o.type)) ++ wordBytes 8 ++
      (wordBytes o.binder ++ wordBytes o.cookie)).take 4 =
        wordBytes (packLargeType (unpackTypeCode o.type)) := rfl
  have h2 : ((wordBytes (packLargeType (unpackTypeCode o.type)) ++ wordBytes 8 ++
      (wordBytes o.binder ++ wordBytes o.cookie)).drop 8).take 4 = wordBytes o.binder := rfl
  have h3 : (wordBytes (packLargeType (unpackTypeCode o.type)) ++ wordBytes 8 ++
      (wordBytes o.binder ++ wordBytes o.cookie)).drop 12 = wordBytes o.cookie := rfl
  rw [h1, h2, h3, wordOf_wordBytes, wordOf_wordBytes, wordOf_wordBytes]
  rfl

theorem isStrong_type (h : o.isStrong = true) :
    packLargeType (unpackTypeCode o.type) = o.type := by
  unfold FlatBinder.isStrong at h
  simp only [Bool.or_eq_true, beq_iff_eq] at h
  rcases h with h | h <;> rw [h] <;> decide

theorem isWeak_type (h : o.isWeak = true) :
    packLargeType (unpackTypeCode o.type) = o.type := by
  unfold FlatBinder.isWeak at h
  simp only [Bool.or_eq_true, beq_iff_eq] at h
  rcases h with ((h | h) | h) | h <;> rw [h] <;> decide

theorem At.readBinderData {accepts : FlatBinder → Bool} (ho : accepts o = true)
    (htype : packLargeType (unpackTypeCode o.type) = o.type)
    (h : p.At (wordBytes (packLargeType (unpackTypeCode o.type)) ++ wordBytes 8 ++
      (wordBytes o.binder ++ wordBytes o.cookie)) rest) :
    SParcel.readBinderData accepts p = .ok (0, some ⟨o, ho⟩, p.skip 16) := by
  unfold SParcel.readBinderData
  rw [h.readFlatBinderObject, ok_bind, htype]
  dsimp only
  rw [if_pos (by decide), dif_pos ho]
  rfl

theorem readBinderData_ne_null {accepts : FlatBinder → Bool} {status : ℤ}
    {stored : Option { o : FlatBinder // accepts o = true }}
    (h : readBinderData accepts p = .ok (status, stored, q)) : status ≠ readNullValue := by
  obtain ⟨⟨o, amt, p₁⟩, -, h⟩ := bind_eq_ok.1 h
  dsimp only at h
  split at h
  · -- what is long enough is a binder or of a bad type
    split at h
    · obtain ⟨⟩ := h
      decide
    · obtain ⟨⟩ := h
      decide
  · obtain ⟨⟩ := h
    decide

theorem At.readValueData {cookie : BitVec 32 → BitVec 32 → BitVec 32} {v : SValue}
    (hs : v.isSound = true) (h : p.At (v.flattened (flat cookie)).wireBytes rest) :
    (v.isUnambiguous = true → ∃ v', p.ReadsTo (v.flattened (flat cookie)).wireSize
        (if v.compare SValue.null = .eq then readNullValue else 0) (some v') (SParcel.readValueData p) ∧
          v'.compare v = .eq) ∧
      ∀ {status : ℤ} {v' : SValue} {q : SParcel}, SParcel.readValueData p = .ok (status, some v', q) →
        v'.compare v = .eq → v.isUnambiguous = true := by
  have hl := h.length_eq
  have h0 := h.pos_nonneg
  have hlt := h.length_lt
  have hw : (v.flattened (flat cookie)).wireBytes.length = (v.flattened (flat cookie)).wireSize := rfl
  have hle : ((v.flattened (flat cookie)).wireSize : ℤ) ≤ p.length := by omega
  have hr := @SValue.unarchiveInternal_readsFlat (flat cookie) (fun _ _ => rfl) v hs
    (p.data.length + 1) (by unfold SParcel.length at hle; omega)
  unfold SParcel.readValueData SValue.unarchive
  constructor
  · intro hu
    obtain ⟨v', hv', hc⟩ := hr.ok h 0x7fffffff (by omega) (by decide) hu
    have hnull : v'.compare SValue.null = .eq ↔ v.compare SValue.null = .eq := by
      rw [SValue.compare_eq_iff, SValue.compare_eq_iff, hc]
    refine ⟨v', ⟨(p.skip (v.flattened (flat cookie)).wireSize).acquireAll v.objects, ?_, rfl, rfl⟩,
      SValue.compare_eq_iff.2 hc⟩
    rw [hv', ok_bind]
    dsimp only
    by_cases hn : v.compare SValue.null = .eq
    · rw [if_pos hn, if_pos ⟨Int.natCast_nonneg _, hnull.2 hn⟩]
      rfl
    · rw [if_neg hn, if_neg (fun hc => hn (hnull.1 hc.2)), if_pos (Int.natCast_nonneg _)]
      rfl
  · intro status v' q hread hc
    obtain ⟨⟨v₁, n, p₁⟩, h1, hread⟩ := bind_eq_ok.1 hread
    obtain ⟨-, hstored⟩ := Prod.mk.inj (Except.ok.inj hread)
    obtain ⟨hv, -⟩ := Prod.mk.inj hstored
    obtain ⟨⟩ := hv
    exact hr.only h 0x7fffffff (by omega) (by decide) h1 (SValue.compare_eq_iff.1 hc)

theorem At.reads_header {type : DataType} {hdata : BitVec 32} {status : ℤ}
    {stored : Option type.Value} (h : p.At (wordBytes htype ++ wordBytes hdata) rest)
    (hne : htype ≠ packSmallType nullType 0)
    (hread : ∀ q, readHeaderData type htype hdata q = .ok (status, stored, q)) :
    p.ReadsTo 8 status stored (SParcel.readWithHeader type p) := by
  rw [h.readWithHeader hne, hread]
  exact ReadsTo.skip

theorem At.reads_block {type : DataType} {n : ℕ} {value : Raw n} {stored : Option type.Value}
    (h : p.At (wordBytes htype ++ wordBytes (BitVec.ofNat 32 value.1.length) ++ padded value.1) rest)
    (halign : valueDataAlign n = n) (hne : htype ≠ packSmallType nullType 0)
    (hread : ∀ q : SParcel, q.At value.1 rest →
      readHeaderData type htype (BitVec.ofNat 32 value.1.length) q = .ok (0, stored, q.skip n)) :
    p.ReadsTo (8 + n) 0 stored (SParcel.readWithHeader type p) := by
  obtain ⟨h1, h2⟩ := h.block (by rw [value.2]; exact halign)
  rw [h1.readWithHeader hne, hread _ h2]
  refine ⟨_, rfl, rfl, ?_⟩
  unfold SParcel.skip
  push_cast
  ring

end SParcel

namespace Item

open SParcel

variable {cookie : BitVec 32 → BitVec 32 → BitVec 32} {behind : List Byte → BitVec 32}

/-! ### Items there and back -/

/-- An item as it can be built. -/
def Built : Item → Prop
  | ⟨.value, some v⟩ => v.Built
  | _ => True

/-- The items whose size `TypedDataSize` knows. -/
def Sized (cookie : BitVec 32 → BitVec 32 → BitVec 32) : Item → Prop
  | ⟨.point, some _⟩ => False
  | ⟨.rect, some _⟩ => False
  | ⟨.value, some v⟩ => (2 : ℤ) ^ 32 ∣ (v.flattened (flat cookie)).staleness
  | _ => True

/-- The items that `ReadTypedData` takes as they are written. -/
def Readable : Item → Prop
  | ⟨.double, some _⟩ => False
  | ⟨.binder, none⟩ => False
  | ⟨.binderWeak, none⟩ => False
  | ⟨.value, some v⟩ => v.isUnambiguous = true
  | _ => True

/-- **The items that the switches agree on.** -/
structure Marshals (cookie : BitVec 32 → BitVec 32 → BitVec 32) (item : Item) : Prop where
  sized : item.Sized cookie
  readable : item.Readable

/-- What reading an item has to come back with. Where there is no pointer, or where no type has
the pointer looked at, nothing is stored that would have to be the same. -/
def Returned : (item : Item) → ℤ → Option item.1.Value → Prop
  | ⟨.undefined, _⟩, status, _ => status = 0
  | ⟨_, none⟩, status, _ => status = readNullValue
  | ⟨.null, some _⟩, status, _ => status = readNullValue
  | ⟨.value, some v⟩, status, stored =>
    status = (if v.compare SValue.null = .eq then readNullValue else 0) ∧
      ∃ v', stored = some v' ∧ v'.compare v = .eq
  | ⟨_, some value⟩, status, stored => status = 0 ∧ stored = some value

variable {item : Item} {p : SParcel} {rest : List Byte}

theorem Built.form (h : item.Built) : (item.form behind).Built := by
  obtain ⟨type, value⟩ := item
  cases value with
  | none => cases type <;> trivial
  | some value =>
    have hstring : ∀ text, (stringForm behind text).Built := by
      intro text
      unfold stringForm
      split <;> trivial
    cases type with
    | value => exact h
    | constchar => exact hstring value
    | string => exact hstring value
    | _ => trivial

theorem length_block {n : ℕ} (t : BitVec 32) (v : Raw n) (halign : valueDataAlign n = n) :
    ((Form.block t v.1).bytes cookie).length = 8 + n := by
  unfold Form.bytes
  dsimp only
  rw [padded_of_aligned (by rw [v.2]; exact halign), length_append, v.2]
  rfl

theorem typedDataSize_iff {item : Item} (hb : item.Built)
    (hfree : ∀ v, item.form behind = .value v → v.isErrorFree = true)
    (hne : item.form behind ≠ .refused)
    (hlt : ((item.form behind).bytes cookie).length < 2 ^ 31) :
    typedDataSize item.1 item.2 = ((item.form behind).bytes cookie).length ↔ item.Sized cookie := by
  obtain ⟨type, value⟩ := item
  have hstring : ∀ text : List Byte, ((stringForm behind text).bytes cookie).length < 2 ^ 31 →
      stringDataSize text = ((stringForm behind text).bytes cookie).length := by
    intro text hlt
    unfold stringDataSize
    unfold stringForm at hlt ⊢
    split at hlt
    · rename_i hsmall
      rw [if_pos hsmall, if_pos hsmall]
      rfl
    · rename_i hlarge
      rw [if_neg hlarge, if_neg hlarge]
      unfold Form.bytes at hlt ⊢
      rw [length_append] at hlt ⊢
      have hle := length_le_padded (text ++ [0])
      have hp : (padded (text ++ [0])).length = valueDataAlign (text ++ [0]).length :=
        padded_length (by omega)
      rw [hp, length_append, wordBytes_length, wordBytes_length, length_append,
        length_singleton]
      rfl
  cases value with
  | none => cases type <;> exact iff_of_true rfl trivial
  | some value =>
    cases type with
    | value =>
      have h1 := @SValue.archivedSize_iff (value.flattened (flat cookie))
        (SValue.flattened_isErrorFree (flat cookie) value (hfree value rfl))
        (SValue.flattened_objects (flat cookie) value) hlt
      rw [SValue.archivedSize_flattened] at h1
      exact h1
    | point =>
      refine iff_of_false ?_ (fun h => h)
      intro h
      rw [show form behind ⟨.point, some value⟩ = .block (packLargeType pointType) value.1 from rfl,
        length_block _ _ (by decide),
        show typedDataSize DataType.point (some value) = badType from rfl] at h
      exact absurd h (by decide)
    | rect =>
      refine iff_of_false ?_ (fun h => h)
      intro h
      rw [show form behind ⟨.rect, some value⟩ = .block (packLargeType rectType) value.1 from rfl,
        length_block _ _ (by decide),
        show typedDataSize DataType.rect (some value) = badType from rfl] at h
      exact absurd h (by decide)
    | constchar | string => exact iff_of_true (hstring value hlt) trivial
    | double | int64 | uint64 | nsecs | bigtime | offT =>
      exact iff_of_true (congrArg Nat.cast (length_block _ value (by decide))).symm trivial
    | other => exact absurd rfl hne
    | _ => exact iff_of_true rfl trivial

/-- What reading an item back at its bytes has to be. -/
def ReadBack (item : Item) (p : SParcel) (n : ℤ) (q : SParcel) : Prop :=
  ∃ status stored, readTypedData item.1 p = .ok (status, stored, q) ∧ item.Returned status stored ∧
    q.data = p.data ∧ q.pos = p.pos + n

theorem readBack_of_reads {item : Item} {p : SParcel} {n : ℕ} {status : ℤ}
    {stored : Option item.1.Value} (hr : p.ReadsTo n status stored (readTypedData item.1 p))
    (h : item.Returned status stored) : ∃ q, item.ReadBack p n q := by
  obtain ⟨q, hq, hdata, hpos⟩ := hr
  exact ⟨q, status, stored, hq, h, hdata, hpos⟩

theorem readsTo_string {type : DataType} {text : List Byte} {stored : Option type.Value}
 (h : p.At ((stringForm behind text).bytes cookie) rest)
    (hread : ∀ htype hdata q r, readStringData htype hdata q = .ok (0, some text, r) →
      readHeaderData type htype hdata q = .ok (0, stored, r)) :
    p.ReadsTo ((stringForm behind text).bytes cookie).length 0 stored (readWithHeader type p) := by
  unfold stringForm at h ⊢
  split at h
  · rename_i hsmall
    rw [if_pos hsmall]
    refine At.reads_header h ?_ (fun q => hread _ _ _ _ (readStringData_small hsmall _ q))
    -- the code of a string is not that of a null pointer
    intro hc
    have := congrArg unpackTypeCode hc
    rw [unpackTypeCode_packSmallType _ hsmall, unpackTypeCode_packSmallType _ (by decide)] at this
    exact absurd this (by decide)
  · rename_i hlarge
    rw [if_neg hlarge]
    have h1 : p.At (wordBytes (packLargeType stringType) ++
        wordBytes (BitVec.ofNat 32 (text ++ [0]).length) ++ padded (text ++ [0])) rest := h
    have h2 := h1.skip
    have hr := @At.readStringData _ rest text h2
    refine ⟨(p.skip 8).skip (padded (text ++ [0])).length, ?_, rfl, ?_⟩
    · rw [h1.left.readWithHeader (by decide)]
      exact hread _ _ _ _ hr
    · unfold SParcel.skip Form.bytes
      simp only [length_append, wordBytes_length]
      push_cast
      ring

theorem Readable.readBack (hr : item.Readable) (hb : item.Built) (hne : item.form behind ≠ .refused)
    (h : p.At ((item.form behind).bytes cookie) rest) :
    ∃ q, item.ReadBack p ((item.form behind).bytes cookie).length q := by
  obtain ⟨type, value⟩ := item
  -- a pointer that is not there, numbers in a header, numbers and points after it
  have hnull : ∀ {type : DataType}, p.At (wordBytes (packSmallType nullType 0) ++ wordBytes 0) rest →
      p.ReadsTo 8 readNullValue none (readWithHeader type p) := by
    intro type h
    rw [h.readWithHeader_null]
    exact ReadsTo.skip
  have hnumber : ∀ {type : DataType} {data : BitVec 32} {stored : Option type.Value},
      p.At (wordBytes (packSmallType int32Type 4) ++ wordBytes data) rest →
      (∀ q, readHeaderData type (packSmallType int32Type 4) data q = .ok (0, stored, q)) →
      p.ReadsTo 8 0 stored (readWithHeader type p) := by
    intro type data stored h hread
    exact h.reads_header (by decide) hread
  have hlong : ∀ {type : DataType} {t : BitVec 32} {v : Raw 8} {stored : Option type.Value},
      p.At ((Form.block t v.1).bytes cookie) rest → t ≠ packSmallType nullType 0 →
      (∀ q : SParcel, q.At v.1 rest →
        readHeaderData type t (BitVec.ofNat 32 v.1.length) q = .ok (0, stored, q.skip 8)) →
      p.ReadsTo ((Form.block t v.1).bytes cookie).length 0 stored (readWithHeader type p) := by
    intro type t v stored h hne hread
    rw [length_block t v (by decide)]
    exact At.reads_block h (by decide) hne hread
  have hsword : ∀ x : BitVec 16, (x.signExtend 32).setWidth 16 = x := fun x =>
    setWidth_signExtend (by decide) x
  have hsbyte : ∀ x : BitVec 8, (x.signExtend 32).setWidth 8 = x := fun x =>
    setWidth_signExtend (by decide) x
  cases value with
  | none =>
    cases type with
    | undefined =>
      exact readBack_of_reads (h.reads_header (by decide) (fun q => rfl)) rfl
    | value =>
      have hat : p.At ((SValue.null.flattened (flat cookie)).wireBytes) rest := h
      obtain ⟨v', hv, -⟩ := (At.readValueData (v := SValue.null) (by decide) hat).1 (by decide)
      exact @readBack_of_reads ⟨.value, none⟩ _ _ _ _ hv rfl
    | binder => exact hr.elim
    | binderWeak => exact hr.elim
    | _ => exact readBack_of_reads (hnull h) rfl
  | some value =>
    cases type with
    | bool =>
      refine readBack_of_reads (hnumber h (fun q => rfl)) ⟨rfl, ?_⟩
      cases value <;> rfl
    | float => exact readBack_of_reads (h.reads_header (by decide) (fun q => rfl)) ⟨rfl, rfl⟩
    | double => exact hr.elim
    | char =>
      exact readBack_of_reads (hnumber h (fun q => rfl)) ⟨rfl, congrArg some (hsbyte value)⟩
    | int8 =>
      exact readBack_of_reads (hnumber h (fun q => rfl)) ⟨rfl, congrArg some (hsbyte value)⟩
    | uint8 =>
      exact readBack_of_reads (hnumber h (fun q => rfl)) ⟨rfl, congrArg some (by simp)⟩
    | int16 =>
      exact readBack_of_reads (hnumber h (fun q => rfl)) ⟨rfl, congrArg some (hsword value)⟩
    | uint16 =>
      exact readBack_of_reads (hnumber h (fun q => rfl)) ⟨rfl, congrArg some (by simp)⟩
    | int64 | uint64 | nsecs | bigtime | offT =>
      exact readBack_of_reads (hlong h (by decide) fun q hq => hq.readAfterHeader) ⟨rfl, rfl⟩
    | binder =>
      have hread := At.readBinderData value.2 (isStrong_type value.2) h
      exact readBack_of_reads ⟨p.skip 16, hread, rfl, rfl⟩ ⟨rfl, rfl⟩
    | binderWeak =>
      have hread := At.readBinderData value.2 (isWeak_type value.2) h
      exact readBack_of_reads ⟨p.skip 16, hread, rfl, rfl⟩ ⟨rfl, rfl⟩
    | value =>
      have hsound : value.isSound = true := (show value.Built from hb).sound
      obtain ⟨v', hv, hc⟩ := (At.readValueData hsound h).1 hr
      exact readBack_of_reads hv ⟨rfl, v', rfl, hc⟩
    | constchar =>
      exact readBack_of_reads (readsTo_string h fun _ _ _ _ hread => hread) ⟨rfl, rfl⟩
    | string =>
      exact readBack_of_reads (readsTo_string h fun _ _ _ _ hread => hread) ⟨rfl, rfl⟩
    | point => exact readBack_of_reads (hlong h (by decide) fun q hq => hq.readPointData) ⟨rfl, rfl⟩
    | rect =>
      have hread : p.ReadsTo (8 + 16) 0 (some value) (readWithHeader .rect p) :=
        At.reads_block h (by decide) (by decide) fun q hq => hq.readRectData
      rw [← length_block (packLargeType rectType) value (by decide)] at hread
      exact readBack_of_reads hread ⟨rfl, rfl⟩
    | undefined =>
      exact readBack_of_reads (h.reads_header (by decide) (fun q => rfl)) rfl
    | null => exact readBack_of_reads (hnull h) rfl
    | other => exact absurd rfl hne
    | _ => exact readBack_of_reads (hnumber h (fun q => rfl)) ⟨rfl, rfl⟩

theorem ReadBack.readable {q : SParcel} {n : ℤ} (hread : item.ReadBack p n q) (hb : item.Built)
    (h : p.At ((item.form behind).bytes cookie) rest) : item.Readable := by
  obtain ⟨type, value⟩ := item
  obtain ⟨status, stored, hq, hreturned, -, -⟩ := hread
  cases value with
  | none =>
    cases type with
    | binder => exact readBinderData_ne_null hq hreturned
    | binderWeak => exact readBinderData_ne_null hq hreturned
    | _ => trivial
  | some value =>
    cases type with
    | double =>
      -- the header is not the one that is looked for
      have h1 : p.At (wordBytes (packLargeType doubleType) ++
        wordBytes (BitVec.ofNat 32 value.1.length) ++ padded value.1) rest := h
      have hbad : readWithHeader .double p = .ok (badType, none, p.skip 8) := by
        rw [h1.left.readWithHeader (by decide)]
        rfl
      rw [show readTypedData .double p = readWithHeader .double p from rfl, hbad] at hq
      obtain ⟨⟩ := hq
      exact absurd hreturned.1 (by decide)
    | value =>
      have hsound : value.isSound = true := (show value.Built from hb).sound
      obtain ⟨-, v', rfl, hc⟩ := hreturned
      exact (At.readValueData hsound h).2 hq hc
    | _ => trivial

/-! ### Lists of items -/

/-- Writing items in order: what each write comes back with, and how far it moved. -/
def writeAll (cookie : BitVec 32 → BitVec 32 → BitVec 32) (behind : List Byte → BitVec 32) :
    List Item → SParcel → Except Fault (List (ℤ × ℤ) × SParcel)
  | [], p => .ok ([], p)
  | item :: items, p => do
    let (result, q) ← writeTypedData cookie behind item.1 item.2 p
    let (written, r) ← writeAll cookie behind items q
    return ((result, q.pos - p.pos) :: written, r)

/-- **The round trip.** Each item has the size of what was written for it and is read back from
exactly that, in order. -/
def RoundTrip : List Item → List (ℤ × ℤ) → SParcel → Prop
  | [], [], _ => True
  | item :: items, (result, n) :: written, p =>
    result = n ∧ typedDataSize item.1 item.2 = n ∧ ∃ q, item.ReadBack p n q ∧ RoundTrip items written q
  | _, _, _ => False

/-- The bytes of items. -/
def allBytes (cookie : BitVec 32 → BitVec 32 → BitVec 32) (behind : List Byte → BitVec 32)
    (items : List Item) : List Byte :=
  items.flatMap fun item => (item.form behind).bytes cookie

theorem writeAll_wrote : ∀ (items : List Item) {p q : SParcel} {written : List (ℤ × ℤ)},
    (∀ item ∈ items, item.Built) → p.InBounds →
    writeAll cookie behind items p = .ok (written, q) → (∀ w ∈ written, 0 ≤ w.1) →
    p.Wrote (allBytes cookie behind items) q := by
  intro items
  induction items with
  | nil =>
    intro p q written _ hp hw _
    obtain ⟨⟩ := hw
    exact hp.refl
  | cons item items ih =>
    intro p q written hb hp hw haccepted
    obtain ⟨⟨result, p₁⟩, h1, hw⟩ := bind_eq_ok.1 hw
    obtain ⟨⟨written₁, p₂⟩, h2, hw⟩ := bind_eq_ok.1 hw
    obtain ⟨⟩ := hw
    rw [writeTypedData_eq] at h1
    obtain ⟨-, -, hw1⟩ := Form.wrote (hb _ mem_cons_self).form hp h1
      (haccepted _ mem_cons_self)
    have hw2 := ih (fun x hx => hb x (mem_cons_of_mem _ hx)) (hw1.inBounds hp) h2
      (fun w hx => haccepted w (mem_cons_of_mem _ hx))
    exact hw1.trans hw2

/-- **Reading from where the items are**, whatever is around them. -/
theorem roundTrip_iff_of_at : ∀ (items : List Item) {p q s : SParcel} {written : List (ℤ × ℤ)}
    {rest : List Byte}, (∀ item ∈ items, item.Built) → p.InBounds →
    writeAll cookie behind items p = .ok (written, q) → (∀ w ∈ written, 0 ≤ w.1) →
    s.At (allBytes cookie behind items) rest →
    p.pos + (allBytes cookie behind items).length < 2 ^ 31 →
    (RoundTrip items written s ↔ ∀ item ∈ items, item.Marshals cookie) := by
  intro items
  induction items with
  | nil =>
    intro p q s written rest _ _ hw _ _ _
    obtain ⟨⟩ := hw
    exact iff_of_true trivial (fun _ hx => absurd hx not_mem_nil)
  | cons item items ih =>
    intro p q s written rest hb hp hw haccepted hat hlt
    obtain ⟨⟨result, p₁⟩, h1, hw⟩ := bind_eq_ok.1 hw
    obtain ⟨⟨written₁, p₂⟩, h2, hw⟩ := bind_eq_ok.1 hw
    obtain ⟨rfl, rfl⟩ := Prod.mk.inj (Except.ok.inj hw)
    rw [writeTypedData_eq] at h1
    have h0 := haccepted _ mem_cons_self
    have hbi := hb _ mem_cons_self
    obtain ⟨hfree, hne, hw1⟩ := Form.wrote hbi.form hp h1 h0
    have hbytes : allBytes cookie behind (item :: items) =
      (item.form behind).bytes cookie ++ allBytes cookie behind items := flatMap_cons
    rw [hbytes, length_append] at hlt
    rw [hbytes] at hat
    have hp0 := hp.pos_nonneg
    have hpos := hw1.pos
    have hresult := Form.result hbi.form hp h1 h0 (by omega)
    have hmoved : p₁.pos - p.pos = ((item.form behind).bytes cookie).length := by omega
    have hsize := @typedDataSize_iff cookie behind item hbi hfree hne (by omega)
    have hrest : ∀ r, item.ReadBack s ((item.form behind).bytes cookie).length r →
        (RoundTrip items written₁ r ↔ ∀ x ∈ items, x.Marshals cookie) := by
      rintro r ⟨_, _, -, -, hdata, hmove⟩
      refine @ih p₁ p₂ r written₁ rest (fun x hx => hb x (mem_cons_of_mem _ hx))
        (hw1.inBounds hp) h2 (fun w hx => haccepted w (mem_cons_of_mem _ hx))
        (hat.of_moved hdata hmove) (by omega)
    rw [forall_mem_cons]
    rw [hmoved]
    constructor
    · rintro ⟨-, hs, r, hread, htrip⟩
      exact ⟨⟨hsize.1 hs, hread.readable hbi hat.left⟩, (hrest r hread).1 htrip⟩
    · rintro ⟨hm, hms⟩
      obtain ⟨r, hread⟩ := hm.readable.readBack hbi hne hat.left
      exact ⟨hresult, hsize.2 hm.sized, r, hread, (hrest r hread).2 hms⟩

/-- A cookie for the objects in values. -/
def sameCookie (_ object : BitVec 32) : BitVec 32 := object

/-- What is behind a string, where nothing is known of it. -/
def zeroBehind (_ : List Byte) : BitVec 32 := 0

/-- An empty parcel with its own block. -/
def emptyParcel : SParcel := ⟨[], 0, 128, []⟩

theorem emptyParcel_inBounds : emptyParcel.InBounds := ⟨le_refl _, le_refl _⟩

end Item

end OpenBinder
