import OpenBinder.Parcel.TypedLaw
import OpenBinder.Value.Join

/-!
# Values in a parcel

`SetValues` writes how many values there are and archives them, `GetValues` takes them out
again.

* `setValues`, `getValues`: on a parcel, or on the error that is in the place of one.
* `setValues_wrote`, `setValues_ok`: what is sent has no errors, and is written one after the
  other.
* `getValues_ok`, `getValues_only`: what is received is what was sent exactly if no large block in
  it looks like an object.
-/

namespace OpenBinder

open Lib List

/-- `sizeof(m_inline)`: the bytes that a new parcel has in itself. -/
def inlineSize : ℤ := 32

namespace SParcel

variable (flat : BitVec 32 → BitVec 32 → BitVec 32 × BitVec 32)

def readInt32 (p : SParcel) : Except Fault (BitVec 32 × SParcel) := do
  let (bytes, _, p) ← p.read 4 4
  return (wordOf bytes, p)

/-- The loop of `SetValues` that adds up the sizes; an error among them is its result. -/
def valuesSize : List SValue → ℤ → Except ℤ ℤ
  | [], size => .ok size
  | value :: values, size =>
    let amt := value.archivedSize
    if amt < 0 then .error amt else valuesSize values (ssize (size + amt))

/-- The loop of `SetValues` that archives the values. -/
def archiveValues : List SValue → SParcel → Except Fault (Except ℤ SParcel)
  | [], p => .ok (.ok p)
  | value :: values, p => do
    let (len, p) ← value.archive flat p
    if len < 0 then return .error len
    archiveValues values p

/-- `SParcel::SetValues`, on a parcel that has a block of `avail` bytes. An error becomes the
length of the parcel, which has nothing in it then. -/
def setValues (values : List SValue) (avail : ℤ) : Except Fault (Except ℤ SParcel) :=
  let values := values.take 10
  match valuesSize values 0 with
  | .error amt => .ok (.error amt)
  | .ok size => do
    let start : SParcel := ⟨[], 0, max avail (ssize (4 + size)), []⟩
    let (_, p) ← start.write (wordBytes (BitVec.ofNat 32 values.length))
    archiveValues flat values p

/-- The loop of `GetValues`. A value that could not be read is the last one. -/
def readValues : ℕ → SParcel → Except Fault (List SValue × SParcel)
  | 0, p => .ok ([], p)
  | count + 1, p => do
    let (value, tmp, p) ← SValue.unarchive p
    if tmp < 0 then return ([value], p)
    let (values, p) ← readValues count p
    return (value :: values, p)

/-- `SParcel::GetValues`, of a parcel that is no error: as many values as its result says. -/
def getValues (maxCount : ℕ) (p : SParcel) : Except Fault (List SValue × SParcel) := do
  let (numValues, p) ← p.readInt32
  readValues (min numValues.toInt.toNat maxCount) p

/-- A parcel as it comes out at the other end. -/
def arrived (p : SParcel) : SParcel := ⟨p.data, 0, p.length, []⟩

end SParcel

namespace SValue

/-! ### Equal values -/

/-- Values that `Compare` does not tell apart. -/
def Equal (v w : SValue) : Prop := v.compare w = .eq

variable {v w : SValue}

theorem Equal.code (h : v.Equal w) : v.code = w.code := compare_eq_iff.1 h

theorem equal_of_code (h : v.code = w.code) : v.Equal w := compare_eq_iff.2 h

theorem Equal.refl (v : SValue) : v.Equal v := equal_of_code rfl

theorem Equal.symm (h : v.Equal w) : w.Equal v := equal_of_code h.code.symm

theorem Equal.trans {u : SValue} (h : u.Equal v) (h' : v.Equal w) : u.Equal w :=
  equal_of_code (h.code.trans h'.code)

theorem Equal.mType (h : v.Equal w) : v.mType = w.mType := mType_eq_of_code h.code

theorem Equal.isWild (h : v.Equal w) : v.isWild = w.isWild := by
  unfold SValue.isWild
  rw [h.mType]

theorem Equal.isDefined (h : v.Equal w) : v.isDefined = w.isDefined := by
  unfold SValue.isDefined
  rw [h.mType]

theorem Equal.small {type : SmallType} {data : BitVec 32} (h : (small type data).Equal w) :
    ∃ data', w = .small type data' := by
  have htype : type.1 = w.mType := h.mType
  cases w with
  | small type' data' =>
    obtain rfl : type = type' := Subtype.ext htype
    exact ⟨data', rfl⟩
  | large type' buffer => exact absurd htype (SmallType.ne_large type type')
  | map m =>
    have hlen := type.2
    rw [htype] at hlen
    exact absurd hlen (by show ¬ unpackTypeLength kMapTypeCode ≤ typeLengthMax; decide)

theorem Equal.large {type : LargeType} {buffer : List Byte} (h : (large type buffer).Equal w) :
    w = .large type buffer := by
  have htype : type.1 = w.mType := h.mType
  cases w with
  | small type' data' => exact absurd htype.symm (SmallType.ne_large type' type)
  | large type' buffer' =>
    obtain rfl : type = type' := Subtype.ext htype
    have hcode := h.code
    rw [SValue.code, SValue.code] at hcode
    have hmap := (List.cons.inj (List.cons.inj hcode).2).2
    have hinj : Function.Injective fun b : Byte => (b.toNat : ℤ) := by
      intro a b hab
      exact BitVec.eq_of_toNat_eq (Int.ofNat.inj hab)
    rw [(map_injective_iff.2 hinj) hmap]
  | map m =>
    have hlen := type.2
    rw [htype] at hlen
    exact absurd hlen (by show ¬ unpackTypeLength kMapTypeCode = typeLengthLarge; decide)

theorem Equal.map {m : BValueMap SValue} (h : (map m).Equal w) :
    ∃ m', w = .map m' := by
  cases w with
  | small type data =>
    obtain ⟨data', hw⟩ := h.symm.small
    cases hw
  | large type buffer =>
    have hw := h.symm.large
    cases hw
  | map m' => exact ⟨m', rfl⟩

/-- **What is said of every node** by its type and its block holds of equal values alike. -/
theorem Equal.transfer {P : SValue → Prop}
    (hsmall : ∀ type data data', P (.small type data) → P (.small type data'))
    (hmap : ∀ m, P (.map m) ↔ ∀ p ∈ m.maps, P p.1 ∧ P p.2) :
    ∀ {v w : SValue}, v.Equal w → P v → P w := by
  intro v
  induction v using SValue.ind with
  | small type data =>
    intro w h hv
    obtain ⟨data', rfl⟩ := h.small
    exact hsmall type data data' hv
  | large type buffer =>
    intro w h hv
    rw [h.large]
    exact hv
  | map m ih =>
    intro w h hv
    obtain ⟨m', rfl⟩ := h.map
    refine (hmap m').2 fun q hq => ?_
    have hall := forall₂_of_code h.code
    obtain ⟨i, hi, rfl⟩ := mem_iff_getElem.1 hq
    have hi' : i < m.maps.length := by rw [hall.length_eq]; exact hi
    have hp : m.maps[i] ∈ m.maps := getElem_mem hi'
    have hcode := hall.get hi' hi
    have hp' := (hmap m).1 hv _ hp
    exact ⟨(ih _ hp).1 (equal_of_code hcode.1) hp'.1, (ih _ hp).2 (equal_of_code hcode.2) hp'.2⟩

theorem Equal.isErrorFree (h : v.Equal w) (hv : v.isErrorFree = true) :
    w.isErrorFree = true := by
  apply Equal.transfer (P := fun v => v.isErrorFree = true) _ (fun m => isErrorFree_map) h hv
  intro type data data' hfree
  exact hfree

theorem Equal.isUnambiguous (h : v.Equal w) (hv : v.isUnambiguous = true) :
    w.isUnambiguous = true := by
  apply Equal.transfer (P := fun v => v.isUnambiguous = true) _ (fun m => isUnambiguous_map) h hv
  intro type data data' _
  rw [SValue.isUnambiguous]

/-! ### What is sent -/

/-- A value that `SetValues` can send: every node passes `check_integrity`, there are no errors,
and what `ArchivedSize` says is a size. -/
structure Sendable (v : SValue) : Prop where
  sound : v.isSound = true
  errorFree : v.isErrorFree = true
  size : 0 ≤ v.archivedSize

end SValue

namespace SParcel

variable {cookie : BitVec 32 → BitVec 32 → BitVec 32}

/-- The bytes that values are archived as. -/
def valuesBytes (cookie : BitVec 32 → BitVec 32 → BitVec 32) (values : List SValue) : List Byte :=
  values.flatMap fun v => (v.flattened (flat cookie)).wireBytes

theorem valuesBytes_cons (v : SValue) (vs : List SValue) :
    valuesBytes cookie (v :: vs) = (v.flattened (flat cookie)).wireBytes ++ valuesBytes cookie vs :=
  flatMap_cons

/-- **What the loop of `SetValues` came through** has no errors and is written. -/
theorem archiveValues_wrote : ∀ (values : List SValue) {p q : SParcel},
    (∀ v ∈ values, v.errorsNegative = true) → p.InBounds →
    archiveValues (flat cookie) values p = .ok (.ok q) →
      (∀ v ∈ values, v.isErrorFree = true) ∧ p.Wrote (valuesBytes cookie values) q := by
  intro values
  induction values with
  | nil =>
    intro p q _ hp h
    obtain ⟨⟩ := Except.ok.inj h
    exact ⟨fun v hv => absurd hv not_mem_nil, hp.refl⟩
  | cons value values ih =>
    intro p q hneg hp h
    obtain ⟨⟨len, p'⟩, harchive, h⟩ := bind_eq_ok.1 h
    dsimp only at h
    split at h
    · cases h
    · rename_i hlen
      obtain ⟨hfree, hwrote⟩ := SValue.archive_wrote cookie value (hneg _ mem_cons_self) hp
        harchive (by omega)
      obtain ⟨hrest, hwrote'⟩ := ih (fun v hv => hneg v (mem_cons_of_mem _ hv))
        (hwrote.inBounds hp) h
      refine ⟨fun v hv => ?_, by rw [valuesBytes_cons]; exact hwrote.trans hwrote'⟩
      rcases mem_cons.1 hv with rfl | hv
      · exact hfree
      · exact hrest v hv

theorem archiveValues_ok : ∀ (values : List SValue) {p : SParcel},
    (∀ v ∈ values, v.isErrorFree = true) → p.InBounds →
    p.pos + (valuesBytes cookie values).length < 2 ^ 31 →
      ∃ q, archiveValues (flat cookie) values p = .ok (.ok q) := by
  intro values
  induction values with
  | nil => intro p _ _ _; exact ⟨p, rfl⟩
  | cons value values ih =>
    intro p hfree hp hlen
    rw [valuesBytes_cons, length_append] at hlen
    obtain ⟨p', harchive, hwrote⟩ := @SValue.archive_writes (flat cookie) _ _ _ writes value p
      (hfree _ mem_cons_self) (.inl trivial) hp
      (by show p.pos + ((value.flattened (flat cookie)).wireBytes.length : ℤ) < 2 ^ 31; omega)
    have hpos := hwrote.pos
    obtain ⟨q, hq⟩ := ih (fun v hv => hfree v (mem_cons_of_mem _ hv)) (hwrote.inBounds hp)
      (by omega)
    refine ⟨q, ?_⟩
    rw [archiveValues, harchive, ok_bind]
    dsimp only
    rw [if_neg (by omega)]
    exact hq

theorem archiveValues_error : ∀ (values : List SValue) {p : SParcel} {code : ℤ},
    archiveValues (flat cookie) values p = .ok (.error code) → code < 0 := by
  intro values
  induction values with
  | nil => intro p code h; cases h
  | cons value values ih =>
    intro p code h
    obtain ⟨⟨len, p'⟩, -, h⟩ := bind_eq_ok.1 h
    dsimp only at h
    split at h
    · rename_i hlen
      rw [← Except.error.inj (Except.ok.inj h)]
      exact hlen
    · exact ih h

theorem valuesSize_error : ∀ (values : List SValue) {size code : ℤ},
    valuesSize values size = .error code → code < 0 := by
  intro values
  induction values with
  | nil => intro size code h; cases h
  | cons value values ih =>
    intro size code h
    rw [valuesSize] at h
    split at h
    · rename_i hlt
      rw [← Except.error.inj h]
      exact hlt
    · exact ih h

theorem valuesSize_ok : ∀ (values : List SValue) (size : ℤ), (∀ v ∈ values, 0 ≤ v.archivedSize) →
    ∃ n, valuesSize values size = .ok n := by
  intro values
  induction values with
  | nil => intro size _; exact ⟨size, rfl⟩
  | cons value values ih =>
    intro size h
    obtain ⟨n, hn⟩ := ih (ssize (size + value.archivedSize))
      fun v hv => h v (mem_cons_of_mem _ hv)
    refine ⟨n, ?_⟩
    have h0 := h _ mem_cons_self
    rw [valuesSize, if_neg (by omega)]
    exact hn

variable {values : List SValue} {q p : SParcel} {maxCount : ℕ}

theorem setValues_error {avail code : ℤ}
    (h : setValues (flat cookie) values avail = .ok (.error code)) : code < 0 := by
  unfold setValues at h
  dsimp only at h
  split at h
  · rename_i amt hamt
    rw [← Except.error.inj (Except.ok.inj h)]
    exact valuesSize_error _ hamt
  · obtain ⟨⟨n, p⟩, -, h⟩ := bind_eq_ok.1 h
    exact archiveValues_error _ h

theorem inBounds_start (avail : ℤ) : InBounds ⟨[], 0, avail, []⟩ := ⟨le_rfl, le_rfl⟩

/-- What a parcel of values has in it. -/
def ValuesIn (cookie : BitVec 32 → BitVec 32 → BitVec 32) (values : List SValue) (p : SParcel) :
    Prop :=
  ∃ rest, p.data = wordBytes (BitVec.ofNat 32 values.length) ++ valuesBytes cookie values ++ rest

/-- **What `SetValues` came through** has no errors and is in the parcel. -/
theorem setValues_wrote {avail : ℤ} (hlen : values.length ≤ 10)
    (hneg : ∀ v ∈ values, v.errorsNegative = true)
    (h : setValues (flat cookie) values avail = .ok (.ok q)) :
    (∀ v ∈ values, v.isErrorFree = true) ∧ ValuesIn cookie values q := by
  unfold setValues at h
  rw [take_of_length_le hlen] at h
  dsimp only at h
  split at h
  · cases h
  · obtain ⟨⟨n, p⟩, hword, h⟩ := bind_eq_ok.1 h
    have hp := Wrote.write (inBounds_start _) hword
    obtain ⟨hfree, hwrote⟩ := archiveValues_wrote values hneg (hp.inBounds (inBounds_start _)) h
    have hdata := (hp.trans hwrote).data
    refine ⟨hfree, q.data.drop q.pos.toNat, ?_⟩
    rw [take_nil, nil_append] at hdata
    rw [← hdata, take_append_drop]

theorem setValues_ok (avail : ℤ) (hlen : values.length ≤ 10)
    (hfree : ∀ v ∈ values, v.isErrorFree = true) (hsize : ∀ v ∈ values, 0 ≤ v.archivedSize)
    (hfit : 4 + (valuesBytes cookie values).length < 2 ^ 31) :
    ∃ q, setValues (flat cookie) values avail = .ok (.ok q) := by
  obtain ⟨size, hn⟩ := valuesSize_ok values 0 hsize
  obtain ⟨p, hword, hwrote⟩ := writes.write (wordBytes (BitVec.ofNat 32 values.length))
    (inBounds_start (max avail (ssize (4 + size)))) (by rw [wordBytes_length]; exact (by decide : (0 : ℤ) + (4 : ℕ) < 2 ^ 31))
  have hpos := hwrote.pos
  rw [wordBytes_length] at hpos
  obtain ⟨q, hq⟩ := archiveValues_ok values hfree (hwrote.inBounds (inBounds_start _))
    (show p.pos + (valuesBytes cookie values).length < 2 ^ 31 by
      rw [hpos]
      show (0 : ℤ) + (4 : ℕ) + _ < 2 ^ 31
      omega)
  refine ⟨q, ?_⟩
  unfold setValues
  rw [take_of_length_le hlen]
  dsimp only
  rw [hn]
  dsimp only
  rw [hword, ok_bind]
  exact hq

/-! ### What is received -/

theorem archivedSize_small {type : SmallType} {data : BitVec 32}
    (h : (SValue.small type data).isError = false) : 0 ≤ (SValue.small type data).archivedSize := by
  rw [SValue.archivedSize, h, if_neg Bool.false_ne_true]
  split <;> decide

theorem isError_failed (err : ℤ) (p : SParcel) : (SValue.failed err p).1.isError = true :=
  SValue.isError_error _

/-- **What is unarchived** has a size, unless it is an error. -/
theorem archivedSize_unarchive {v : SValue} {n : ℤ} (h : SValue.unarchive p = .ok (v, n, q))
    (hn : 0 ≤ n) (he : v.isError = false) :
    0 ≤ v.archivedSize := by
  have hfailed : ∀ err s, SValue.failed err s ≠ (v, n, q) := by
    intro err s heq
    have herr := isError_failed err s
    rw [heq, he] at herr
    exact Bool.false_ne_true herr
  unfold SValue.unarchive at h
  rw [SValue.unarchiveInternal] at h
  split at h
  · exact absurd (Except.ok.inj h) (hfailed _ _)
  obtain ⟨⟨⟨htype, hdata⟩, err, source⟩, -, h⟩ := bind_eq_ok.1 h
  dsimp only at h
  split at h
  · exact absurd (Except.ok.inj h) (hfailed _ _)
  split at h
  · obtain ⟨⟩ := h
    exact archivedSize_small he
  split at h
  · -- a large block, whose result is its size
    unfold SValue.unarchiveLarge at h
    dsimp only at h
    split at h
    · obtain ⟨⟨_, err', s⟩, -, h⟩ := bind_eq_ok.1 h
      split at h
      · exact absurd (Except.ok.inj h) (hfailed _ _)
      · obtain ⟨rfl, -⟩ := Prod.mk.inj (Except.ok.inj h)
        exact archivedSize_small he
    · split at h
      · cases h
      · rename_i hlen
        obtain ⟨⟨bytes, err', s⟩, hread, h⟩ := bind_eq_ok.1 h
        dsimp only at h
        split at h
        · exact absurd (Except.ok.inj h) (hfailed _ _)
        · rename_i herr
          obtain ⟨rfl, hrest⟩ := Prod.mk.inj (Except.ok.inj h)
          obtain ⟨rfl, -⟩ := Prod.mk.inj hrest
          obtain ⟨hamt, -⟩ := read_length hread
          have htake : (bytes.take hdata.toNat).length = hdata.toNat := by
            rw [length_take]
            omega
          rw [SValue.archivedSize, htake]
          exact hn
  obtain ⟨⟨⟨count, _⟩, err', s⟩, -, h⟩ := bind_eq_ok.1 h
  split at h
  · exact absurd (Except.ok.inj h) (hfailed _ _)
  split at h
  · cases h
  · obtain ⟨⟨err'', maps, remain, s'⟩, -, h⟩ := bind_eq_ok.1 h
    split at h
    · exact absurd (Except.ok.inj h) (hfailed _ _)
    split at h
    · exact absurd (Except.ok.inj h) (hfailed _ _)
    · rename_i hsize
      obtain ⟨rfl, hrest⟩ := Prod.mk.inj (Except.ok.inj h)
      obtain ⟨rfl, -⟩ := Prod.mk.inj hrest
      rw [SValue.archivedSize, Int.toNat_of_nonneg (by omega)]
      exact hn

theorem readValues_length : ∀ (count : ℕ) {p q : SParcel} {values : List SValue},
    readValues count p = .ok (values, q) → values.length ≤ count := by
  intro count
  induction count with
  | zero =>
    intro p q values h
    obtain ⟨⟩ := h
    exact le_rfl
  | succ count ih =>
    intro p q values h
    obtain ⟨⟨value, tmp, p'⟩, -, h⟩ := bind_eq_ok.1 h
    dsimp only at h
    split at h
    · obtain ⟨⟩ := h
      exact Nat.succ_le_succ (Nat.zero_le _)
    · obtain ⟨⟨values', q'⟩, hrest, h⟩ := bind_eq_ok.1 h
      obtain ⟨⟩ := h
      exact Nat.succ_le_succ (ih hrest)

theorem readValues_ne_nil {count : ℕ} (h : readValues (count + 1) p = .ok (values, q)) :
    values ≠ [] := by
  obtain ⟨⟨value, tmp, p'⟩, -, h⟩ := bind_eq_ok.1 h
  dsimp only at h
  split at h
  · obtain ⟨⟩ := h
    exact cons_ne_nil _ _
  · obtain ⟨⟨values', q'⟩, -, h⟩ := bind_eq_ok.1 h
    obtain ⟨⟩ := h
    exact cons_ne_nil _ _

theorem unarchive_at {v : SValue} (hv : v.isSound = true) {rest : List Byte}
    (hat : p.At (v.flattened (flat cookie)).wireBytes rest) :
    (v.isUnambiguous = true → ∃ v', SValue.unarchive p =
        .ok (v', (v.flattened (flat cookie)).wireSize,
          (p.skip (v.flattened (flat cookie)).wireSize).acquireAll v.objects) ∧ v'.Equal v) ∧
      ∀ {v' : SValue} {n : ℤ} {q : SParcel},
        SValue.unarchive p = .ok (v', n, q) → v'.Equal v → v.isUnambiguous = true := by
  have hl := hat.length_eq
  have h0 := hat.pos_nonneg
  have hlt := hat.length_lt
  have hw : (v.flattened (flat cookie)).wireBytes.length = (v.flattened (flat cookie)).wireSize := rfl
  have hle : ((v.flattened (flat cookie)).wireSize : ℤ) ≤ p.length := by omega
  have hr := @SValue.unarchiveInternal_readsFlat (flat cookie) (fun _ _ => rfl) v hv
    (p.data.length + 1) (by unfold SParcel.length at hle; omega)
  constructor
  · intro hu
    obtain ⟨v', hv', hcode⟩ := hr.ok hat 0x7fffffff (by omega) (by decide) hu
    exact ⟨v', hv', SValue.equal_of_code hcode⟩
  · intro v' n q h heq
    exact hr.only hat 0x7fffffff (by omega) (by decide) h heq.code

/-- A value that is received as it was sent, and that has a size. -/
def Received (v' v : SValue) : Prop := v'.Equal v ∧ 0 ≤ v'.archivedSize

/-- **The loop of `GetValues`** gives the values that are there, if no large block in them looks
like an object. -/
theorem readValues_ok : ∀ (values : List SValue) {p : SParcel} {rest : List Byte},
    (∀ v ∈ values, v.isSound = true ∧ v.isErrorFree = true ∧ v.isUnambiguous = true) →
      p.At (valuesBytes cookie values) rest →
      ∃ values' q, readValues values.length p = .ok (values', q) ∧
        List.Forall₂ Received values' values := by
  intro values
  induction values with
  | nil => intro p rest _ _; exact ⟨[], p, rfl, .nil⟩
  | cons value values ih =>
    intro p rest hs hat
    rw [valuesBytes_cons] at hat
    obtain ⟨hsound, hfree, hu⟩ := hs _ mem_cons_self
    obtain ⟨value', hread, heq⟩ := (unarchive_at hsound hat.left).1 hu
    obtain ⟨values', q, hvalues, hall⟩ := ih (fun v hv => hs v (mem_cons_of_mem _ hv))
      (hat.skip.acquireAll value.objects)
    have hsize := archivedSize_unarchive hread (by omega)
      (SValue.isError_of_isErrorFree (heq.symm.isErrorFree hfree))
    refine ⟨value' :: values', q, ?_, .cons ⟨heq, hsize⟩ hall⟩
    have hbytes : (value.flattened (flat cookie)).wireSize =
      (value.flattened (flat cookie)).wireBytes.length := rfl
    rw [length_cons, readValues, hread, ok_bind]
    dsimp only
    rw [if_neg (by omega), hbytes, hvalues]
    rfl

theorem readValues_only : ∀ (values : List SValue) {p q : SParcel} {values' : List SValue}
    {rest : List Byte}, (∀ v ∈ values, v.isSound = true) → p.At (valuesBytes cookie values) rest →
      readValues values.length p = .ok (values', q) → List.Forall₂ SValue.Equal values' values →
      ∀ v ∈ values, v.isUnambiguous = true := by
  intro values
  induction values with
  | nil => intro p q values' rest _ _ _ _ v hv; exact absurd hv not_mem_nil
  | cons value values ih =>
    intro p q values' rest hs hat h hall
    rw [valuesBytes_cons] at hat
    obtain ⟨hok, honly⟩ := unarchive_at (hs _ mem_cons_self) hat.left
    obtain ⟨⟨value', tmp, p'⟩, hfirst, h⟩ := bind_eq_ok.1 h
    dsimp only at h
    have hhead : value.isUnambiguous = true := by
      split at h
      · obtain ⟨⟩ := h
        cases hall with
        | cons heq _ => exact honly hfirst heq
      · obtain ⟨⟨_, _⟩, -, h⟩ := bind_eq_ok.1 h
        obtain ⟨⟩ := h
        cases hall with
        | cons heq _ => exact honly hfirst heq
    -- the first value is read as it was sent, and so the others are where they were written
    obtain ⟨value'', hread, -⟩ := hok hhead
    rw [hread] at hfirst
    obtain ⟨rfl, hrest⟩ := Prod.mk.inj (Except.ok.inj hfirst)
    obtain ⟨⟩ := hrest
    rw [if_neg (by omega)] at h
    obtain ⟨⟨values'', q'⟩, hvalues, h⟩ := bind_eq_ok.1 h
    obtain ⟨⟩ := h
    cases hall with
    | cons _ hall =>
      intro v hv
      rcases mem_cons.1 hv with rfl | hv
      · exact hhead
      · exact ih (fun v hv => hs v (mem_cons_of_mem _ hv)) (hat.skip.acquireAll _) hvalues
          hall v hv

section

variable (h : ValuesIn cookie values p) (hlt : p.length < 2 ^ 31)
include h hlt

theorem at_arrived : ∃ rest,
      p.arrived.At (wordBytes (BitVec.ofNat 32 values.length) ++ valuesBytes cookie values) rest := by
  obtain ⟨rest, hdata⟩ := h
  exact ⟨rest, le_rfl, by show (0 : ℤ) ≤ (p.data.length : ℤ); omega, hlt, hdata⟩

theorem getValues_eq (hmax : values.length ≤ maxCount) (hlen : values.length ≤ 10) :
    p.arrived.getValues maxCount = readValues values.length (p.arrived.skip 4) := by
  obtain ⟨rest, hat⟩ := at_arrived h hlt
  have hread := hat.left.read (show (wordBytes (BitVec.ofNat 32 values.length)).length ≤ 4 from le_rfl)
  rw [wordBytes_length] at hread
  have hcount : (BitVec.ofNat 32 values.length).toInt.toNat = values.length := by
    rw [BitVec.toInt_eq_toNat_bmod, BitVec.toNat_ofNat, Nat.mod_eq_of_lt (by omega),
      Int.bmod_eq_of_le (by omega) (by omega), Int.toNat_natCast]
  unfold getValues readInt32
  rw [hread, ok_bind]
  dsimp only
  rw [pure_eq_ok, ok_bind]
  rw [wordOf_wordBytes, hcount, Nat.min_eq_left hmax]

theorem at_values : ∃ rest, (p.arrived.skip 4).At (valuesBytes cookie values) rest := by
  obtain ⟨rest, hat⟩ := at_arrived h hlt
  exact ⟨rest, wordBytes_length _ ▸ hat.skip⟩

end

section

variable (h : ValuesIn cookie values p) (hlt : p.length < 2 ^ 31) (hmax : values.length ≤ maxCount)
  (hlen : values.length ≤ 10)
include h hlt hmax hlen

/-- **What is received is what was sent**, if no large block in it looks like an object. -/
theorem getValues_ok
    (hs : ∀ v ∈ values, v.isSound = true ∧ v.isErrorFree = true ∧ v.isUnambiguous = true) :
    ∃ values' q, p.arrived.getValues maxCount = .ok (values', q) ∧
      List.Forall₂ Received values' values := by
  obtain ⟨rest, hat⟩ := at_values h hlt
  rw [getValues_eq h hlt hmax hlen]
  exact readValues_ok values hs hat

theorem getValues_only {values' : List SValue} (hs : ∀ v ∈ values, v.isSound = true)
    (hget : p.arrived.getValues maxCount = .ok (values', q))
    (hall : List.Forall₂ SValue.Equal values' values) :
    ∀ v ∈ values, v.isUnambiguous = true := by
  obtain ⟨rest, hat⟩ := at_values h hlt
  rw [getValues_eq h hlt hmax hlen] at hget
  exact readValues_only values hs hat hget hall

theorem getValues_length {values' : List SValue}
    (hget : p.arrived.getValues maxCount = .ok (values', q)) :
    values'.length ≤ values.length := by
  rw [getValues_eq h hlt hmax hlen] at hget
  exact readValues_length _ hget

end

end SParcel

end OpenBinder
