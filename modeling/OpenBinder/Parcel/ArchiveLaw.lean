import OpenBinder.Parcel.RoundTrip

/-!
# Archiving and unarchiving is the identity, and when it is not

`RoundTrip` is one value archived at the end of a parcel and read back with more bytes
behind it, `RoundTripAll` the same for values back to back. For values without errors and
objects both hold exactly when, in every value,

* the cached sizes of tables are right, all in all (`staleness`), and
* no large block looks like an object (`isUnambiguous`).

`ArchivedSize` caches the size of a table (`sized`) and `ReplaceValues` leaves it as it was
(`replaceValues`).
-/

namespace OpenBinder.SValue

open Lib List

mutual

/-- A value as `ArchivedSize` leaves it, with the sizes of its tables cached. -/
def sized : SValue → SValue
  | map ⟨avail, none, maps⟩ =>
    map ⟨avail, if 0 ≤ computeArchivedSize maps then some (computeArchivedSize maps).toNat else none,
      sizedMaps maps⟩
  | map ⟨avail, some size, maps⟩ => map ⟨avail, some size, maps⟩
  | small type data => small type data
  | large type buffer => large type buffer

/-- A table as `ComputeArchivedSize` leaves it. -/
def sizedMaps : List Pair → List Pair
  | [] => []
  | (k, v) :: rest => (sized k, sized v) :: sizedMaps rest

end

def replaceValues (v : SValue) (newValues : List SValue) (indices : List ℕ) : SValue :=
  match v with
  | map m => map { m with
      maps := (newValues.zip indices).foldl
        (fun maps p => maps.modify p.2 fun q => (q.1, p.1)) m.maps }
  | v => v

theorem archivedSize_sized : ∀ v : SValue, v.sized.archivedSize = v.archivedSize := by
  intro v
  induction v using SValue.ind with
  | small type data => rw [sized]
  | large type buffer => rw [sized]
  | map m ih =>
    obtain ⟨avail, dataSize, maps⟩ := m
    cases dataSize with
    | some size => rw [sized]
    | none =>
      have hmaps : computeArchivedSize (sizedMaps maps) = computeArchivedSize maps := by
        induction maps with
        | nil => rfl
        | cons p maps ihl =>
          obtain ⟨k, v⟩ := p
          obtain ⟨hk, hv⟩ := ih (k, v) mem_cons_self
          rw [sizedMaps, computeArchivedSize, computeArchivedSize, hk, hv,
            ihl fun p hp => ih p (mem_cons_of_mem _ hp)]
      rw [sized]
      split
      · rename_i h0
        simp only [archivedSize]
        rw [Int.toNat_of_nonneg h0]
      · simp only [archivedSize]
        rw [hmaps]

section Law

variable (flat : BitVec 32 → BitVec 32 → BitVec 32 × BitVec 32)

/-- The parcel that is read: `written` with more bytes behind it, from `pos` on. -/
def reader (written : SParcel) (pos : ℤ) (rest : List Byte) : SParcel :=
  { written with data := written.data ++ rest, pos := pos }

/-- **One value there and back.** `Archive` appends `ArchivedSize` bytes; `Unarchive`
from where they start comes back with that number and an equal value, and goes on
after them. -/
def RoundTrip (v : SValue) (into : SParcel) (rest : List Byte) : Prop :=
  ∃ result written v' source,
    archive flat v into = .ok (result, written) ∧ into.data <+: written.data ∧
    written.length = into.length + v.archivedSize ∧
    unarchive (reader written into.length rest) = .ok (v', v.archivedSize, source) ∧
    v'.compare v = .eq ∧ source.data = written.data ++ rest ∧
    source.pos = into.length + v.archivedSize

/-- Values archived back to back. -/
def archiveAll : List SValue → SParcel → Except Fault SParcel
  | [], into => .ok into
  | v :: vs, into => do
    let (_, into) ← archive flat v into
    archiveAll vs into

/-- As many values unarchived. -/
def unarchiveAll : ℕ → SParcel → Except Fault (List SValue × SParcel)
  | 0, source => .ok ([], source)
  | n + 1, source => do
    let (v, _, source) ← unarchive source
    let (vs, source) ← unarchiveAll n source
    return (v :: vs, source)

/-- **Values back to back there and back.** -/
def RoundTripAll (vs : List SValue) (into : SParcel) (rest : List Byte) : Prop :=
  ∃ written vs' source,
    archiveAll flat vs into = .ok written ∧
    unarchiveAll vs.length (reader written into.length rest) = .ok (vs', source) ∧
    List.Forall₂ (fun v' v => v'.compare v = .eq) vs' vs ∧
    source.data = written.data ++ rest ∧ source.pos = written.length

/-- A value as the round trip asks for it: every node passes `check_integrity`, and there
are no errors and no objects. -/
structure Plain (v : SValue) : Prop where
  sound : v.isSound = true
  errorFree : v.isErrorFree = true
  objectFree : v.objects = []

variable {flat}

theorem at_reader (into : SParcel) (avail : ℤ) (bytes rest : List Byte)
    (hlt : into.length + bytes.length + rest.length < 2 ^ 31) :
    (reader (into.appended bytes avail) into.length rest).At bytes rest := by
  have h0 : 0 ≤ into.length := by unfold SParcel.length; omega
  have hlen : (reader (into.appended bytes avail) into.length rest).length =
      into.length + bytes.length + rest.length := by
    simp only [reader, SParcel.length, SParcel.appended, length_append]
    push_cast
    ring
  refine ⟨h0, by rw [hlen]; simp only [reader]; omega, by rw [hlen]; exact hlt, ?_⟩
  simp [reader, SParcel.appended, SParcel.length]

theorem reads_unarchive {v : SValue} (hv : v.Plain) {source : SParcel} {rest : List Byte}
    (hat : source.At v.wireBytes rest) :
    (v.isUnambiguous = true → ∃ v', unarchive source =
        .ok (v', v.wireSize, source.skip v.wireSize) ∧ v'.code = v.code) ∧
      ∀ {v' : SValue} {n : ℤ} {source' : SParcel},
        unarchive source = .ok (v', n, source') → v'.code = v.code → v.isUnambiguous = true := by
  have hl := hat.length_eq
  have h0 := hat.pos_nonneg
  have hlt := hat.length_lt
  have hw : v.wireBytes.length = v.wireSize := rfl
  have hle : (v.wireSize : ℤ) ≤ source.length := by omega
  have hr := unarchiveInternal_reads v hv.sound hv.objectFree (source.data.length + 1)
    (by unfold SParcel.length at hle; omega)
  exact ⟨hr.ok hat _ (by omega) (by decide), hr.only hat _ (by omega) (by decide)⟩

theorem roundTrip_iff {v : SValue} (hv : v.Plain) {into : SParcel} {rest : List Byte}
    (hend : into.AtEnd) (hlt : into.length + v.wireSize + rest.length < 2 ^ 31) :
    RoundTrip flat v into rest ↔ (2 : ℤ) ^ 32 ∣ v.staleness ∧ v.isUnambiguous = true := by
  have h0 : 0 ≤ into.length := by unfold SParcel.length; omega
  have hw : (v.wireBytes.length : ℤ) = v.wireSize := rfl
  have hsize := archivedSize_iff hv.errorFree hv.objectFree (by omega)
  obtain ⟨avail, ha⟩ := archive_spec flat v into hv.errorFree hv.objectFree hend (by omega)
  have hat := at_reader into avail v.wireBytes rest (by omega)
  constructor
  · rintro ⟨result, written, v', source, harch, -, hlen, hun, hcmp, -, -⟩
    rw [ha, Except.ok.injEq, Prod.mk.injEq] at harch
    obtain ⟨-, rfl⟩ := harch
    rw [into.length_appended] at hlen
    exact ⟨hsize.1 (by omega), (reads_unarchive hv hat).2 hun (compare_eq_iff.1 hcmp)⟩
  · rintro ⟨hd, hu⟩
    have hs := hsize.2 hd
    obtain ⟨v', hv', hc⟩ := (reads_unarchive hv hat).1 hu
    refine ⟨_, _, v', _, ha, prefix_append _ _, ?_, by rw [hs]; exact hv', compare_eq_iff.2 hc, rfl, ?_⟩
    · rw [into.length_appended, hs, hw]
    · rw [hs]
      rfl

theorem archiveAll_spec (flat : BitVec 32 → BitVec 32 → BitVec 32 × BitVec 32) : ∀ (vs : List SValue) (into : SParcel), (∀ v ∈ vs, v.Plain) →
    into.AtEnd → into.length + (vs.map wireSize).sum < 2 ^ 31 →
    ∃ avail, archiveAll flat vs into = .ok (into.appended (vs.flatMap wireBytes) avail) := by
  intro vs
  induction vs with
  | nil =>
    intro into _ hend _
    refine ⟨into.avail, ?_⟩
    have : into.pos = into.length := hend
    simp [archiveAll, SParcel.appended, ← this]
  | cons v vs ih =>
    intro into hp hend hlt
    have hv := hp v mem_cons_self
    have hw : (v.wireBytes.length : ℤ) = v.wireSize := rfl
    rw [map_cons, sum_cons, Nat.cast_add] at hlt
    obtain ⟨a, ha⟩ := archive_spec flat v into hv.errorFree hv.objectFree hend (by omega)
    obtain ⟨b, hb⟩ := ih (into.appended v.wireBytes a) (fun v hv => hp v (mem_cons_of_mem _ hv))
      (into.atEnd_appended _ _) (by rw [into.length_appended]; omega)
    refine ⟨b, ?_⟩
    rw [archiveAll, ha, ok_bind]
    simp only
    rw [hb, into.appended_appended]
    rfl

theorem unarchiveAll_spec : ∀ (vs : List SValue), (∀ v ∈ vs, v.Plain ∧ v.isUnambiguous = true) →
    ∀ {source : SParcel} {rest : List Byte}, source.At (vs.flatMap wireBytes) rest →
    ∃ vs', unarchiveAll vs.length source =
        .ok (vs', source.skip (vs.flatMap wireBytes).length) ∧
      List.Forall₂ (fun v' v => v'.compare v = .eq) vs' vs := by
  intro vs
  induction vs with
  | nil =>
    intro _ source rest _
    exact ⟨[], by simp [unarchiveAll], List.Forall₂.nil⟩
  | cons v vs ih =>
    intro hp source rest hat
    obtain ⟨hv, hu⟩ := hp v mem_cons_self
    rw [flatMap_cons] at hat
    obtain ⟨v', hv', hc⟩ := (reads_unarchive hv hat.left).1 hu
    obtain ⟨vs', hvs', hall⟩ := ih (fun v hv => hp v (mem_cons_of_mem _ hv)) hat.skip
    refine ⟨v' :: vs', ?_, List.Forall₂.cons (compare_eq_iff.2 hc) hall⟩
    rw [length_cons, unarchiveAll, hv', ok_bind]
    simp only
    rw [show v.wireSize = v.wireBytes.length from rfl, hvs', ok_bind, SParcel.skip_skip,
      flatMap_cons, length_append]
    rfl

theorem flatMap_wireBytes_length (vs : List SValue) :
    (vs.flatMap wireBytes).length = (vs.map wireSize).sum := by
  rw [length_flatMap]
  rfl

/-- **Archiving and unarchiving is the identity** for values one at a time and back to
back, exactly when their cached sizes do not show to be off and no large block in them
looks like an object. -/
theorem archive_unarchive_iff (vs : List SValue) (into : SParcel) (rest : List Byte)
    (hplain : ∀ v ∈ vs, v.Plain) (hend : into.AtEnd)
    (hlt : into.length + (vs.map wireSize).sum + rest.length < 2 ^ 31) :
    ((∀ v ∈ vs, RoundTrip flat v into rest) ∧ RoundTripAll flat vs into rest) ↔
      ∀ v ∈ vs, (2 : ℤ) ^ 32 ∣ v.staleness ∧ v.isUnambiguous = true := by
  have hone : ∀ v ∈ vs, RoundTrip flat v into rest ↔
      (2 : ℤ) ^ 32 ∣ v.staleness ∧ v.isUnambiguous = true := by
    intro v hv
    have hle : v.wireSize ≤ (vs.map wireSize).sum := by
      obtain ⟨l, l', rfl⟩ := append_of_mem hv
      simp only [map_append, map_cons, sum_append, sum_cons]
      omega
    exact roundTrip_iff (hplain v hv) hend (by omega)
  constructor
  · rintro ⟨hall, -⟩ v hv
    exact (hone v hv).1 (hall v hv)
  · intro hall
    refine ⟨fun v hv => (hone v hv).2 (hall v hv), ?_⟩
    have hsum := flatMap_wireBytes_length vs
    obtain ⟨avail, ha⟩ := archiveAll_spec flat vs into hplain hend (by omega)
    have hat := at_reader into avail (vs.flatMap wireBytes) rest (by omega)
    obtain ⟨vs', hun, hcmp⟩ := unarchiveAll_spec vs (fun v hv => ⟨hplain v hv, (hall v hv).2⟩) hat
    refine ⟨_, vs', _, ha, hun, hcmp, rfl, ?_⟩
    rw [into.length_appended]
    rfl

end Law

/-- What `WriteBinder` makes of an object that is not a binder. -/
def keepObject (_ object : BitVec 32) : BitVec 32 × BitVec 32 := (object, object)

/-- A block of bytes as a string value. -/
def text (bytes : List Byte) : SValue :=
  large ⟨packLargeType (typeCode 0x737472#32), unpackTypeLength_packLargeType _⟩ bytes

theorem archive_unarchive_nested :
    (let vs := [ofPairs [(int32 1, text [1, 2, 3, 4, 5]), (int32 2, null)], int32 7]
     let into : SParcel := ⟨[9], 1, 8, []⟩
     ((∀ v ∈ vs, RoundTrip keepObject v into [3]) ∧ RoundTripAll keepObject vs into [3]) ↔
       ∀ v ∈ vs, (2 : ℤ) ^ 32 ∣ v.staleness ∧ v.isUnambiguous = true) :=
  archive_unarchive_iff _ _ _
    (by
      intro v hv
      simp only [mem_cons, not_mem_nil, or_false] at hv
      rcases hv with rfl | rfl
      · exact ⟨by decide +kernel, by decide +kernel, by decide +kernel⟩
      · exact ⟨by decide +kernel, by decide +kernel, by decide +kernel⟩)
    rfl (by decide +kernel)

/-- After `ArchivedSize` and then `ReplaceValues` with a longer value, `Archive` appends
more bytes than `ArchivedSize` says; and a block of eight bytes with a type code that ends
in `'*'` does not come back. -/
theorem archive_replaceValues :
    let replaced := (ofPairs [(int32 1, int32 2), (int32 3, int32 4)]).sized.replaceValues
      [text [1, 2, 3, 4, 5]] [0]
    let starred := large ⟨packLargeType (typeCode 0x78782a#32), unpackTypeLength_packLargeType _⟩
      [1, 2, 3, 4, 5, 6, 7, 8]
    (replaced.isNormal = true ∧ replaced.Plain ∧ ¬ RoundTrip keepObject replaced ⟨[], 0, 128, []⟩ []) ∧
      starred.isNormal = true ∧ starred.Plain ∧ ¬ RoundTrip keepObject starred ⟨[], 0, 128, []⟩ [] := by
  intro replaced starred
  have hend : SParcel.AtEnd ⟨[], 0, 128, []⟩ := rfl
  have hr : replaced.Plain := ⟨by decide +kernel, by decide +kernel, by decide +kernel⟩
  have hs : starred.Plain := ⟨by decide +kernel, by decide +kernel, by decide +kernel⟩
  refine ⟨⟨by decide +kernel, hr, ?_⟩, by decide +kernel, hs, ?_⟩
  · rw [roundTrip_iff hr hend (by decide +kernel)]
    decide +kernel
  · rw [roundTrip_iff hs hend (by decide +kernel)]
    decide +kernel

end OpenBinder.SValue
