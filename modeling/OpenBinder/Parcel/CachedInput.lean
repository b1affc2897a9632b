import OpenBinder.Parcel.Cached
import OpenBinder.Parcel.Hostile

/-!
# Sizes that are read

`unarchive_internal` keeps how far it read as the cached size of a table. That is the size of the
pairs that it made, unless a key or value takes up more or less than it will again:

* an error, which is not archived;
* an object that does not come with eight bytes of data, or whose type word stands for small data.

* `isTidy`: the header of a key or value is none of these.
* `tidyInside`: those of all keys and values are not, at any depth.
* `isTidyParcel`: those of the value in a parcel are not, or it ends in an error.
* `unarchive_isExact`: **what is read from a tidy parcel** has exact cached sizes.
-/

namespace OpenBinder

open Lib

/-- Whether small data takes up what it does again when it is archived. -/
def isTidy (source : SParcel) : Bool :=
  match source.readSmallDataOrObject with
  | .ok ((htype, _), err, _) =>
    decide (typeLengthMax < unpackTypeLength htype) ||
      htype != kErrorTypeCode && err == if isSmallObject htype then 16 else 8
  | .error _ => true

/-- Whether the pairs of a table are tidy. It goes along with `walkMaps`. -/
def tidyMaps (walk : SParcel → ℤ → Except Fault (List Header × ℤ × SParcel))
    (tidy : SParcel → ℤ → Bool) : ℕ → SParcel → ℤ → Bool
  | 0, _, _ => true
  | count + 1, source, remain =>
    isTidy source && tidy source remain &&
      match walk source remain with
      | .error _ => true
      | .ok (_, size, source) =>
        let remain := ssize (remain - size)
        isTidy source && tidy source remain &&
          match walk source remain with
          | .error _ => true
          | .ok (_, size, source) => tidyMaps walk tidy count source (ssize (remain - size))

/-- Whether the keys and values inside of a value are tidy. It goes along with `walk`. -/
def tidyInside : ℕ → SParcel → ℤ → Bool
  | 0, _, _ => true
  | fuel + 1, source, avail =>
    match source.readSmallDataOrObject with
    | .error _ => true
    | .ok ((htype, _), _, source) =>
      decide (unpackTypeLength htype ≤ typeLengthMax ∨ unpackTypeLength htype = typeLengthLarge) ||
        match source.readSmallData with
        | .error _ => true
        | .ok ((count, _), _, source) =>
          tidyMaps (walk fuel) (tidyInside fuel) count.toNat source (ssize (avail - 16))

/-- **Whether the value in a parcel is tidy**: it ends in an error, or what is in its tables is. -/
def isTidyParcel (source : SParcel) : Bool :=
  match walk (source.data.length + 1) source 0x7fffffff with
  | .error _ => true
  | .ok (headers, _, _) => headers.isEmpty || tidyInside (source.data.length + 1) source 0x7fffffff

namespace SValue

/-- **What a reader makes of tidy bytes**: exact cached sizes, and a size that is the result. -/
def Exactly (source : SParcel) (tidy : Bool) (v : SValue) (n : ℤ) : Prop :=
  tidy = true → v.isExact = true ∧ (0 ≤ n → isTidy source = true → v.archivedSize = n)

variable {source p : SParcel} {n : ℤ} {v : SValue} {htype : BitVec 32}

theorem exact_failed {err : ℤ} (h : failed err source = (v, n, p)) :
    v.isExact = true ∧ (0 ≤ n → v.archivedSize = n) := by
  obtain ⟨rfl, hrest⟩ := Prod.mk.inj h
  obtain ⟨rfl, -⟩ := Prod.mk.inj hrest
  exact ⟨rfl, fun hn => absurd (failed_neg err) (by omega)⟩

theorem archivedSize_of_isTidy {hdata : BitVec 32} {err : ℤ}
    (hr : source.readSmallDataOrObject = .ok ((htype, hdata), err, p))
    (h : unpackTypeLength htype ≤ typeLengthMax) (ht : isTidy source = true) :
    (small ⟨htype, h⟩ hdata).archivedSize = err := by
  unfold isTidy at ht
  rw [hr] at ht
  simp only [Bool.or_eq_true, Bool.and_eq_true, decide_eq_true_eq, bne_iff_ne, beq_iff_eq] at ht
  obtain ⟨hne, rfl⟩ : htype ≠ kErrorTypeCode ∧ err = if isSmallObject htype then 16 else 8 :=
    ht.resolve_left (by omega)
  have herr : (small ⟨htype, h⟩ hdata).isError = false := by
    simpa [isError, mType] using hne
  rw [archivedSize, herr, if_neg Bool.false_ne_true]
  rfl

theorem archivedSize_empty (h : unpackTypeLength (packSmallType htype 0) ≤ typeLengthMax) :
    (small ⟨packSmallType htype 0, h⟩ 0).archivedSize = 8 := by
  have hlen := unpackTypeLength_packSmallType htype (Nat.zero_le typeLengthMax)
  have herr : (small ⟨packSmallType htype 0, h⟩ 0).isError = false := by
    rw [isError, mType, beq_eq_false_iff_ne]
    intro hc
    have hcode := congrArg unpackTypeLength hc
    exact absurd (hlen.symm.trans hcode) (by decide)
  have hobj : (small ⟨packSmallType htype 0, h⟩ 0).isObject = false := by
    rw [isObject, mType, Bool.eq_false_iff]
    intro hc
    have hfour := isSmallObject_length hc
    exact absurd (hlen.symm.trans hfour) (by decide)
  rw [archivedSize, herr, hobj, if_neg Bool.false_ne_true, if_neg Bool.false_ne_true]

theorem unarchiveLarge_exactly {hdata : BitVec 32}
    (h : unarchiveLarge htype hdata source = .ok (v, n, p)) :
    v.isExact = true ∧ (0 ≤ n → v.archivedSize = n) := by
  unfold unarchiveLarge at h
  dsimp only at h
  split at h
  · rename_i hle
    obtain ⟨⟨bytes, err, s⟩, hread, h⟩ := bind_eq_ok.1 h
    dsimp only at h
    split at h
    · exact exact_failed (Except.ok.inj h)
    · rename_i herr
      obtain ⟨rfl, hrest⟩ := Prod.mk.inj (Except.ok.inj h)
      obtain ⟨rfl, -⟩ := Prod.mk.inj hrest
      refine ⟨rfl, fun _ => ?_⟩
      -- eight bytes do not fit into the value, so there are none
      have h0 : hdata.toNat = 0 := by
        by_contra hc
        have := SParcel.read_length hread
        rw [valueDataAlign_small (by omega) hle] at herr
        omega
      simp only [h0]
      exact archivedSize_empty _
  · split at h
    · cases h
    obtain ⟨⟨bytes, err, s⟩, hread, h⟩ := bind_eq_ok.1 h
    dsimp only at h
    split at h
    · exact exact_failed (Except.ok.inj h)
    · rename_i hlen herr
      obtain ⟨rfl, hrest⟩ := Prod.mk.inj (Except.ok.inj h)
      obtain ⟨rfl, -⟩ := Prod.mk.inj hrest
      refine ⟨rfl, fun _ => ?_⟩
      have hamt := (SParcel.read_length hread).1
      have htake : (bytes.take hdata.toNat).length = hdata.toNat := by
        rw [List.length_take]
        omega
      rw [archivedSize, htake]

theorem createMaps_exactly {f : SParcel → ℤ → Except Fault (SValue × ℤ × SParcel)}
    {walk : SParcel → ℤ → Except Fault (List Header × ℤ × SParcel)} {tidy : SParcel → ℤ → Bool}
    (hf : ∀ source avail v n p, f source avail = .ok (v, n, p) →
      (∃ headers, walk source avail = .ok (headers, n, p)) ∧
        Exactly source (tidy source avail) v n) :
    ∀ (count room : ℕ) (source : SParcel) (remain : ℤ) {err remain' : ℤ} {maps : List Pair}
      {p : SParcel}, createMaps f count room source remain = .ok (err, maps, remain', p) → 0 ≤ err →
      tidyMaps walk tidy count source remain = true →
      allExact maps = true ∧ ssize (remain - remain') = computeArchivedSize maps := by
  intro count
  induction count with
  | zero =>
    intro room source remain err remain' maps p h _ _
    rw [createMaps, Except.ok.injEq, Prod.mk.injEq, Prod.mk.injEq, Prod.mk.injEq] at h
    obtain ⟨-, rfl, rfl, -⟩ := h
    exact ⟨rfl, by rw [sub_self]; rfl⟩
  | succ count ih =>
    intro room source remain err remain' maps p h herr ht
    cases room with
    | zero => simp [createMaps] at h
    | succ room =>
      obtain ⟨key, n, s₁, value, n', s₂, rest, hk, hn, hv, hn', hr, rfl⟩ := (createMaps_succ herr).1 h
      obtain ⟨⟨_, hwk⟩, hek⟩ := hf _ _ _ _ _ hk
      obtain ⟨⟨_, hwv⟩, hev⟩ := hf _ _ _ _ _ hv
      rw [tidyMaps, hwk] at ht
      simp only [Bool.and_eq_true] at ht
      rw [hwv] at ht
      obtain ⟨⟨htk, hik⟩, ⟨htv, hiv⟩, htr⟩ := ht
      obtain ⟨hek, hsk⟩ := hek hik
      obtain ⟨hev, hsv⟩ := hev hiv
      obtain ⟨her, hsr⟩ := ih _ _ _ hr herr htr
      refine ⟨?_, ?_⟩
      · rw [show allExact ((key, value) :: rest) = (isExact key && (isExact value && allExact rest))
          from rfl, hek, hev, her]
        rfl
      · rw [computeArchivedSize, hsk hn htk, hsv hn' htv, ← hsr]
        simp only [ssize_ssize_sub, ssize_add_ssize]
        rw [ssize_eq, ssize_eq]
        omega

theorem headers_of_along {b : Except Fault (List Header × ℤ × SParcel)}
    (h : Along source (.ok (v, n, p)) b) :
    ∃ headers, b = .ok (headers, n, p) ∧ (headers = [] → v.isExact = true) := by
  generalize ha : Except.ok (v, n, p) = a at h
  cases h with
  | fault e => cases ha
  | failed err source' =>
    have hexact := (exact_failed (Except.ok.inj ha).symm).1
    obtain ⟨-, hrest⟩ := Prod.mk.inj (Except.ok.inj ha)
    obtain ⟨rfl, rfl⟩ := Prod.mk.inj hrest
    exact ⟨_, rfl, fun _ => hexact⟩
  | value acquired made =>
    obtain ⟨-, hrest⟩ := Prod.mk.inj (Except.ok.inj ha)
    obtain ⟨rfl, rfl⟩ := Prod.mk.inj hrest
    refine ⟨_, rfl, fun hnil => ?_⟩
    have hmade := made.mType
    rw [hnil] at hmade
    cases hmade

theorem unarchiveInternal_exactly : ∀ (fuel : ℕ) (source : SParcel) (avail : ℤ) (v : SValue) (n : ℤ)
    (p : SParcel), unarchiveInternal fuel source avail = .ok (v, n, p) →
      Exactly source (tidyInside fuel source avail) v n := by
  intro fuel
  induction fuel with
  | zero => intro source avail v n p h; cases h
  | succ fuel ih =>
    intro source avail v n p h ht
    have hfailed : ∀ {err s}, failed err s = (v, n, p) →
        v.isExact = true ∧ (0 ≤ n → isTidy source = true → v.archivedSize = n) :=
      fun heq => ⟨(exact_failed heq).1, fun hn _ => (exact_failed heq).2 hn⟩
    rw [unarchiveInternal] at h
    split at h
    · exact hfailed (Except.ok.inj h)
    obtain ⟨⟨⟨htype, hdata⟩, err, source'⟩, hr, h⟩ := bind_eq_ok.1 h
    rw [tidyInside, hr] at ht
    dsimp only at h ht
    split at h
    · exact hfailed (Except.ok.inj h)
    split at h
    · rename_i hl
      obtain ⟨rfl, hrest⟩ := Prod.mk.inj (Except.ok.inj h)
      obtain ⟨rfl, -⟩ := Prod.mk.inj hrest
      exact ⟨rfl, fun _ htidy => archivedSize_of_isTidy hr hl htidy⟩
    rename_i hl
    split at h
    · obtain ⟨hexact, hsize⟩ := unarchiveLarge_exactly h
      exact ⟨hexact, fun hn _ => hsize hn⟩
    rename_i hll
    obtain ⟨⟨⟨count, order⟩, err', s⟩, hr', h⟩ := bind_eq_ok.1 h
    rw [hr'] at ht
    split at h
    · exact hfailed (Except.ok.inj h)
    split at h
    · cases h
    · obtain ⟨⟨err'', maps, remain, s'⟩, hm, h⟩ := bind_eq_ok.1 h
      split at h
      · exact hfailed (Except.ok.inj h)
      split at h
      · exact hfailed (Except.ok.inj h)
      rename_i hsize
      obtain ⟨rfl, hrest⟩ := Prod.mk.inj (Except.ok.inj h)
      obtain ⟨rfl, -⟩ := Prod.mk.inj hrest
      have hin : tidyMaps (walk fuel) (tidyInside fuel) count.toNat s (ssize (avail - 16)) = true := by
        simpa [hl, hll] using ht
      have hstep : ∀ source avail v n p, unarchiveInternal fuel source avail = .ok (v, n, p) →
          (∃ headers, walk fuel source avail = .ok (headers, n, p)) ∧
            Exactly source (tidyInside fuel source avail) v n := by
        intro source avail v n p hf
        have halong := unarchiveInternal_along fuel source avail
        rw [hf] at halong
        obtain ⟨headers, hw, -⟩ := headers_of_along halong
        exact ⟨⟨headers, hw⟩, ih source avail v n p hf⟩
      obtain ⟨hexact, hsum⟩ := createMaps_exactly hstep _ _ _ _ hm (by omega) hin
      have hdata := Int.toNat_of_nonneg (Int.not_lt.1 hsize)
      refine ⟨isExact_map.2 ⟨fun size hs => ?_, hexact⟩, fun _ _ => ?_⟩
      · obtain rfl := Option.some.inj hs
        rw [hdata, hsum]
      · rw [archivedSize, hdata]

/-- **What is read from a tidy parcel** has exact cached sizes. -/
theorem unarchive_isExact (h : unarchive source = .ok (v, n, p)) (ht : isTidyParcel source = true) :
    v.isExact = true := by
  have halong := unarchiveInternal_along (source.data.length + 1) source 0x7fffffff
  unfold unarchive at h
  rw [h] at halong
  obtain ⟨headers, hw, hnil⟩ := headers_of_along halong
  unfold isTidyParcel at ht
  rw [hw] at ht
  simp only [Bool.or_eq_true, List.isEmpty_iff] at ht
  rcases ht with hempty | htidy
  · exact hnil hempty
  · exact (unarchiveInternal_exactly _ _ _ _ _ _ h htidy).1

end SValue

end OpenBinder
