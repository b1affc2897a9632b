import OpenBinder.Value.Join

/-!
# JoinItem

`JoinItem` has a branch for each kind of key and value, most of them to keep the value
normalised. One branch is left that does not: a set item joined to a simple value that is
this very set item becomes a table of a single `{WILD -> x}` (`isFresh` rules it out).

* `Made`, `initAsMap_spec`: the constructor `SValue(key, value)`.
* `ItemJoined`, `joinItem_spec`: what is in the value afterwards.
-/

namespace OpenBinder.SValue

open Lib List

/-- Whether `JoinItem` can keep the value normalised: it is not given the set item that the
value is already. -/
def isFresh (this key value : SValue) : Bool :=
  !(key.isWild && value.isSimple && this.isSimple && this.isSpecified && !value.isFinal &&
    !value.isNull && decide (this.compare value = .eq))

/-- What joining an item adds. `nested` is what `SValue(key, value)` holds when the key is
a map. -/
def addedDen (nested : PathSet Code Code) (key value : SValue) : PathSet Code Code :=
  if key.isDefined && value.isDefined then
    if key.isWild then value.den
    else if value.isNull then key.den
    else if key.isMap then nested
    else under key.code value.den
  else ∅

/-- What `SValue(key, value)` promises about the value `r` it makes. -/
structure Made (key value r : SValue) : Prop where
  normal : r.isNormal = true
  defined : key.isDefined = true → value.isDefined = true → r.isDefined = true
  errorFree : key.isErrorFree = true → value.isErrorFree = true → r.isErrorFree = true

/-- What `JoinItem` promises about its result `r`. -/
structure ItemJoined (nested : PathSet Code Code) (this key value r : SValue) : Prop where
  normal : r.isNormal = true
  defined : this.isDefined = true ∨ (key.isDefined = true ∧ value.isDefined = true) →
    r.isDefined = true
  errorFree : this.isErrorFree = true → key.isErrorFree = true → value.isErrorFree = true →
    r.isErrorFree = true
  den_eq : this.isErrorFree = true → key.isErrorFree = true → value.isErrorFree = true →
    r.den = if key.isWild && value.isNull && this.isDefined then Set.univ
      else this.den ∪ addedDen nested key value

theorem ItemJoined.same {nested : PathSet Code Code} {this key value : SValue}
    (hn : this.isNormal = true)
    (h : this.isFinal = true ∨ key.isDefined = false ∨ value.isDefined = false) :
    ItemJoined nested this key value this := by
  refine ⟨hn, fun hd => ?_, fun hf _ _ => hf, fun hf _ _ => ?_⟩
  · by_contra hu
    have hc := eq_undefined_code (v := this) (by simpa using hu)
    rcases h with h | h | h
    · rw [isFinal, isWild_code hc, isError_code hc] at h
      exact absurd h (by decide)
    all_goals
      rw [h] at hd
      simp at hd
      exact hu hd
  · rcases h with h | h | h
    · rw [isFinal, isError_of_isErrorFree hf, Bool.or_false] at h
      rw [den_wild h]
      split
      · rfl
      · rw [Set.univ_union]
    all_goals
      have hcond : ¬ ((key.isWild && value.isNull && this.isDefined) = true) := by
        intro hcond
        simp only [Bool.and_eq_true] at hcond
        first
          | rw [isDefined_code (isWild_iff_code.1 hcond.1.1)] at h
            exact absurd h (by decide)
          | have := eq_undefined_code h
            rw [isNull_code this] at hcond
            exact absurd hcond.1.2 (by decide)
      rw [if_neg hcond, addedDen, h]
      simp

variable {v key value : SValue} {flags : Flags}

theorem isDefined_of_isWild (h : v.isWild = true) : v.isDefined = true := by
  rw [isDefined_code (isWild_iff_code.1 h)]; decide

theorem isDefined_of_isError (h : v.isError = true) : v.isDefined = true := by
  have hty : v.mType = kErrorTypeCode := by simpa [isError] using h
  rw [isDefined, hty]; decide

theorem isWild_of_isError (h : v.isError = true) : v.isWild = false := by
  have htype : v.mType = kErrorTypeCode := by simpa [isError] using h
  rw [isWild, htype]
  decide

theorem isWild_of_isNull (h : v.isNull = true) : v.isWild = false := by
  have hty : v.mType = kNullTypeCode := by simpa [isNull] using h
  rw [isWild, hty]; decide

/-- **`JoinItem`**, where `SValue(key, value)` is what it should be: it has a result, which is
normalised and holds what the value and the item hold. -/
theorem joinItemWith_spec {flags : Flags} (hr : flags.noRecursion = false)
    {mkMap : SValue → Option SValue} {nested : PathSet Code Code} {this key value : SValue}
    (hn : this.isNormal = true) (hk : key.isNormal = true) (hv : value.isNormal = true)
    (hfresh : isFresh this key value = true)
    (hmk : key.isWild = false → ∃ made, mkMap value = some made ∧ Made key value made ∧
      (key.isErrorFree = true → value.isErrorFree = true → key.isDefined = true →
        value.isDefined = true → made.den = if key.isMap then nested else under key.code value.den)) :
    ∃ r, joinItemWith mkMap this key value flags = some r ∧ ItemJoined nested this key value r := by
  unfold joinItemWith
  split
  swap
  · rename_i hcond
    refine ⟨this, rfl, ItemJoined.same hn ?_⟩
    cases hfin : this.isFinal
    · cases hkd : key.isDefined
      · exact .inr (.inl rfl)
      · cases hvd : value.isDefined
        · exact .inr (.inr rfl)
        · exact absurd (by simp [hfin, hkd, hvd]) hcond
    · exact .inl rfl
  rename_i hcond
  simp only [Bool.and_eq_true, Bool.not_eq_true'] at hcond
  obtain ⟨⟨hfin, hkd⟩, hvd⟩ := hcond
  have hthis : this.isWild = false ∧ this.isError = false := by simpa [isFinal] using hfin
  have hadd : addedDen nested key value = if key.isWild then value.den
      else if value.isNull then key.den
      else if key.isMap then nested else under key.code value.den := by
    rw [addedDen, hkd, hvd]; rfl
  -- `(wild -> A)`: the value becomes `A`
  split
  · rename_i h1
    simp only [Bool.and_eq_true, Bool.or_eq_true, Bool.not_eq_true'] at h1
    obtain ⟨hkw, h1⟩ := h1
    refine ⟨value, rfl, hv, fun _ => hvd, fun _ _ hf => hf, fun _ _ hf => ?_⟩
    rw [hadd, if_pos hkw]
    rcases h1 with h1 | h1
    · rw [h1, den_undefined h1]
      simp
    · rw [isFinal, isError_of_isErrorFree hf, Bool.or_false] at h1
      have hnull : value.isNull = false := by
        by_contra hnull
        rw [isWild_of_isNull (by simpa using hnull)] at h1; cases h1
      rw [hnull, den_wild h1]
      simp
  rename_i h1
  -- `(wild -> (B -> ...))`
  split
  · rename_i h2
    simp only [Bool.and_eq_true] at h2
    obtain ⟨r, hjr, hj⟩ := join_spec hr value this hn hv
    have hnull : value.isNull = false := by
      have hs : value.isSimple = false := by simpa [isMap_eq_not_isSimple] using h2.2
      obtain ⟨m, rfl⟩ := isSimple_eq_false.1 hs
      exact isNull_map m
    refine ⟨r, hjr, hj.normal, fun _ => hj.defined (.inr hvd), fun hf _ hf' => hj.error_free hf hf',
      fun hf _ hf' => ?_⟩
    rw [hadd, if_pos h2.1, hnull, hj.den_eq hf hf']
    simp
  rename_i h2
  -- `(* -> null)`
  split
  · rename_i h3
    obtain ⟨r, hjr, hj⟩ := join_spec hr key this hn hk
    refine ⟨r, hjr, hj.normal, fun _ => hj.defined (.inr hkd), fun hf hf' _ => hj.error_free hf hf',
      fun hf hf' _ => ?_⟩
    rw [hj.den_eq hf hf', hadd, h3]
    cases hkw : key.isWild with
    | false => simp
    | true =>
      have hd : this.isDefined = true := by
        by_contra hd
        exact h1 (by simp [hkw, hd])
      rw [hd, den_wild hkw]
      simp
  rename_i h3
  have h3 : value.isNull = false := by simpa using h3
  split
  · rename_i h4
    have hkw : key.isWild = false := by
      by_contra hkw
      have hkw : key.isWild = true := by simpa using hkw
      have hc := isWild_iff_code.1 hkw
      have hvf : value.isFinal = false := by
        by_contra hvf
        exact h1 (by simp [hkw, hvf])
      rw [isFinal, Bool.or_eq_false_iff] at hvf
      rw [isMap_eq_not_isSimple, isSimple_code hc, isError_code hc, hvf.2] at h4
      exact absurd h4 (by decide)
    obtain ⟨made, hmade, hm, hden⟩ := hmk hkw
    obtain ⟨r, hjr, hj⟩ := join_spec hr made this hn hm.normal
    refine ⟨r, by rw [hmade]; exact hjr, hj.normal, fun _ => hj.defined (.inr (hm.defined hkd hvd)),
      fun hf hfk hfv => hj.error_free hf (hm.errorFree hfk hfv), fun hf hfk hfv => ?_⟩
    rw [hj.den_eq hf (hm.errorFree hfk hfv), hden hfk hfv hkd hvd, hadd, hkw, h3]
    simp
  rename_i h4
  simp only [Bool.or_eq_true, not_or, Bool.not_eq_true] at h4
  obtain ⟨⟨hkm, hke⟩, hve⟩ := h4
  have hproper : isProper (key, value) = true := by
    refine isProper_iff.2 ⟨hkd, hvd, fun hkw => ⟨?_, ?_⟩⟩
    · by_contra hs
      exact h2 (by simp [hkw, isMap_eq_not_isSimple, hs])
    · by_contra hw
      exact h1 (by simp [hkw, isFinal, hw])
  obtain ⟨r, hjr, hj⟩ := joinPair_added hr (f := fun cur => join flags cur value)
    (Working.of_isNormal hn hthis.1) ⟨hk, hv⟩ hproper fun _ cur hcur => join_spec hr value cur hcur hv
  have hnormal : r.isNormal = true := by
    refine hj.normal (.inl (by simp)) fun _ c => ?_
    by_cases hkey : slot (key, value) = c ++ [0]
    · -- a set item: then the value holds another one, or a key
      have hkw : key.isWild = true := by
        by_contra hkw
        rw [slot_key (by simpa using hkw)] at hkey
        have := (append_inj' hkey rfl).2
        cases this
      rw [slot_wild hkw] at hkey
      have hcode := (append_inj' hkey rfl).1
      have hd : this.isDefined = true := by
        by_contra hd
        exact h1 (by simp [hkw, hd])
      by_cases hs : this.isSimple = true
      · refine ⟨slot (wild, this), .inl ⟨_, ?_, rfl⟩, ?_⟩
        · rw [items_of_isSimple hs, hthis.2, hd]; simp
        · rw [slot_wild (by decide), ← hcode]
          intro h
          have hcmp := compare_eq_iff.2 (append_inj' h rfl).1
          have hvw := ((isProper_iff.1 hproper).2.2 hkw)
          rw [isFresh] at hfresh
          simp [hkw, hvw.1, hs, isSpecified, hd, hthis.1, isFinal, hvw.2, hve, h3, hcmp] at hfresh
      · obtain ⟨m, rfl⟩ := isSimple_eq_false.1 (by simpa using hs)
        obtain ⟨s, hs', hne⟩ := exists_slot_ne hn c
        exact ⟨s, .inl hs', hne⟩
    · exact ⟨_, .inr ⟨_, mem_singleton.2 rfl, rfl⟩, hkey⟩
  have hfree : ∀ (_ : key.isErrorFree = true) (_ : value.isErrorFree = true),
      allErrorFree [(key, value)] = true := fun h h' => allErrorFree_iff.2 (by simpa using ⟨h, h'⟩)
  refine ⟨r, hjr, hnormal, fun _ => ?_, fun hf hfk hfv => hj.error_free hf (hfree hfk hfv),
    fun hf hfk hfv => ?_⟩
  · by_contra hd
    have hc := eq_undefined_code (v := r) (by simpa using hd)
    have he : r.isError = false := by rw [isError_code hc]; decide
    have hs := hj.is_map he (.inl (by simp))
    rw [isSimple_code hc] at hs
    exact absurd hs (by decide)
  · rw [hj.den_eq hf (hfree hfk hfv), hadd, h3, denMaps, denMaps, Set.union_empty]
    cases hkw : key.isWild with
    | false => simp [hkm]
    | true =>
      have hvw := ((isProper_iff.1 hproper).2.2 hkw)
      rw [den_terminal hvw.1 hvw.2 hvd]
      simp

/-! ## The constructor with a key and a value -/

theorem made_single (hk : key.isNormal = true) (hv : value.isNormal = true)
    (hkd : key.isDefined = true) (hvd : value.isDefined = true) (hw : key.isWild = false) :
    Made key value (map ((BValueMap.create 1).setFirstMap key value)) ∧
      (map ((BValueMap.create 1).setFirstMap key value)).den = under key.code value.den := by
  have hproper : isProper (key, value) = true :=
    isProper_iff.2 ⟨hkd, hvd, fun h => by rw [hw] at h; cases h⟩
  refine ⟨⟨isNormal_map.2 ⟨Items.singleton ⟨hk, hv⟩ hproper, cons_ne_nil _ _, hw⟩,
    fun _ _ => isDefined_map _, fun hfk hfv => isErrorFree_map.2 ?_⟩, ?_⟩
  · intro p hp
    rw [mem_singleton.1 hp]
    exact ⟨hfk, hfv⟩
  · rw [den_map, BValueMap.setFirstMap, denMaps, denMaps, hw, Set.union_empty]
    rfl

/-- The cases of the constructor, once `flatten` is known to do its work. -/
theorem initAsMapWith_spec {flatten : Option SValue} (hk : key.isNormal = true)
    (hv : value.isNormal = true)
    (hflat : key.isMap = true → key.isError = false → value.isError = false →
      value.isDefined = true → ∃ r, flatten = some r ∧ Made key value r) :
    ∃ r, initAsMapWith key value flags flatten = some r ∧ Made key value r ∧
      (key.isMap = false ∨ flags.noFlatten = true → key.isWild = false → key.isErrorFree = true →
        value.isErrorFree = true → key.isDefined = true → value.isDefined = true →
        r.den = under key.code value.den) := by
  unfold initAsMapWith
  cases hke : key.isError with
  | true =>
    refine ⟨key, rfl, ⟨hk, fun h _ => h, fun h _ => h⟩, fun _ _ hf => ?_⟩
    rw [isError_of_isErrorFree hf] at hke; cases hke
  | false =>
  cases hve : value.isError with
  | true =>
    refine ⟨value, rfl, ⟨hv, fun _ h => h, fun _ h => h⟩, fun _ _ _ hf => ?_⟩
    rw [isError_of_isErrorFree hf] at hve; cases hve
  | false =>
  cases hkd : key.isDefined with
  | false =>
    exact ⟨undefined, rfl, ⟨rfl, fun h => (by rw [hkd] at h; cases h), fun _ _ => by decide⟩,
      fun _ _ _ _ h => by cases h⟩
  | true =>
  cases hvd : value.isDefined with
  | false =>
    exact ⟨undefined, rfl, ⟨rfl, fun _ h => (by rw [hvd] at h; cases h), fun _ _ => by decide⟩,
      fun _ _ _ _ _ h => by cases h⟩
  | true =>
  cases hkw : key.isWild with
  | true => exact ⟨value, rfl, ⟨hv, fun _ h => h, fun _ h => h⟩, fun _ h => by cases h⟩
  | false =>
  obtain ⟨hm, hden⟩ := made_single hk hv hkd hvd hkw
  by_cases hcond : (!key.isMap || flags.noFlatten) = true
  · exact ⟨_, by simp [hcond], hm, fun _ _ _ _ _ _ => hden⟩
  · obtain ⟨r, hr, hmr⟩ := hflat (by by_contra h; exact hcond (by simp [h])) hke hve hvd
    refine ⟨r, by simp [hcond, hr], hmr, fun h => ?_⟩
    rcases h with h | h <;> exact absurd (by simp [h]) hcond

theorem initAsMap_of_isSimple (h : key.isSimple = true) :
    initAsMap flags key value = initAsMapWith key value flags (some undefined) := by
  cases key with
  | map m => cases (isSimple_map m).symm.trans h
  | _ => rw [initAsMap]; simp

/-- **`SValue(key, value)`** has a result, which is normalised; without flattening it holds
the value under the key. -/
theorem initAsMap_spec : ∀ (key : SValue) (flags : Flags) (value : SValue), key.isNormal = true →
    value.isNormal = true →
    ∃ r, initAsMap flags key value = some r ∧ Made key value r ∧
      (key.isMap = false ∨ flags.noFlatten = true → key.isWild = false → key.isErrorFree = true →
        value.isErrorFree = true → key.isDefined = true → value.isDefined = true →
        r.den = under key.code value.den) := by
  intro key
  induction key using SValue.ind with
  | map m ih =>
    intro flags value hk hv
    obtain ⟨avail, dataSize, maps⟩ := m
    rw [initAsMap]
    refine initAsMapWith_spec hk hv fun _ _ hve hvd => ?_
    obtain ⟨hi, hne, -⟩ := isNormal_map.1 hk
    -- the loop, over any part of the table
    have loop : ∀ l : List Pair, (∀ p ∈ l, p ∈ maps) → ∀ this : SValue, this.isNormal = true →
        ∃ r, initItems this l value = some r ∧ r.isNormal = true ∧
          (this.isDefined = true ∨ l ≠ [] → r.isDefined = true) ∧
          (this.isErrorFree = true → allErrorFree l = true → value.isErrorFree = true →
            r.isErrorFree = true) := by
      intro l
      induction l with
      | nil => intro _ this hn; exact ⟨this, by rw [initItems], hn, by simp, fun h _ _ => h⟩
      | cons p l ihl =>
        intro hsub this hn
        obtain ⟨k, v⟩ := p
        have hp := hsub _ mem_cons_self
        obtain ⟨hkd', hvd', hwild⟩ := isProper_iff.1 (hi.proper _ hp)
        obtain ⟨made, hmade, hm, -⟩ := (ih _ hp).2 Flags.none value (hi.normal _ hp).2 hv
        have hfresh : isFresh this k made = true := by
          -- below a set item there is a map, or an error
          cases hkw : k.isWild with
          | false => simp [isFresh, hkw]
          | true =>
          obtain ⟨hvs, hvw⟩ := hwild hkw
          have hshape : made.isSimple = false ∨ made.isFinal = true := by
            have hinit : initAsMap Flags.none v value =
                initAsMapWith v value Flags.none (some undefined) := by
              cases v with
              | map m => rw [isSimple_map] at hvs; cases hvs
              | _ => rw [initAsMap]; simp
            rw [hinit] at hmade
            unfold initAsMapWith at hmade
            rw [hve, hvd, hvd', hvw, isMap_eq_not_isSimple, hvs] at hmade
            cases hvke : v.isError with
            | true =>
              rw [hvke] at hmade
              cases hmade
              exact .inr (by simp [isFinal, hvke])
            | false =>
              rw [hvke] at hmade
              simp at hmade
              rw [← hmade]
              exact .inl (isSimple_map _)
          rcases hshape with h | h <;> simp [isFresh, h]
        obtain ⟨inner, hinner, hmi, hdi⟩ := (ih _ hp).1 Flags.none made (hi.normal _ hp).1 hm.normal
        obtain ⟨this', hthis', hj⟩ := joinItemWith_spec (rfl : Flags.none.noRecursion = false)
          hn (hi.normal _ hp).1 hm.normal hfresh fun hkw =>
            ⟨inner, hinner, hmi, fun hfk hfm hkd hmd => (by
              cases hkm : k.isMap with
              | true => exact (if_pos rfl).symm
              | false => exact hdi (.inl hkm) hkw hfk hfm hkd hmd)⟩
        obtain ⟨r, hr, hrn, hrd, hrf⟩ :=
          ihl (fun q hq => hsub q (mem_cons_of_mem _ hq)) this' hj.normal
        refine ⟨r, by rw [initItems, hmade]; simp [hthis', hr], hrn, fun _ => ?_, fun hf hl hfv => ?_⟩
        · exact hrd (.inl (hj.defined (.inr ⟨hkd', hm.defined hvd' hvd⟩)))
        · rw [allErrorFree_iff] at hl
          have hfp := hl _ mem_cons_self
          exact hrf (hj.errorFree hf hfp.1 (hm.errorFree hfp.2 hfv))
            (allErrorFree_iff.2 fun q hq => hl q (mem_cons_of_mem _ hq)) hfv
    obtain ⟨r, hr, hn, hd, hf⟩ := loop maps (fun p hp => hp) undefined rfl
    exact ⟨r, hr, hn, fun _ _ => hd (.inr hne), fun hfk hfv =>
      hf (by decide) (allErrorFree_iff.2 (isErrorFree_map.1 hfk)) hfv⟩
  | _ =>
    intro flags value hk hv
    rw [initAsMap]
    · exact initAsMapWith_spec hk hv fun h => by simp [isMap_eq_not_isSimple] at h
    all_goals simp

/-- **`JoinItem`** has a result, which is normalised and holds what the value and the item
hold. -/
theorem joinItem_spec (hr : flags.noRecursion = false) {this : SValue} (hn : this.isNormal = true)
    (hk : key.isNormal = true) (hv : value.isNormal = true) (hfresh : isFresh this key value = true)
    :
    ∃ nested r, joinItem this key value flags = some r ∧ ItemJoined nested this key value r ∧
      (flags.noFlatten = true → nested = under key.code value.den) := by
  obtain ⟨made, hmade, hm, hden⟩ := initAsMap_spec key flags value hk hv
  let nested := if flags.noFlatten then under key.code value.den else made.den
  obtain ⟨r, hjr, hj⟩ := @joinItemWith_spec flags hr (initAsMap flags key) nested this key value
    hn hk hv hfresh fun hkw => ⟨made, hmade, hm, fun hfk hfv hkd hvd => (by
      cases hkm : key.isMap with
      | false => exact hden (.inl hkm) hkw hfk hfv hkd hvd
      | true =>
        cases hfl : flags.noFlatten with
        | false => simp [nested, hfl]
        | true => simpa [nested, hfl] using hden (.inr hfl) hkw hfk hfv hkd hvd)⟩
  exact ⟨nested, r, hjr, hj, fun hfl => if_pos hfl⟩

end OpenBinder.SValue
