import OpenBinder.Value.Rebuild

/-!
# MapValues and its formal definition

`MapValues` returns a value as it is when the other one is `WILD`, and the other one when that is an
error. The formal definition joins the items all the same.

* `joinAll_error_iff`: when joining items that find an error gives this error.
* `mapValues_correct`: **when `MapValues` computes its formal definition** and gives a normalised
  value.
-/

namespace OpenBinder.SValue

open Lib List

/-- Whether joining what an error has for the values of these items gives the error. `started` is
whether an item was joined already. -/
def meetsError (b : SValue) : Bool → List Pair → Bool
  | _, [] => false
  | started, (key, value) :: rest =>
    if value.compare b = .eq then
      -- the error has `NULL` for itself
      if key.isError then decide (key.compare b = .eq)
      else if key.isWild then !started && meetsError b true rest
      else key.isErrorFree && meetsError b true rest
    else !key.isError || decide (key.compare b = .eq)

variable {flags : Flags} {a b out key value r : SValue} {l : List Pair}

/-! ## When the other value is an error -/

theorem found_error (hb : b.isError = true) :
    found flags b value = if value.compare b = .eq then null else b := by
  have hs : b.isSimple = true := by
    by_contra hs
    obtain ⟨m, rfl⟩ := isSimple_eq_false.1 (by simpa using hs)
    cases (isError_map m).symm.trans hb
  have hw : b.isWild = false := isWild_of_isError hb
  have hfor : ∀ v : SValue, b.valueFor v = if v.compare b = .eq then null else b := by
    intro v
    unfold valueFor
    cases hv : v.isWild with
    | true =>
      rw [if_pos rfl, if_neg]
      intro hc
      rw [isWild_code (compare_eq_iff.1 hc), hw] at hv
      cases hv
    | false =>
      rw [if_neg Bool.false_ne_true]
      cases b with
      | map m => cases (isSimple_map m).symm.trans hs
      | _ => simp only [hw, hb]; rfl
  by_cases hvs : value.isSimple = true
  · rw [found, valueForFlags_of_isSimple hvs]
    exact hfor value
  · obtain ⟨⟨avail, dataSize, maps⟩, rfl⟩ := isSimple_eq_false.1 (by simpa using hvs)
    have hne : ¬ (map ⟨avail, dataSize, maps⟩ : SValue).compare b = .eq := by
      intro hc
      rw [isSimple_code (compare_eq_iff.1 hc), hs] at hvs
      exact hvs rfl
    rw [found, valueForFlags, hfor, if_neg hne, hb, if_pos rfl]
    cases flags.noRecursion <;> rfl

theorem joinItem_value_error (hf : out.isFinal = false) (hkd : key.isDefined = true)
    (hb : b.isError = true) :
    joinItem out key b Flags.none = some (if key.isError then key else b) := by
  have hbd := isDefined_of_isError hb
  have hbf : b.isFinal = true := by rw [isFinal, hb, Bool.or_true]
  have hbn : b.isNull = false := Composed.isNull (.inl hb)
  unfold joinItem joinItemWith
  rw [hf, hkd, hbd, hbf, hbn, hb]
  cases hk : key.isWild with
  | true =>
    have hke : key.isError = false := by
      rw [isError_code (isWild_iff_code.1 hk)]
      decide
    rw [hke]
    cases out.isDefined <;> rfl
  | false =>
    have hmade : initAsMap Flags.none key b = some (if key.isError then key else b) := by
      have hwith : ∀ flatten, initAsMapWith key b Flags.none flatten =
          some (if key.isError then key else b) := fun flatten => by
        unfold initAsMapWith
        rw [hb]
        cases key.isError <;> rfl
      cases key with
      | map m =>
        rw [initAsMap, hwith]
      | _ =>
        rw [initAsMap, hwith]
        all_goals simp
    have hfinal : (if key.isError then key else b).isFinal = true := by
      split
      · rename_i hke
        rw [isFinal, hke, Bool.or_true]
      · exact hbf
    rw [Bool.or_true, Bool.or_true, hmade]
    exact join_final hfinal

theorem joinItem_value_null (hf : out.isFinal = false) (hkd : key.isDefined = true) :
    joinItem out key null Flags.none =
      if key.isWild && !out.isDefined then some null else join Flags.none out key := by
  have h1 : null.isDefined = true := by decide
  have h2 : null.isFinal = false := by decide
  have h3 : null.isMap = false := by decide
  have h4 : null.isNull = true := by decide
  unfold joinItem joinItemWith
  rw [hf, hkd, h1, h2, h3, h4, Bool.or_false, Bool.and_false]
  rfl

theorem join_not_wild (hr : flags.noRecursion = false) {x y : SValue} (hn : x.isNormal = true)
    (hy : y.isNormal = true) (hd : y.isDefined = true) (hxw : x.isWild = false)
    (hyw : y.isWild = false) (h : join flags x y = some r) : r.isWild = false := by
  obtain ⟨r', hr', hcases⟩ := join_cases hr (Working.of_isNormal hn hxw) hy hd
  obtain ⟨⟩ := h.symm.trans hr'
  rcases hcases with ⟨-, rfl⟩ | ⟨-, -, -, hadd⟩ | ⟨-, -, rfl⟩
  · exact hyw
  · rcases hadd.working with he | ⟨-, hw⟩
    · exact Composed.isWild (.inl he)
    · exact hw
  · exact hxw

/-- **Joining what an error has for the items** gives the error, when the first item that it is not
itself the value of, or that has an error for its key, comes before the set item that it is. -/
theorem joinAll_error_iff (hb : b.isError = true)
    (hl : ∀ p ∈ l, p.1.isNormal = true ∧ p.1.isDefined = true) (hn : out.isNormal = true)
    (hfree : out.isErrorFree = true) (hw : out.isWild = false)
    (h : joinAll (l.map fun p => (p.1, found flags b p.2)) out = some r) :
    (meetsError b out.isDefined l = true → r.code = b.code) ∧
      ((∀ p ∈ l, p.1.isSimple = true ∨ p.1.isErrorFree = true) → r.code = b.code →
        meetsError b out.isDefined l = true) := by
  induction l generalizing out with
  | nil =>
    obtain ⟨⟩ := h
    refine ⟨fun hm => absurd hm (by simp [meetsError]), fun _ hc => ?_⟩
    have he := isError_of_isErrorFree hfree
    rw [isError_code hc, hb] at he
    cases he
  | cons p l ih =>
    obtain ⟨key, value⟩ := p
    obtain ⟨hkn, hkd⟩ := hl _ mem_cons_self
    have hl' := fun q hq => hl q (mem_cons_of_mem _ hq)
    have hfin : out.isFinal = false := by rw [isFinal, hw, isError_of_isErrorFree hfree]; rfl
    rw [map_cons, joinAll_cons] at h
    obtain ⟨this, hthis, hrest⟩ := Option.bind_eq_some_iff.1 h
    rw [found_error hb] at hthis
    rw [meetsError]
    by_cases hvb : value.compare b = .eq
    · rw [if_pos hvb] at hthis ⊢
      rw [joinItem_value_null hfin hkd] at hthis
      cases hke : key.isError with
      | true =>
        have hkf : key.isFinal = true := by rw [isFinal, hke, Bool.or_true]
        have hkw : key.isWild = false := isWild_of_isError hke
        rw [hkw, Bool.false_and, if_neg Bool.false_ne_true, join_final hkf] at hthis
        obtain ⟨⟩ := hthis
        rw [joinAll_final hkf] at hrest
        obtain ⟨⟩ := hrest
        rw [if_pos rfl, decide_eq_true_eq, compare_eq_iff]
        exact ⟨id, fun _ => id⟩
      | false =>
        rw [if_neg Bool.false_ne_true]
        cases hkw : key.isWild with
        | true =>
          rw [hkw, Bool.true_and] at hthis
          rw [if_pos rfl]
          cases hd : out.isDefined with
          | true =>
            -- a set item `NULL` that comes later makes it `WILD`
            have hkf : key.isFinal = true := by rw [isFinal, hkw]; rfl
            rw [hd, Bool.not_true, if_neg Bool.false_ne_true, join_final hkf] at hthis
            obtain ⟨⟩ := hthis
            rw [joinAll_final hkf] at hrest
            obtain ⟨⟩ := hrest
            refine ⟨fun hm => absurd hm (by simp), fun _ hc => ?_⟩
            rw [isError_code hc, hb] at hke
            cases hke
          | false =>
            rw [hd, Bool.not_false, if_pos rfl] at hthis
            obtain ⟨⟩ := hthis
            have ih := ih hl' (by decide) (by decide) (by decide) hrest
            have hnd : null.isDefined = true := by decide
            rw [hnd] at ih
            exact ⟨ih.1, fun hk => ih.2 fun q hq => hk q (mem_cons_of_mem _ hq)⟩
        | false =>
          rw [hkw, Bool.false_and, if_neg Bool.false_ne_true] at hthis
          rw [if_neg Bool.false_ne_true]
          obtain ⟨this', hthis', hj⟩ := join_spec (rfl : Flags.none.noRecursion = false) key out hn
            hkn
          obtain ⟨⟩ := hthis.symm.trans hthis'
          have hd := hj.defined (.inr hkd)
          cases hkf : key.isErrorFree with
          | true =>
            have ih := ih hl' hj.normal (hj.error_free hfree hkf)
              (join_not_wild rfl hn hkn hkd hw hkw hthis) hrest
            rw [hd] at ih
            exact ⟨ih.1, fun hk => ih.2 fun q hq => hk q (mem_cons_of_mem _ hq)⟩
          | false =>
            refine ⟨fun hm => absurd hm (by simp), fun hk _ => ?_⟩
            rcases hk _ mem_cons_self with hs | hf
            · have hfree := isErrorFree_of_isSimple hs hke
              rw [hkf] at hfree
              cases hfree
            · rw [hkf] at hf; cases hf
    · rw [if_neg hvb] at hthis ⊢
      rw [joinItem_value_error hfin hkd hb] at hthis
      obtain ⟨⟩ := hthis
      have hfinal : (if key.isError then key else b).isFinal = true := by
        split
        · rename_i hke
          rw [isFinal, hke, Bool.or_true]
        · rw [isFinal, hb, Bool.or_true]
      rw [joinAll_final hfinal] at hrest
      obtain ⟨⟩ := hrest
      cases hke : key.isError with
      | true =>
        rw [if_pos rfl, Bool.not_true, Bool.false_or, decide_eq_true_eq, compare_eq_iff]
        exact ⟨id, fun _ => id⟩
      | false => exact ⟨fun _ => rfl, fun _ _ => rfl⟩

theorem foundItems_error (hb : b.isError = true) :
    foundItems flags b l = l.map fun p => (p.1, found flags b p.2) := by
  refine filter_eq_self.2 fun p hp => ?_
  obtain ⟨q, -, rfl⟩ := mem_map.1 hp
  show (found flags b q.2).isDefined = true
  rw [found_error hb]
  split
  · decide
  · exact isDefined_of_isError hb

/-! ## When the other value is `WILD` -/

theorem found_wild (hb : b.isWild = true) :
    found flags b value = if value.isWild then b else value := by
  have hs : b.isSimple = true := by
    rw [isSimple_code (isWild_iff_code.1 hb)]
    decide
  have he : b.isError = false := by
    rw [isError_code (isWild_iff_code.1 hb)]
    decide
  have hfor : b.valueFor value = if value.isWild then b else value := by
    unfold valueFor
    cases b with
    | map m => cases (isSimple_map m).symm.trans hs
    | _ => simp only [hb]; rfl
  by_cases hvs : value.isSimple = true
  · rw [found, valueForFlags_of_isSimple hvs]
    exact hfor
  · obtain ⟨⟨avail, dataSize, maps⟩, rfl⟩ := isSimple_eq_false.1 (by simpa using hvs)
    rw [found, valueForFlags, hfor, isWild_map, he, hb]
    cases flags.noRecursion <;> rfl

theorem found_wild_code (hb : b.isWild = true) : (found flags b value).code = value.code := by
  rw [found_wild hb]
  split
  · rename_i hv
    rw [isWild_iff_code.1 hb, isWild_iff_code.1 hv]
  · rfl

/-- **What `WILD` finds for the items of a map** are these items. -/
theorem foundItems_wild (hb : b.isWild = true) (hbn : b.isNormal = true) {m : BValueMap SValue}
    (hn : (map m).isNormal = true) : ∃ m', m'.maps = foundItems flags b m.maps ∧
      (map m').isNormal = true ∧ (map m').code = (map m).code ∧
        rebuilds m'.maps = rebuilds m.maps := by
  obtain ⟨hi, hne, hr⟩ := isNormal_map.1 hn
  have hfound : foundItems flags b m.maps = m.maps.map fun p => (p.1, found flags b p.2) := by
    refine filter_eq_self.2 fun p hp => ?_
    obtain ⟨q, hq, rfl⟩ := mem_map.1 hp
    show (found flags b q.2).isDefined = true
    rw [isDefined_code (found_wild_code hb)]
    exact (isProper_iff.1 (hi.proper q hq)).2.1
  have hcode : ∀ p : Pair, (found flags b p.2).code = p.2.code := fun p => found_wild_code hb
  refine ⟨⟨m.avail, m.dataSize, foundItems flags b m.maps⟩, rfl, ?_, ?_, ?_⟩
  · refine isNormal_map.2 ⟨?_, by simpa [hfound] using hne, ?_⟩
    · show Items (foundItems flags b m.maps)
      rw [hfound]
      refine Items.of_table (hi.table.of_map ?_) (fun p hp => ?_) fun p hp => ?_
      · rw [map_map]
        exact map_congr_left fun p _ => (slot_of_code rfl (hcode p)).symm
      · obtain ⟨q, hq, rfl⟩ := mem_map.1 hp
        exact ⟨(hi.normal q hq).1, isNormal_found hbn (hi.normal q hq).2⟩
      · obtain ⟨q, hq, rfl⟩ := mem_map.1 hp
        have hp := isProper_iff.1 (hi.proper q hq)
        rw [isProper_iff, isDefined_code (hcode q), isSimple_code (hcode q), isWild_code (hcode q)]
        exact hp
    · show isRedundant (foundItems flags b m.maps) = false
      rw [hfound]
      cases hm : m.maps with
      | nil => rfl
      | cons p l =>
        rw [hm] at hr
        cases l with
        | nil => exact hr
        | cons q l => rfl
  · refine (code_of_forall₂ ?_).symm
    show List.Forall₂ _ m.maps (foundItems flags b m.maps)
    rw [hfound, forall₂_map_right_iff, forall₂_same]
    exact fun p _ => ⟨rfl, (hcode p).symm⟩
  · show rebuilds (foundItems flags b m.maps) = rebuilds m.maps
    rw [hfound]
    have hplain : ∀ p : Pair, isPlain (p.1, found flags b p.2) = isPlain p := fun p => by
      unfold isPlain
      rw [isError_code (hcode p), isNull_code (hcode p)]
    cases m.maps with
    | nil => rfl
    | cons p l =>
      rw [map_cons, rebuilds, rebuilds, hplain, all_map]
      congr 2
      funext q
      show (isPlain (q.1, found flags b q.2) && !(found flags b q.2).isNull) = _
      rw [hplain, isNull_code (hcode q)]

/-! ## The law -/

/-- What `MapValues` is to give: the same as its formal definition, and normalised. -/
def MapsAsDefined (flags : Flags) (a b : SValue) : Prop :=
  ∃ r r', mapValuesCopy flags a b = some r ∧ correctMapValues flags a b = some r' ∧
    r.compare r' = .eq ∧ r.isNormal = true

/-- When it does. -/
structure MapsWell (flags : Flags) (a b : SValue) : Prop where
  not_error : a.isError = false
  error : b.isError = true → a.isSpecified = true ∧ meetsError b false a.items = true
  wild : b.isWild = true → rebuilds a.items = true
  other : b.isFinal = false → ¬ Repeats (foundItems flags b a.items)

theorem correctMapValues_eq (hb : b.isNormal = true) (ha : ∀ p ∈ a.items, p.2.isNormal = true) :
    correctMapValues flags a b = joinAll (foundItems flags b a.items) undefined :=
  (mapItems_eq hb ha undefined).2

theorem items_joinable (ha : a.isNormal = true) : ∀ p ∈ a.items, Joinable p := by
  by_cases hs : a.isSimple = true
  · intro p hp
    rw [items_of_isSimple hs] at hp
    cases hd : a.isDefined <;> cases he : a.isError <;> simp [hd, he] at hp
    subst hp
    exact ⟨rfl, ha, show SValue.wild.isDefined = true by decide, hd⟩
  · obtain ⟨m, rfl⟩ := isSimple_eq_false.1 (by simpa using hs)
    exact (isNormal_map.1 ha).1.joinable

theorem foundItems_joinable (hb : b.isNormal = true) (hl : ∀ p ∈ l, Joinable p) :
    ∀ p ∈ foundItems flags b l, Joinable p := by
  intro p hp
  obtain ⟨hp, hd⟩ := mem_filter.1 hp
  obtain ⟨q, hq, rfl⟩ := mem_map.1 hp
  exact ⟨(hl q hq).key, isNormal_found hb (hl q hq).value, (hl q hq).key_defined, hd⟩

theorem mapsAsDefined_error (hb : b.isNormal = true) (he : a.isError = true) :
    ¬ MapsAsDefined flags a b := by
  have hs : a.isSimple = true := by
    by_contra hs
    obtain ⟨m, rfl⟩ := isSimple_eq_false.1 (by simpa using hs)
    cases (isError_map m).symm.trans he
  have hitems : a.items = [] := by rw [items_of_isSimple hs, he]; rfl
  rintro ⟨r, r', hr, hr', hc, -⟩
  unfold mapValuesCopy at hr
  rw [he] at hr
  obtain ⟨⟩ := hr
  rw [correctMapValues_eq hb (by rw [hitems]; simp), hitems] at hr'
  obtain ⟨⟩ := hr'
  rw [isError_code (compare_eq_iff.1 hc)] at he
  exact absurd he (by decide)

/-- When the other value is neither `WILD` nor an error, both join the same items. -/
theorem mapsAsDefined_other (ha : a.isNormal = true) (hb : b.isNormal = true)
    (he : a.isError = false) (hf : b.isFinal = false) :
    MapsAsDefined flags a b ↔ ¬ Repeats (foundItems flags b a.items) := by
  have hl := items_joinable ha
  have hn : ∀ p ∈ a.items, p.2.isNormal = true := fun p hp => (hl p hp).value
  obtain ⟨x, hx, hiff⟩ := joinAll_spec (@foundItems_joinable flags b a.items hb hl)
  have hcopy : mapValuesCopy flags a b = some x := by
    unfold mapValuesCopy
    rw [he, hf, ← hx]
    exact (mapItems_eq hb hn undefined).1
  have hcorrect : correctMapValues flags a b = some x := (correctMapValues_eq hb hn).trans hx
  rw [← hiff]
  constructor
  · rintro ⟨r, r', hr, -, -, hn⟩
    obtain ⟨⟩ := hr.symm.trans hcopy
    exact hn
  · exact fun hn => ⟨x, x, hcopy, hcorrect, compare_eq_iff.2 rfl, hn⟩

theorem joinAll_one (hd : r.isDefined = true) :
    joinAll [(SValue.wild, r)] undefined = some r := by
  have hj : joinItem undefined SValue.wild r Flags.none = some r := by
    unfold joinItem joinItemWith
    rw [hd]
    rfl
  rw [joinAll_cons, hj]
  rfl

/-- **When the other value is `WILD`**, the value is to be given back. -/
theorem mapsAsDefined_wild (ha : a.isNormal = true) (hb : b.isNormal = true)
    (he : a.isError = false) (hw : b.isWild = true) :
    MapsAsDefined flags a b ↔ rebuilds a.items = true := by
  have hn : ∀ p ∈ a.items, p.2.isNormal = true := fun p hp => (items_joinable ha p hp).value
  have hf : b.isFinal = true := by rw [isFinal, hw]; rfl
  have hcopy : mapValuesCopy flags a b = some a := by
    unfold mapValuesCopy
    rw [he, hf, hw]
    rfl
  have hiff : MapsAsDefined flags a b ↔
      ∃ r', joinAll (foundItems flags b a.items) undefined = some r' ∧ r'.code = a.code := by
    unfold MapsAsDefined
    rw [hcopy, correctMapValues_eq hb hn]
    constructor
    · rintro ⟨r, r', hr, hr', hc, -⟩
      obtain ⟨⟩ := hr
      exact ⟨r', hr', (compare_eq_iff.1 hc).symm⟩
    · rintro ⟨r', hr', hc⟩
      exact ⟨a, r', rfl, hr', compare_eq_iff.2 hc.symm, ha⟩
  rw [hiff]
  by_cases hs : a.isSimple = true
  · -- a simple value is given back
    refine iff_of_true ?_ ?_
    · rw [items_of_isSimple hs, he]
      cases hd : a.isDefined with
      | false => exact ⟨undefined, rfl, (eq_undefined_code hd).symm⟩
      | true =>
        have hcode := @found_wild_code flags b a hw
        have hfd : (found flags b a).isDefined = true := by rw [isDefined_code hcode, hd]
        refine ⟨found flags b a, ?_, hcode⟩
        unfold foundItems
        rw [if_neg Bool.false_ne_true, if_pos rfl, map_cons, filter_cons, if_pos hfd]
        exact joinAll_one hfd
    · rw [items_of_isSimple hs, he]
      cases a.isDefined with
      | false => rfl
      | true => exact rebuilds_cons.2 ⟨isPlain_iff.2 ⟨by decide, by decide, he,
        fun hk => absurd hk (by decide)⟩, by simp⟩
  · obtain ⟨m, rfl⟩ := isSimple_eq_false.1 (by simpa using hs)
    obtain ⟨m', hmaps, hn', hcode, hrebuilds⟩ := @foundItems_wild flags b hw hb m ha
    rw [items_map, ← hmaps, ← hcode, ← hrebuilds]
    constructor
    · rintro ⟨r', hr', hc⟩
      exact rebuilds_of_joinAll hn' hr' hc
    · intro h
      obtain ⟨r', hr', -, hc⟩ := joinAll_rebuilt hn' h
      exact ⟨r', hr', hc⟩

/-- **When the other value is an error**, it is to be what joining the items gives. -/
theorem mapsAsDefined_of_error (ha : a.isNormal = true) (hb : b.isNormal = true)
    (he : a.isError = false) (hbe : b.isError = true) :
    (a.isSpecified = true ∧ meetsError b false a.items = true → MapsAsDefined flags a b) ∧
      ((∀ p ∈ a.items, p.1.isSimple = true ∨ p.1.isErrorFree = true) → MapsAsDefined flags a b →
        a.isSpecified = true ∧ meetsError b false a.items = true) := by
  have hl := items_joinable ha
  have hn : ∀ p ∈ a.items, p.2.isNormal = true := fun p hp => (hl p hp).value
  have hw : b.isWild = false := isWild_of_isError hbe
  have hf : b.isFinal = true := by rw [isFinal, hbe, Bool.or_true]
  have haf : a.isFinal = a.isWild := by rw [isFinal, he, Bool.or_false]
  have hcopy : mapValuesCopy flags a b = some (if a.isWild then a else b) := by
    unfold mapValuesCopy
    rw [he, hf, hw, haf]
    cases a.isWild <;> rfl
  obtain ⟨x, hx, -⟩ := joinAll_spec (@foundItems_joinable flags b a.items hb hl)
  have hcorrect : correctMapValues flags a b = some x := (correctMapValues_eq hb hn).trans hx
  have hud : undefined.isDefined = false := by decide
  have herror := @joinAll_error_iff flags b undefined x a.items hbe
    (fun p hp => ⟨(hl p hp).key, (hl p hp).key_defined⟩) (show undefined.isNormal = true from rfl)
    (by decide) (by decide) (by rw [← foundItems_error hbe, hx])
  rw [hud] at herror
  constructor
  · rintro ⟨hs, hm⟩
    rw [isSpecified, Bool.and_eq_true, Bool.not_eq_true'] at hs
    rw [hs.2] at hcopy
    exact ⟨b, x, hcopy, hcorrect, compare_eq_iff.2 (herror.1 hm).symm, hb⟩
  · rintro hk ⟨r, r', hr, hr', hc, -⟩
    obtain ⟨⟩ := hr'.symm.trans hcorrect
    have hc := compare_eq_iff.1 hc
    obtain ⟨⟩ := hr.symm.trans hcopy
    cases haw : a.isWild with
    | true =>
      -- `WILD` finds the error
      have hcode := isWild_iff_code.1 haw
      have hs : a.isSimple = true := by rw [isSimple_code hcode]; decide
      have hne : ¬ a.compare b = .eq := fun h => by
        rw [isWild_code (compare_eq_iff.1 h), hw] at haw
        cases haw
      have hitems : foundItems flags b a.items = [(SValue.wild, b)] := by
        rw [foundItems_error hbe, items_of_isSimple hs, he, isDefined_of_isWild haw]
        show [(SValue.wild, found flags b a)] = _
        rw [found_error hbe, if_neg hne]
      rw [hitems, joinAll_one (isDefined_of_isError hbe)] at hx
      obtain ⟨⟩ := hx
      rw [haw, if_pos rfl] at hc
      rw [isWild_code hc, hw] at haw
      cases haw
    | false =>
      rw [haw, if_neg Bool.false_ne_true] at hc
      have hm := herror.2 hk hc.symm
      refine ⟨?_, hm⟩
      cases hd : a.isDefined with
      | true => rw [isSpecified, hd, haw]; rfl
      | false =>
        have hcode := eq_undefined_code hd
        have hs : a.isSimple = true := by rw [isSimple_code hcode]; decide
        rw [items_of_isSimple hs, he, hd] at hm
        simp [meetsError] at hm

/-- **`MapValues` computes its formal definition**, and gives a normalised value, when it is not
given an error, joining the items gives back what the shortcuts return, and the items that are found
are not all one simple value. This is exactly when it does, but for keys that hold errors. -/
theorem mapValues_correct (flags : Flags) (a b : SValue) (ha : a.isNormal = true)
    (hb : b.isNormal = true) : (MapsWell flags a b → MapsAsDefined flags a b) ∧
      ((b.isError = true → ∀ p ∈ a.items, p.1.isSimple = true ∨ p.1.isErrorFree = true) →
        MapsAsDefined flags a b → MapsWell flags a b) := by
  constructor
  · intro h
    cases hbe : b.isError with
    | true => exact (mapsAsDefined_of_error ha hb h.not_error hbe).1 (h.error hbe)
    | false =>
      cases hw : b.isWild with
      | true => exact (mapsAsDefined_wild ha hb h.not_error hw).2 (h.wild hw)
      | false =>
        have hf : b.isFinal = false := by rw [isFinal, hw, hbe]; rfl
        exact (mapsAsDefined_other ha hb h.not_error hf).2 (h.other hf)
  · intro hk h
    have he : a.isError = false := by
      by_contra he
      exact mapsAsDefined_error hb (by simpa using he) h
    exact ⟨he, fun hbe => (mapsAsDefined_of_error ha hb he hbe).2 (hk hbe) h,
      fun hw => (mapsAsDefined_wild ha hb he hw).1 h,
      fun hf => (mapsAsDefined_other ha hb he hf).1 h⟩

/-- Two set items that lead to one value. -/
theorem mapValues_repeats : ¬ ∀ (flags : Flags) (a b : SValue), a.isNormal = true →
    b.isNormal = true → MapsAsDefined flags a b := by
  intro h
  obtain ⟨r, r', hr, -, -, hn⟩ := h Flags.none
    (ofPairs [(SValue.wild, int32 1), (SValue.wild, int32 2)])
    (ofPairs [(int32 1, int32 7), (int32 2, int32 7)]) (by decide) (by decide)
  have hbad : (mapValuesCopy Flags.none (ofPairs [(SValue.wild, int32 1), (SValue.wild, int32 2)])
      (ofPairs [(int32 1, int32 7), (int32 2, int32 7)])).map isNormal = some false := by decide
  rw [hr, Option.map_some, hn] at hbad
  cases hbad

theorem mapValues_correct_wild : MapsAsDefined Flags.none
    (ofPairs [(int32 1, int32 7), (int32 2, int32 7)]) SValue.wild :=
  (mapValues_correct Flags.none (ofPairs [(int32 1, int32 7), (int32 2, int32 7)]) SValue.wild
    (by decide) (by decide)).1 ⟨by decide, fun h => absurd h (by decide), fun _ => by decide,
      fun h => absurd h (by decide)⟩

end OpenBinder.SValue
