import OpenBinder.Vector.FromValueLaw

/-!
# Vectors of values come back

* `SValue.Elements`: the value of the first elements of a vector.
* `SValue.asValue_spec`: the value of a vector without errors, and of one with an error.
* `restores_iff`: which vectors come back.
-/

namespace OpenBinder

open Lib List

namespace SValue

variable {r v : SValue} {x y : List SValue} {i j : ℕ}

theorem isKey_index (i : ℕ) : (index i).IsKey := isKey_int32 _

theorem index_code_ne (hi : i < 2 ^ 32) (hj : j < 2 ^ 32) (hne : i ≠ j) :
    (index i).code ≠ (index j).code := by
  apply int32_code_ne
  intro heq
  have hnat := congrArg BitVec.toNat heq
  rw [BitVec.toNat_ofNat, BitVec.toNat_ofNat, Nat.mod_eq_of_lt hi, Nat.mod_eq_of_lt hj] at hnat
  exact hne hnat

theorem isDefined_of_isMap (h : r.isMap = true) : r.isDefined = true := by
  rw [isMap_eq_not_isSimple, Bool.not_eq_true'] at h
  obtain ⟨m, rfl⟩ := isSimple_eq_false.1 h
  exact isDefined_map m

theorem IsArguments.items_nodup (h : r.IsArguments) : r.items.Nodup :=
  h.sorted.imp (by
    intro p q hlt heq
    rw [heq] at hlt
    exact cmp_irrefl _ hlt)

/-- **The value of some elements**: what is defined is found under its index, in one item each. -/
structure Elements (y : List SValue) (r : SValue) : Prop where
  arguments : r.IsArguments
  absent : ∀ j, y.length ≤ j → j < 2 ^ 32 → r.Absent (index j)
  value : ∀ j v, y[j]? = some v → (r.valueFor (index j)).Equal v
  count : r.items.length = (y.filter isDefined).length
  kind : y.filter isDefined = [] ∧ r.isDefined = false ∨
    (∃ e, y.filter isDefined = [e] ∧ e.isNull = true) ∧ (∃ j, r = index j) ∨
    y.filter isDefined ≠ [] ∧ (∀ e, y.filter isDefined = [e] → e.isNull = false) ∧ r.isMap = true

theorem Elements.nil : Elements [] undefined where
  arguments := isArguments_undefined
  absent := fun _ _ _ => absent_undefined _
  value := fun j v hv => absurd hv (by simp)
  count := rfl
  kind := .inl ⟨rfl, rfl⟩

theorem Elements.joinItem_undefined (h : Elements y r) (hv : v.isDefined = false)
    (hlen : y.length < 2 ^ 32) : Elements (y ++ [v]) r := by
  have hfilter : (y ++ [v]).filter isDefined = y.filter isDefined := by simp [hv]
  refine ⟨h.arguments, fun j hj => h.absent j ?_, fun j w hw => ?_, ?_, ?_⟩
  · rw [length_append] at hj
    omega
  · rcases Nat.lt_trichotomy j y.length with hlt | rfl | hgt
    · rw [List.getElem?_append_left hlt] at hw
      exact h.value j w hw
    · rw [List.getElem?_concat_length] at hw
      obtain ⟨⟩ := hw
      rw [h.arguments.valueFor_absent (isKey_index _) (h.absent _ (Nat.le_refl _) hlen)]
      exact equal_of_code (eq_undefined_code hv).symm
    · rw [List.getElem?_eq_none (by simp; omega)] at hw
      exact absurd hw (by simp)
  · rw [hfilter]
    exact h.count
  · rw [hfilter]
    exact h.kind

theorem Elements.joinItem (h : Elements y r) (hlen : y.length < 2 ^ 32) (herror : v.isError = false) :
    ∃ r', SValue.joinItem r (index y.length) v Flags.none = some r' ∧ Elements (y ++ [v]) r' := by
  by_cases hv : v.isDefined = true
  swap
  · refine ⟨r, ?_, h.joinItem_undefined (by simpa using hv) hlen⟩
    simp [SValue.joinItem, joinItemWith, hv]
  have hkey := isKey_index y.length
  have habs := h.absent y.length (Nat.le_refl _) hlen
  obtain ⟨r', hr', hargs, hitems, hkind⟩ := h.arguments.joinItem_items hkey habs herror hv
  have hargued := h.arguments.argued hkey habs hargs hitems
  have hfilter : (y ++ [v]).filter isDefined = y.filter isDefined ++ [v] := by simp [hv]
  refine ⟨r', hr', hargs, fun j hj hlt => ?_, fun j w hw => ?_, ?_, ?_⟩
  · rw [length_append] at hj
    have hj' : y.length + 1 ≤ j := hj
    exact hargued.absent _ (isKey_index j) (index_code_ne hlt hlen (by omega))
      (h.absent j (by omega) hlt)
  · rcases Nat.lt_trichotomy j y.length with hlt | rfl | hgt
    · rw [List.getElem?_append_left hlt] at hw
      rw [hargued.others _ (isKey_index j) (index_code_ne (by omega) hlen (by omega))]
      exact h.value j w hw
    · rw [List.getElem?_concat_length] at hw
      obtain ⟨⟩ := hw
      exact hargued.value
    · rw [List.getElem?_eq_none (by simp; omega)] at hw
      exact absurd hw (by simp)
  · -- one item more
    have hnew : (if v.isNull = true then (wild, index y.length) else (index y.length, v)) ∉
        r.items := by
      intro hmem
      split at hmem
      · exact (habs _ hmem).1 (slot_wild (by decide) _)
      · exact (habs _ hmem).2 (slot_key hkey.wild v)
    have hperm : r'.items.Perm
        ((if v.isNull = true then (wild, index y.length) else (index y.length, v)) :: r.items) := by
      rw [perm_ext_iff_of_nodup hargs.items_nodup
        (nodup_cons.2 ⟨hnew, h.arguments.items_nodup⟩)]
      intro q
      rw [hitems q, mem_cons]
    rw [hperm.length_eq, hfilter, length_cons, length_append, h.count]
    rfl
  · -- the first element that is defined is all there is, and any other one makes a table
    rw [hfilter]
    by_cases hfirst : r.isDefined = false ∧ v.isNull = true
    · rw [if_pos hfirst] at hkind
      have hnone : y.filter isDefined = [] := by
        rcases h.kind with ⟨hnone, -⟩ | ⟨-, j, rfl⟩ | ⟨-, -, hmap⟩
        · exact hnone
        · exact absurd hfirst.1 (by rw [(isKey_index j).defined]; simp)
        · exact absurd hfirst.1 (by rw [isDefined_of_isMap hmap]; simp)
      rw [hnone, nil_append]
      exact .inr (.inl ⟨⟨v, rfl, hfirst.2⟩, _, hkind⟩)
    · rw [if_neg hfirst] at hkind
      refine .inr (.inr ⟨by simp, fun e he => ?_, hkind⟩)
      have hlength := congrArg List.length he
      rw [length_append, length_singleton, length_singleton] at hlength
      have hnone : y.filter isDefined = [] := length_eq_zero_iff.1 (by omega)
      rw [hnone] at he
      obtain rfl : v = e := singleton_injective he
      have hr : r.isDefined = false := by
        rcases h.kind with ⟨-, hr⟩ | ⟨⟨e, he', -⟩, -⟩ | ⟨hsome, -⟩
        · exact hr
        · rw [hnone] at he'
          exact absurd he' (by simp)
        · exact absurd hnone hsome
      by_contra hnull
      exact hfirst ⟨hr, by simpa using hnull⟩

theorem Elements.asValue : ∀ {x y : List SValue} {r : SValue}, Elements y r →
    (∀ e ∈ x, e.isError = false) → y.length + x.length ≤ 2 ^ 32 →
    ∃ r', bArrayAsValue y.length x r = some r' ∧ Elements (y ++ x) r' := by
  intro x
  induction x with
  | nil =>
    intro y r h _ _
    exact ⟨r, rfl, by rw [append_nil]; exact h⟩
  | cons e x ih =>
    intro y r h herror hlen
    rw [length_cons] at hlen
    obtain ⟨r1, h1, hr1⟩ := h.joinItem (by omega) (herror e mem_cons_self)
    obtain ⟨r2, h2, hr2⟩ := ih hr1 (fun e he => herror e (mem_cons_of_mem _ he)) (by
      rw [length_append, length_singleton]
      omega)
    rw [length_append, length_singleton] at h2
    rw [append_assoc, singleton_append] at hr2
    exact ⟨r2, by rw [bArrayAsValue, h1, Option.bind_some, h2], hr2⟩

theorem bArrayAsValue_isError (hr : r.isError = true) : ∀ (x : List SValue) (i : ℕ),
    bArrayAsValue i x r = some r := by
  intro x
  induction x with
  | nil => intro i; rfl
  | cons e x ih =>
    intro i
    have hjoin : SValue.joinItem r (index i) e Flags.none = some r := by
      simp [SValue.joinItem, joinItemWith, isFinal, hr]
    rw [bArrayAsValue, hjoin, Option.bind_some, ih]

theorem Elements.asValue_error : ∀ {x y : List SValue} {r : SValue}, Elements y r →
    (∃ e ∈ x, e.isError = true) → y.length + x.length ≤ 2 ^ 32 →
    ∃ r', bArrayAsValue y.length x r = some r' ∧ r'.isError = true := by
  intro x
  induction x with
  | nil =>
    rintro y r - ⟨e, he, -⟩
    exact absurd he not_mem_nil
  | cons e x ih =>
    intro y r h herror hlen
    rw [length_cons] at hlen
    by_cases he : e.isError = true
    · have hfinal : r.isFinal = false := by simp [isFinal, h.arguments.wild, h.arguments.error]
      refine ⟨e, ?_, he⟩
      rw [bArrayAsValue, joinItem_isError hfinal (isKey_index _) he, Option.bind_some,
        bArrayAsValue_isError he]
    · obtain ⟨r1, h1, hr1⟩ := h.joinItem (v := e) (by omega) (by simpa using he)
      have hrest : ∃ e ∈ x, e.isError = true := by
        obtain ⟨e', he', herror'⟩ := herror
        rcases mem_cons.1 he' with rfl | he'
        · exact absurd herror' he
        · exact ⟨e', he', herror'⟩
      obtain ⟨r2, h2, hr2⟩ := ih hr1 hrest (by
        rw [length_append, length_singleton]
        omega)
      rw [length_append, length_singleton] at h2
      exact ⟨r2, by rw [bArrayAsValue, h1, Option.bind_some, h2], hr2⟩

end SValue

namespace SAbstractVector

open SValue

variable {v : SAbstractVector SValue} {l x : List SValue} {value : SValue} {env : Env}

theorem short_noMemory (env : Env) (h : v.Holds l) (hes : v.elementSize = 8) (hs : value.isSimple = true)
    (hlen : value.length = 4) : ∃ w, v.setFromValue .values value env = some (w, .noMemory) := by
  have hcount : v.countOf value = 536870911 := by
    rw [countOf, if_pos hs, hlen, if_pos (by decide), hes]
    rfl
  have hnone : HasNone v.elementSize (v.countOf value) env := by
    rw [hcount, hes]
    exact .inr ⟨by decide, .inr (by decide)⟩
  rcases h.setFromValue_cases .values value env with ⟨hzero, -⟩ | ⟨-, -, w, hset, -⟩ | ⟨hno, -⟩
  · rw [hcount] at hzero
    exact absurd hzero (by decide)
  · exact ⟨w, hset⟩
  · exact absurd hnone hno

theorem not_restores_short (h : v.Holds l) (hes : v.elementSize = 8)
    (hvalue : asValue x = some value) (hs : value.isSimple = true) (hlen : value.length = 4) :
    ¬v.Restores x env := by
  rintro ⟨value', v', l', hvalue', hset, -⟩
  obtain ⟨⟩ := hvalue.symm.trans hvalue'
  obtain ⟨w, hw⟩ := short_noMemory env h hes hs hlen
  rw [hw] at hset
  exact absurd (Prod.mk.inj (Option.some.inj hset)).2 (by decide)

theorem length_of_mType (value : SValue) (h : unpackTypeLength value.mType ≤ typeLengthMax) :
    value.isSimple = true ∧ value.length = unpackTypeLength value.mType := by
  cases value with
  | small type data =>
    refine ⟨?_, rfl⟩
    have hne : unpackTypeLength (small type data).mType ≠ typeLengthMap :=
      Nat.ne_of_lt (Nat.lt_of_le_of_lt h (by decide))
    simpa [isSimple] using hne
  | large type buffer =>
    have hlarge : unpackTypeLength (large type buffer).mType = typeLengthLarge := type.2
    rw [hlarge] at h
    exact absurd h (by decide)
  | map m => exact absurd h (by decide : ¬unpackTypeLength kMapTypeCode ≤ typeLengthMax)

theorem isError_length (h : value.isError = true) : value.isSimple = true ∧ value.length = 4 := by
  have htype : value.mType = kErrorTypeCode := by simpa [isError] using h
  have hlen := length_of_mType value (by rw [htype]; decide)
  rw [htype] at hlen
  exact hlen

theorem countOf_undefined (v : SAbstractVector SValue) (h : value.isDefined = false) :
    v.countOf value = 0 := by
  have htype : value.mType = kUndefinedTypeCode := by simpa [isDefined] using h
  have hlen := length_of_mType value (by rw [htype]; decide)
  rw [htype] at hlen
  rw [countOf, if_pos hlen.1, hlen.2]
  rfl

theorem countOf_map (v : SAbstractVector SValue) (hx : x.length < 2 ^ 31) (he : Elements x value)
    (hmap : value.isMap = true) : v.countOf value = (x.filter isDefined).length := by
  rw [isMap_eq_not_isSimple, Bool.not_eq_true'] at hmap
  obtain ⟨m, rfl⟩ := isSimple_eq_false.1 hmap
  have hle := length_filter_le isDefined x
  rw [countOf, if_neg (by rw [hmap]; simp)]
  show wrap m.maps.length = _
  rw [← items_map m, he.count, wrap_of_lt (by omega)]

/-- A vector that is set holds as many elements as the value seems to have. -/
theorem setFromValue_length (h : v.Holds l) {v' : SAbstractVector SValue} {l' : List SValue}
    (hset : v.setFromValue .values value env = some (v', .ok)) (hholds : v'.Holds l') :
    l'.length = v.countOf value := by
  rw [← hholds.size]
  rcases h.setFromValue_cases .values value env with ⟨hzero, w, hw, hempty⟩ | ⟨-, -, w, hw, -⟩ |
    ⟨-, -, w, hempty, hle, hw⟩
  · rw [hw] at hset
    obtain ⟨⟩ := hset
    exact hempty.size.trans hzero.symm
  · rw [hw] at hset
    exact absurd (Prod.mk.inj (Option.some.inj hset)).2 (by decide)
  · rw [hw] at hset
    obtain ⟨r, -, hr⟩ := Option.map_eq_some_iff.1 hset
    obtain ⟨rfl, -⟩ := Prod.mk.inj hr
    rfl

theorem capacity_values (n : ℕ) : capacity 8 n = (n + 1) % 2 ^ 29 := by
  unfold capacity wrap
  omega

theorem restores_map (h : v.Holds l) (hes : v.elementSize = 8) (hx : x.length < 2 ^ 31)
    (hvalue : asValue x = some value) (he : Elements x value) (hmap : value.isMap = true)
    (hall : ∀ e ∈ x, e.isDefined = true) (hne : x ≠ []) :
    v.Restores x env ↔ x.length ≤ 1 ∨ env.fresh ≠ none ∧ x.length + 1 < 2 ^ 29 := by
  have hfilter : x.filter isDefined = x := filter_eq_self.2 hall
  have hcount : v.countOf value = x.length := by rw [countOf_map v hx he hmap, hfilter]
  have hpos : 0 < x.length := length_pos_iff.2 hne
  have hcases := h.setFromValue_cases .values value env
  rw [hcount, hes] at hcases
  unfold HasNone at hcases
  rw [capacity_values] at hcases
  rcases hcases with ⟨hzero, -⟩ | ⟨-, hnone, w, hw, -⟩ | ⟨hnone, -, w, hempty, hle, hw⟩
  · omega
  · refine iff_of_false ?_ ?_
    · rintro ⟨value', v', l', hvalue', hset, -⟩
      obtain ⟨⟩ := hvalue.symm.trans hvalue'
      rw [hw] at hset
      exact absurd (Prod.mk.inj (Option.some.inj hset)).2 (by decide)
    · rintro (hone | ⟨hsome, hlt⟩)
      · omega
      · rcases hnone with hzero | ⟨-, hno | hno⟩
        · omega
        · exact hsome hno
        · rw [Nat.mod_eq_of_lt hlt] at hno
          omega
  · obtain ⟨w', hfrom, hholds⟩ := constructFrom_spec value hempty hle (rfl : Marshal.values.again = _)
    refine iff_of_true ⟨value, _, _, hvalue, ?_, hholds, ?_⟩ ?_
    · rw [hw, hfrom]
      rfl
    · rw [forall₂_iff_get]
      refine ⟨?_, fun i h1 h2 => ?_⟩
      · simp [Marshal.values, bArrayConstruct]
      · have hget := he.value i (x.get ⟨i, h2⟩) (List.getElem?_eq_getElem h2)
        simpa [Marshal.values, bArrayConstruct] using hget
    · by_contra hno
      rw [not_or, not_and_or, not_not] at hno
      refine hnone (.inr ⟨by omega, ?_⟩)
      rcases hno.2 with hno | hno
      · exact .inl hno
      · right
        omega

/-- **Which vectors come back**: those of elements that are defined and no errors, but for a single
`NULL`, if there is room. -/
theorem restores_iff (h : v.Holds l) (hes : v.elementSize = 8) (hx : x.length < 2 ^ 31) :
    v.Restores x env ↔ (∀ e ∈ x, e.isDefined = true ∧ e.isError = false) ∧
      (∀ e, x = [e] → e.isNull = false) ∧
      (x.length ≤ 1 ∨ env.fresh ≠ none ∧ x.length + 1 < 2 ^ 29) := by
  have hlen : ([] : List SValue).length + x.length ≤ 2 ^ 32 := by
    rw [length_nil]
    omega
  by_cases herror : ∃ e ∈ x, e.isError = true
  · obtain ⟨value, hvalue, hr⟩ := Elements.nil.asValue_error herror hlen
    obtain ⟨hs, hlen⟩ := isError_length hr
    refine iff_of_false (not_restores_short h hes hvalue hs hlen) fun hno => ?_
    obtain ⟨e, he, hee⟩ := herror
    rw [(hno.1 e he).2] at hee
    exact Bool.false_ne_true hee
  have hok : ∀ e ∈ x, e.isError = false := fun e he => by
    by_contra hno
    exact herror ⟨e, he, by simpa using hno⟩
  obtain ⟨value, hvalue, he⟩ := Elements.nil.asValue hok hlen
  rw [nil_append] at he
  -- elements that are not defined do not come back
  have hshort : v.Restores x env → v.countOf value = x.length := by
    rintro ⟨value', v', l', hvalue', hset, hholds, heq⟩
    obtain ⟨⟩ := hvalue.symm.trans hvalue'
    rw [← setFromValue_length h hset hholds, heq.length_eq]
  have hfilter : (∀ e ∈ x, e.isDefined = true ∧ e.isError = false) → x.filter isDefined = x :=
    fun hall => filter_eq_self.2 fun e he => (hall e he).1
  rcases he.kind with ⟨hnone, hr⟩ | ⟨⟨e, hone, hnull⟩, j, rfl⟩ | ⟨hsome, hsingle, hmap⟩
  · have hzero := countOf_undefined v hr
    by_cases hempty : x = []
    · subst hempty
      refine iff_of_true ?_ ⟨fun e he => absurd he not_mem_nil, fun e he => absurd he (by simp),
        .inl (Nat.zero_le _)⟩
      rcases h.setFromValue_cases .values value env with ⟨-, w, hw, hholds⟩ | ⟨hno, -⟩ | ⟨hno, -⟩
      · exact ⟨value, w, [], hvalue, hw, hholds, .nil⟩
      · exact absurd hzero hno
      · exact absurd (.inl hzero) hno
    · refine iff_of_false (fun hr => ?_) fun hno => ?_
      · have hlen := hshort hr
        rw [hzero] at hlen
        exact hempty (length_eq_zero_iff.1 hlen.symm)
      · rw [hfilter hno.1] at hnone
        exact hempty hnone
  · have hlen : (index j).length = 4 := by
      show unpackTypeLength (packSmallType int32Type 4) = 4
      decide
    refine iff_of_false (not_restores_short h hes hvalue (isKey_index j).simple hlen) fun hno => ?_
    rw [hfilter hno.1] at hone
    rw [hno.2.1 e hone] at hnull
    exact Bool.false_ne_true hnull
  · by_cases hall : ∀ e ∈ x, e.isDefined = true
    · have heq := hfilter fun e he => ⟨hall e he, hok e he⟩
      rw [heq] at hsome hsingle
      rw [restores_map h hes hx hvalue he hmap hall hsome]
      exact ⟨fun hroom => ⟨fun e he => ⟨hall e he, hok e he⟩, hsingle, hroom⟩, fun hno => hno.2.2⟩
    · refine iff_of_false (fun hr => hall ?_) fun hno => hall fun e he => (hno.1 e he).1
      have hlen := hshort hr
      rw [countOf_map v hx he hmap] at hlen
      exact length_filter_eq_length_iff.1 hlen

theorem holds_new : (init 8 : SAbstractVector SValue).Holds [] := by
  refine ⟨rfl, Nat.zero_le _, (by decide : 0 < 8), ?_, rfl, (by decide : 8 / 8 * 8 < 2 ^ 32),
    .inl ⟨rfl, rfl⟩⟩
  funext p
  cases p <;> rfl

/-- **`SetFromValue`** is safe exactly where the storage is what it says to be and no element is
constructed twice, and inverts `AsValue` exactly for elements that are defined and no errors, but for
a single `NULL`, if there is room. -/
theorem setFromValue_iff {α : Type} [Inhabited α] {v : SAbstractVector α} {l : List α} (m : Marshal α)
    (value : SValue) (env : Env) (h : v.Holds l) {w : SAbstractVector SValue} {k x : List SValue}
    (hw : w.Holds k) (hsize : w.elementSize = 8) (hlt : x.length < 2 ^ 31) :
    (v.Safe m value env ↔ HasRoom v.elementSize (v.countOf value) env ∧
      (m.again = true → HasNone v.elementSize (v.countOf value) env)) ∧
    (w.Restores x env ↔ (∀ e ∈ x, e.isDefined = true ∧ e.isError = false) ∧
      (∀ e, x = [e] → e.isNull = false) ∧
      (x.length ≤ 1 ∨ env.fresh ≠ none ∧ x.length + 1 < 2 ^ 29)) :=
  ⟨h.safe_iff m value env, restores_iff hw hsize hlt⟩

/-- A `NULL` and a number come back. -/
theorem setFromValue_null : (init 8).Restores [.null, .int32 7] ⟨false, some 0⟩ := by
  refine (setFromValue_iff Marshal.values .null ⟨false, some 0⟩ holds_new holds_new rfl
    (by decide)).2.2 ⟨?_, ?_, Or.inr ⟨by decide, by decide⟩⟩
  · intro e he
    rcases mem_cons.1 he with rfl | he
    · exact ⟨by decide, by decide⟩
    · rcases mem_cons.1 he with rfl | he
      · exact ⟨(isKey_int32 7).defined, (isKey_int32 7).error⟩
      · exact absurd he not_mem_nil
  · intro e he
    exact absurd he (by simp)

/-- A vector that is set from a number has its elements in no storage of its own, and an undefined
element, or a `NULL` alone, does not come back. -/
theorem setFromValue_short : ¬(init 8).Safe Marshal.values (.int32 7) ⟨false, some 0⟩ ∧
    ¬(init 8).Restores [.undefined] ⟨false, some 0⟩ ∧
    ¬(init 8).Restores [.null] ⟨false, some 0⟩ := by
  refine ⟨fun h => ?_, fun h => ?_, fun h => ?_⟩
  · rcases ((holds_new.safe_iff _ _ _).1 h).1 with hno | hno | hno
    · exact absurd hno (by decide)
    · exact absurd hno (by decide)
    · exact absurd hno (by decide)
  · have hdefined := (((restores_iff holds_new rfl (by decide)).1 h).1 _ (mem_singleton_self _)).1
    exact absurd hdefined (by decide)
  · have hnull := ((restores_iff holds_new rfl (by decide)).1 h).2.1 _ rfl
    exact absurd hnull (by decide)

end SAbstractVector

end OpenBinder
