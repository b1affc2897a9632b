import OpenBinder.Value.Denote

/-!
# Join

`SValue::Join` adds to a value what another value holds; `JoinItem` and the
constructor `SValue(key, value)` (`InitAsMap`) are built on it.
-/

namespace OpenBinder.SValue

open Lib List

/-- One round of the loop of `Join`. `joinValue` is the recursive call on the value
that is being edited. -/
def joinPair (flags : Flags) (this key value : SValue) (joinValue : SValue → Option SValue) :
    Option SValue :=
  match this.beginEditItem key with
  | some (m, index) =>
    editAt m index fun cur => if flags.noRecursion then some value else joinValue cur
  | none => some (this.addItem key value)

/-- The cases of `Join`; `loop` is what its loop over the items of `from` makes of
the value. -/
def joinWith (this : SValue) (from' : SValue) (loop : Option SValue) : Option SValue :=
  if from'.isFinal then some from'
  else if this.isSpecified ∧ (this.isMap ∨ this.compare from' ≠ .eq) then loop
  else if !this.isDefined then some from'
  else some this

mutual

def join (flags : Flags) : SValue → SValue → Option SValue
  | this, map ⟨avail, dataSize, maps⟩ =>
    joinWith this (map ⟨avail, dataSize, maps⟩) (joinItems flags this maps)
  | this, v =>
    -- the only item of a simple value has a wild key, so nothing is edited
    joinWith this v (v.items.foldlM (fun this p => joinPair flags this p.1 p.2 fun _ => none) this)

/-- The loop of `Join`. -/
def joinItems (flags : Flags) : SValue → List Pair → Option SValue
  | this, [] => some this
  | this, (key, value) :: rest => do
    let this ← joinPair flags this key value fun cur => join flags cur value
    joinItems flags this rest

end

/-- `SValue::JoinItem`; `mkMap` makes `SValue(key, value, flags)` out of the value. -/
def joinItemWith (mkMap : SValue → Option SValue) (this key value : SValue) (flags : Flags) :
    Option SValue :=
  if !this.isFinal && key.isDefined && value.isDefined then
    if key.isWild && (!this.isDefined || value.isFinal) then some value
    else if key.isWild && value.isMap then join flags this value
    else if value.isNull then join flags this key
    else if key.isMap || key.isError || value.isError then do
      let made ← mkMap value
      join flags this made
    else joinPair flags this key value fun cur => join flags cur value
  else some this

/-- The cases of `SValue::InitAsMap`; `flatten` is what its loop over the items of
a map key makes. -/
def initAsMapWith (key value : SValue) (flags : Flags) (flatten : Option SValue) : Option SValue :=
  if key.isError then some key
  else if value.isError then some value
  else if key.isDefined && value.isDefined then
    if key.isWild then some value
    else if !key.isMap || flags.noFlatten then
      some (map ((BValueMap.create 1).setFirstMap key value))
    else flatten
  else some undefined

mutual

/-- `SValue::InitAsMap`, the constructor `SValue(key, value, flags)`. -/
def initAsMap (flags : Flags) : SValue → SValue → Option SValue
  | map ⟨avail, dataSize, maps⟩, value =>
    initAsMapWith (map ⟨avail, dataSize, maps⟩) value flags (initItems undefined maps value)
  | key, value => initAsMapWith key value flags (some undefined)

/-- The loop of `InitAsMap`: every item (k, v) of the key becomes `k -> (v -> value)`. -/
def initItems : SValue → List Pair → SValue → Option SValue
  | this, [], _ => some this
  | this, (k, v) :: rest, value => do
    let made ← initAsMap Flags.none v value
    let this ← joinItemWith (initAsMap Flags.none k) this k made Flags.none
    initItems this rest value

end

def joinItem (this key value : SValue) (flags : Flags) : Option SValue :=
  joinItemWith (initAsMap flags key) this key value flags

/-! ## What Join does to the pairs -/

/-- A value in the middle of a loop that adds items: an error, or a value that has
a table or can get one. -/
def Working (v : SValue) : Prop := v.isError = true ∨ (Partial v ∧ v.isWild = false)

theorem isError_error (c : BitVec 32) : (error c).isError = true := by
  simp only [error, isError, mType]; decide

variable {this key value : SValue} {flags : Flags} {l : List Pair}

theorem beginEditItem_error (h : this.isError = true) :
    this.beginEditItem key = none := by
  unfold beginEditItem
  split
  · rfl
  · cases this with
    | map m => rw [isError_map] at h; cases h
    | _ => rfl

theorem addItem_error (h : this.isError = true) :
    this.addItem key value = this := by
  have hs : this.isSimple = true := by
    cases this with
    | map m => rw [isError_map] at h; cases h
    | _ => simp
  simp [addItem, editMap_of_isSimple hs, h]

theorem joinPair_error {f : SValue → Option SValue} (h : this.isError = true) :
    joinPair flags this key value f = some this := by
  unfold joinPair
  rw [beginEditItem_error h, addItem_error h]

/-- What a step and the loop of `Join` promise about their result `r`: it has the
slots of the value and of the pairs `l` that were added, and holds what they hold. -/
structure Added (this : SValue) (l : List Pair) (r : SValue) : Prop where
  working : Working r
  persist : this.isError = true → r.isError = true
  slots_eq : r.isError = false → slots r.items = slots this.items ∪ slots l
  is_map : r.isError = false → l ≠ [] ∨ this.isSimple = false → r.isSimple = false
  error_free : this.isErrorFree = true → allErrorFree l = true → r.isErrorFree = true
  den_eq : this.isErrorFree = true → allErrorFree l = true → r.den = this.den ∪ denMaps l

theorem Added.nil (h : Working this) : Added this [] this where
  working := h
  persist := id
  slots_eq := fun _ => by simp [slots]
  is_map := by simp
  error_free := fun h _ => h
  den_eq := fun _ _ => by simp [denMaps]

theorem Added.of_error (h : this.isError = true) :
    Added this l this where
  working := .inl h
  persist := id
  slots_eq := fun h' => by rw [h] at h'; cases h'
  is_map := fun h' => by rw [h] at h'; cases h'
  error_free := fun h' _ => h'
  den_eq := fun h' _ => by rw [isError_of_isErrorFree h'] at h; cases h

theorem Added.trans {r r' : SValue} {l' : List Pair} (h : Added this l r) (h' : Added r l' r') :
    Added this (l ++ l') r' where
  working := h'.working
  persist := fun he => h'.persist (h.persist he)
  slots_eq := fun he => by
    have her : r.isError = false := by
      cases hr : r.isError
      · rfl
      · rw [h'.persist hr] at he; cases he
    rw [h'.slots_eq he, h.slots_eq her, slots_append, Set.union_assoc]
  is_map := fun he hl => by
    have her : r.isError = false := by
      cases hr : r.isError
      · rfl
      · rw [h'.persist hr] at he; cases he
    refine h'.is_map he ?_
    by_cases hl' : l' = []
    · refine .inr (h.is_map her ?_)
      simpa [hl'] using hl
    · exact .inl hl'
  error_free := fun hf hl => by
    rw [allErrorFree_iff] at hl
    exact h'.error_free
      (h.error_free hf (allErrorFree_iff.2 fun p hp => hl p (mem_append_left _ hp)))
      (allErrorFree_iff.2 fun p hp => hl p (mem_append_right _ hp))
  den_eq := fun hf hl => by
    rw [allErrorFree_iff] at hl
    have h1 := allErrorFree_iff.2 fun p hp => hl p (mem_append_left _ hp)
    have h2 := allErrorFree_iff.2 fun p hp => hl p (mem_append_right _ hp)
    rw [h'.den_eq (h.error_free hf h1) h2, h.den_eq hf h1, denMaps_append, Set.union_assoc]

/-- What `Join` promises about its result. -/
structure Joined (a b r : SValue) : Prop where
  normal : r.isNormal = true
  defined : a.isDefined = true ∨ b.isDefined = true → r.isDefined = true
  error_free : a.isErrorFree = true → b.isErrorFree = true → r.isErrorFree = true
  den_eq : a.isErrorFree = true → b.isErrorFree = true → r.den = a.den ∪ b.den

/-- **Adding a pair of a new slot**, or of a set item that is there already. -/
theorem addItem_added (hw : Working this) (hn : key.isNormal = true ∧ value.isNormal = true)
    (hp : isProper (key, value) = true)
    (hnew : this.isError = false → key.isWild = false → slot (key, value) ∉ slots this.items) :
    Added this [(key, value)] (this.addItem key value) := by
  rcases hw with he | ⟨hpart, hwild⟩
  · rw [addItem_error he]; exact Added.of_error he
  cases he : this.isError with
  | true => rw [addItem_error he]; exact Added.of_error he
  | false =>
  obtain ⟨m, hm, hi, hcase⟩ := addItem_spec hpart he hwild hn hp
  have hcase : (slot (key, value) ∈ slots this.items ∧ m.maps = this.items) ∨
      (slot (key, value) ∉ slots this.items ∧
        ∀ q, q ∈ m.maps ↔ q = (key, value) ∨ q ∈ this.items) := by
    refine hcase.imp_right fun ⟨hnew, i, hle, hmaps⟩ => ⟨hnew, fun q => ?_⟩
    rw [hmaps, mem_insertIdx hle]
  rw [hm]
  have hden : (map m).den = denMaps this.items ∪ denMaps [(key, value)] := by
    ext x
    rw [den_map, Set.mem_union, mem_denMaps, mem_denMaps, mem_denMaps]
    rcases hcase with ⟨⟨q, hq, hqs⟩, hmaps⟩ | ⟨-, hmem⟩
    · rw [hmaps]
      refine ⟨.inl, ?_⟩
      rintro (h | ⟨p, hp', hx⟩)
      · exact h
      · -- the pair was there, so it is a set item and adds nothing
        rw [mem_singleton] at hp'
        subst hp'
        rcases slot_eq_iff.1 hqs with ⟨hk', hk, hc⟩ | ⟨-, hk, -⟩
        · refine ⟨_, hq, ?_⟩
          simpa [denPair, hk, hk', hc] using hx
        · exact absurd ⟨_, hq, hqs⟩ (hnew he hk)
    · simp only [hmem, mem_singleton]
      constructor
      · rintro ⟨p, rfl | hp', hx⟩
        · exact .inr ⟨_, rfl, hx⟩
        · exact .inl ⟨p, hp', hx⟩
      · rintro (⟨p, hp', hx⟩ | ⟨p, rfl, hx⟩)
        · exact ⟨p, .inr hp', hx⟩
        · exact ⟨_, .inl rfl, hx⟩
  refine ⟨.inr ⟨hi, isWild_map m⟩, ?_, fun _ => ?_, fun _ _ => isSimple_map m, fun hf hl => ?_,
    fun hf hl => ?_⟩
  · intro h; rw [he] at h; cases h
  · ext s
    simp only [items_map, mem_slots, Set.mem_union, mem_singleton,
      exists_eq_left]
    rcases hcase with ⟨⟨q, hq, hqs⟩, hmaps⟩ | ⟨-, hmem⟩
    · rw [hmaps]
      refine ⟨.inl, ?_⟩
      rintro (h | h)
      · exact h
      · exact ⟨q, hq, hqs.trans h⟩
    · simp only [hmem]
      constructor
      · rintro ⟨p, rfl | hp', hx⟩
        · exact .inr hx
        · exact .inl ⟨p, hp', hx⟩
      · rintro (⟨p, hp', hx⟩ | hx)
        · exact ⟨p, .inr hp', hx⟩
        · exact ⟨_, .inl rfl, hx⟩
  · refine isErrorFree_map.2 fun p hp' => ?_
    have hf' := allErrorFree_iff.1 (isErrorFree_items hf)
    rcases hcase with ⟨-, hmaps⟩ | ⟨-, hmem⟩
    · rw [hmaps] at hp'; exact hf' p hp'
    · rcases (hmem p).1 hp' with rfl | hp'
      · exact allErrorFree_iff.1 hl _ (mem_singleton.2 rfl)
      · exact hf' p hp'
  · rw [hden, den_eq_items hwild he]

/-- **One round of the loop of `Join`.** -/
theorem joinPair_added (hr : flags.noRecursion = false) {f : SValue → Option SValue}
    (hw : Working this) (hn : key.isNormal = true ∧ value.isNormal = true)
    (hp : isProper (key, value) = true)
    (hf : key.isWild = false → ∀ cur, cur.isNormal = true →
      ∃ r, f cur = some r ∧ Joined cur value r) :
    ∃ r, joinPair flags this key value f = some r ∧ Added this [(key, value)] r := by
  rcases hw with he | ⟨hpart, hwild⟩
  · exact ⟨this, joinPair_error he, Added.of_error he⟩
  unfold joinPair
  cases hb : this.beginEditItem key with
  | none =>
    refine ⟨_, rfl, addItem_added (.inr ⟨hpart, hwild⟩) hn hp fun _ hk => ?_⟩
    exact beginEditItem_none hpart hk hb value
  | some mi =>
    obtain ⟨m, i⟩ := mi
    obtain ⟨rfl, hkey, k, cur, hi, hk, hc⟩ := beginEditItem_some hpart hb
    have hit : Items m.maps := hpart
    have hin : (k, cur) ∈ m.maps := mem_of_getElem? hi
    obtain ⟨cur', hcur', hj⟩ := hf hkey cur (hit.normal _ hin).2
    have hd : cur'.isDefined = true := hj.defined (.inr (isProper_iff.1 hp).2.1)
    have hedit : editAt m i (fun cur => if flags.noRecursion then some value else f cur) =
        endEditItem m i cur' := by
      simp [editAt, BValueMap.beginEditMapAt, hi, hr, hcur']
    simp only [hedit]
    rcases endEditItem_spec hit hi hk hd hj.normal with ⟨hlt, he⟩ | ⟨hge, he, hit'⟩
    · refine ⟨_, he, .inl (isError_error _), fun _ => isError_error _, ?_, ?_, ?_, ?_⟩
      · intro h; rw [isError_error] at h; cases h
      · intro h; rw [isError_error] at h; cases h
      all_goals
        intro hfree hl
        have := hj.error_free (isErrorFree_map.1 hfree _ hin).2
          (allErrorFree_iff.1 hl _ (mem_singleton.2 rfl)).2
        rw [errorCheck_of_isError (isError_of_isErrorFree this)] at hlt
        exact absurd hlt (lt_irrefl _)
    · have hmem := mem_set_iff cur' hit.table hi
      refine ⟨_, he, .inr ⟨hit', isWild_map _⟩, by simp, fun _ => ?_, fun _ _ => isSimple_map _,
        fun hfree hl => ?_, fun hfree hl => ?_⟩
      · have hslot : slot (k, cur') = slot (k, cur) := by rw [slot_key hk, slot_key hk]
        have hslot' : slot (key, value) = slot (k, cur) := by rw [slot_key hk, slot_key hkey, hc]
        ext s
        simp only [items_map, mem_slots, Set.mem_union, mem_singleton,
          exists_eq_left, hmem, hslot']
        constructor
        · rintro ⟨p, rfl | ⟨hp', -⟩, rfl⟩
          · exact .inr hslot.symm
          · exact .inl ⟨p, hp', rfl⟩
        · have hnew : ∃ p, (p = (k, cur') ∨ p ∈ m.maps ∧ p ≠ (k, cur)) ∧ slot p = slot (k, cur) :=
            ⟨_, .inl rfl, hslot⟩
          rintro (⟨p, hp', rfl⟩ | rfl)
          · by_cases hpe : p = (k, cur)
            · rw [hpe]; exact hnew
            · exact ⟨p, .inr ⟨hp', hpe⟩, rfl⟩
          · exact hnew
      · refine isErrorFree_map.2 fun p hp' => ?_
        rcases (hmem p).1 hp' with rfl | ⟨hp', -⟩
        · exact ⟨(isErrorFree_map.1 hfree _ hin).1, hj.error_free (isErrorFree_map.1 hfree _ hin).2
            (allErrorFree_iff.1 hl _ (mem_singleton.2 rfl)).2⟩
        · exact isErrorFree_map.1 hfree p hp'
      · have hden := hj.den_eq (isErrorFree_map.1 hfree _ hin).2
          (allErrorFree_iff.1 hl _ (mem_singleton.2 rfl)).2
        have hpair : denPair (k, cur') = denPair (k, cur) ∪ denPair (key, value) := by
          simp [denPair, hk, hkey, hden, hc, under_union]
        ext x
        rw [den_map, den_map, Set.mem_union, mem_denMaps, mem_denMaps, mem_denMaps]
        simp only [hmem, mem_singleton, exists_eq_left]
        constructor
        · rintro ⟨p, rfl | ⟨hp', -⟩, hx⟩
          · rw [hpair] at hx
            rcases hx with hx | hx
            · exact .inl ⟨_, hin, hx⟩
            · exact .inr hx
          · exact .inl ⟨p, hp', hx⟩
        · rintro (⟨p, hp', hx⟩ | hx)
          · by_cases hpe : p = (k, cur)
            · exact ⟨_, .inl rfl, by rw [hpair, ← hpe]; exact .inl hx⟩
            · exact ⟨p, .inr ⟨hp', hpe⟩, hx⟩
          · exact ⟨_, .inl rfl, by rw [hpair]; exact .inr hx⟩

/-- The loop ends with a normalised value: it started with one, or with a simple value
that is not all there is to add. -/
theorem Added.normal {r : SValue} (h : Added this l r) (hne : l ≠ [] ∨ this.isSimple = false)
    (hs : r.isError = false → ∀ c : List ℤ, ∃ s ∈ slots this.items ∪ slots l, s ≠ c ++ [0]) :
    r.isNormal = true := by
  cases he : r.isError with
  | true =>
    refine isNormal_of_isSimple ?_
    cases r with
    | map m => rw [isError_map] at he; cases he
    | _ => simp
  | false =>
    obtain ⟨m, rfl⟩ := isSimple_eq_false.1 (h.is_map he hne)
    rcases h.working with hw | ⟨hi, -⟩
    · rw [he] at hw; cases hw
    rw [← h.slots_eq he] at hs
    refine isNormal_map.2 ⟨hi, ?_, ?_⟩
    · obtain ⟨s, ⟨p, hp, -⟩, -⟩ := hs he []
      exact ne_nil_of_mem hp
    · unfold isRedundant
      split
      · rename_i k v hmaps
        by_contra hk
        obtain ⟨s, ⟨p, hp, rfl⟩, hne⟩ := hs he v.code
        rw [items_map, hmaps, mem_singleton] at hp
        subst hp
        exact hne (slot_wild (by simpa using hk) v)
      · rfl

theorem Working.of_isNormal {v : SValue} (h : v.isNormal = true) (hw : v.isWild = false) :
    Working v := .inr ⟨Partial.of_isNormal h, hw⟩

/-- The cases of `Join`, once its loop is known to add the items of `from`. -/
theorem joinWith_spec {a b : SValue} {loop : Option SValue} (hna : a.isNormal = true)
    (hnb : b.isNormal = true)
    (hloop : a.isWild = false → b.isFinal = false → b.isDefined = true →
      ∃ r, loop = some r ∧ Added a b.items r)
    (hundef : b.isDefined = false → loop = some a) :
    ∃ r, joinWith a b loop = some r ∧ Joined a b r := by
  unfold joinWith
  cases hfin : b.isFinal with
  | true =>
    refine ⟨b, rfl, hnb, fun _ => ?_, fun _ h => h, fun _ hfree => ?_⟩
    · by_contra hd
      have hc := eq_undefined_code (v := b) (by simpa using hd)
      rw [isFinal, isWild_code hc, isError_code hc] at hfin
      exact absurd hfin (by decide)
    · rw [isFinal, isError_of_isErrorFree hfree, Bool.or_false] at hfin
      rw [den_wild hfin, Set.union_univ]
  | false =>
  simp only [Bool.false_eq_true, if_false]
  have hbw : b.isWild = false ∧ b.isError = false := by simpa [isFinal] using hfin
  split
  · rename_i hcond
    obtain ⟨hspec, hcmp⟩ := hcond
    have haw : a.isDefined = true ∧ a.isWild = false := by simpa [isSpecified] using hspec
    cases hbd : b.isDefined with
    | false =>
      refine ⟨a, hundef hbd, hna, fun _ => haw.1, fun h _ => h, fun _ _ => ?_⟩
      rw [den_undefined hbd, Set.union_empty]
    | true =>
      obtain ⟨r, hrl, hadd⟩ := hloop haw.2 hfin hbd
      have hitems : b.items ≠ [] := by
        by_cases hs : b.isSimple = true
        · rw [items_of_isSimple hs, hbw.2, hbd]; simp
        · obtain ⟨m, rfl⟩ := isSimple_eq_false.1 (by simpa using hs)
          exact (isNormal_map.1 hnb).2.1
      have hnormal : r.isNormal = true := by
        refine hadd.normal (.inl hitems) fun he c => ?_
        by_cases hs : a.isSimple = true
        · by_cases hsb : b.isSimple = true
          · -- two simple values: if both were `c` they would compare equal
            have hae : a.isError = false := by
              by_contra hae
              rw [hadd.persist (by simpa using hae)] at he; cases he
            by_cases hca : a.code = c
            · refine ⟨slot (wild, b), .inr ⟨_, ?_, rfl⟩, ?_⟩
              · rw [items_of_isSimple hsb, hbw.2, hbd]; simp
              · rw [slot_wild (by decide)]
                intro h
                rw [← hca] at h
                have hab := (append_inj' h rfl).1
                rcases hcmp with hm | hne
                · rw [isMap_eq_not_isSimple, hs] at hm; cases hm
                · exact hne (compare_eq_iff.2 hab.symm)
            · refine ⟨slot (wild, a), .inl ⟨_, ?_, rfl⟩, ?_⟩
              · rw [items_of_isSimple hs, hae, haw.1]; simp
              · rw [slot_wild (by decide)]
                intro h
                exact hca (append_inj' h rfl).1
          · obtain ⟨m, rfl⟩ := isSimple_eq_false.1 (by simpa using hsb)
            obtain ⟨s, hs', hne⟩ := exists_slot_ne hnb c
            exact ⟨s, .inr hs', hne⟩
        · obtain ⟨m, rfl⟩ := isSimple_eq_false.1 (by simpa using hs)
          obtain ⟨s, hs', hne⟩ := exists_slot_ne hna c
          exact ⟨s, .inl hs', hne⟩
      refine ⟨r, hrl, hnormal, fun _ => ?_, fun ha hb => ?_, fun ha hb => ?_⟩
      · by_contra hd
        have hc := eq_undefined_code (v := r) (by simpa using hd)
        have he : r.isError = false := by rw [isError_code hc]; decide
        have := hadd.is_map he (.inl hitems)
        rw [isSimple_code hc] at this
        exact absurd this (by decide)
      · exact hadd.error_free ha (isErrorFree_items hb)
      · rw [hadd.den_eq ha (isErrorFree_items hb), den_eq_items hbw.1 hbw.2]
  · rename_i hcond
    cases had : a.isDefined with
    | false =>
      refine ⟨b, by simp, hnb, ?_, fun _ h => h, fun _ _ => ?_⟩
      · rintro (h | h)
        · rw [had] at h; cases h
        · exact h
      · rw [den_undefined had, Set.empty_union]
    | true =>
      refine ⟨a, by simp, hna, fun _ => had, fun h _ => h, fun _ _ => ?_⟩
      cases haw : a.isWild with
      | true => rw [den_wild haw, Set.univ_union]
      | false =>
        -- a simple value to which an equal one is added
        have hcmp : ¬ (a.isMap = true ∨ a.compare b ≠ .eq) := by
          intro h
          exact hcond ⟨by simp [isSpecified, had, haw], h⟩
        rw [not_or, not_not, compare_eq_iff] at hcmp
        obtain ⟨hm, hc⟩ := hcmp
        have hs : a.isSimple = true := by
          rw [isMap_eq_not_isSimple] at hm
          simpa using hm
        have hsb : b.isSimple = true := by rw [← isSimple_code hc]; exact hs
        have hbd : b.isDefined = true := by rw [← isDefined_code hc]; exact had
        rw [den_terminal hs haw had, den_terminal hsb hbw.1 hbd, hc, Set.union_self]
/-- **`Join`**: it has a result, the result is normalised, and it holds what the two
values hold. -/
theorem join_spec (hr : flags.noRecursion = false) : ∀ b a : SValue,
    a.isNormal = true → b.isNormal = true → ∃ r, join flags a b = some r ∧ Joined a b r := by
  intro b
  induction b using SValue.ind with
  | map m ih =>
    intro a hna hnb
    obtain ⟨avail, dataSize, maps⟩ := m
    rw [join]
    refine joinWith_spec hna hnb (fun haw _ _ => ?_) (by simp)
    have hi : Items maps := (isNormal_map.1 hnb).1
    -- the loop, over any part of the table
    have loop : ∀ l : List Pair, (∀ p ∈ l, p ∈ maps) → ∀ this, Working this →
        ∃ r, joinItems flags this l = some r ∧ Added this l r := by
      intro l
      induction l with
      | nil => intro _ this hw; exact ⟨this, by rw [joinItems], Added.nil hw⟩
      | cons p l ihl =>
        intro hsub this hw
        obtain ⟨k, v⟩ := p
        have hp := hsub _ mem_cons_self
        obtain ⟨r, hr1, hadd⟩ := joinPair_added (f := fun cur => join flags cur v) hr hw
          (hi.normal _ hp) (hi.proper _ hp)
          fun _ cur hcur => (ih _ hp).2 cur hcur (hi.normal _ hp).2
        obtain ⟨r', hr', hadd'⟩ :=
          ihl (fun q hq => hsub q (mem_cons_of_mem _ hq)) r hadd.working
        refine ⟨r', ?_, hadd.trans hadd'⟩
        rw [joinItems, hr1]
        exact hr'
    exact loop maps (fun p hp => hp) a (Working.of_isNormal hna haw)
  | _ =>
    intro a hna hnb
    rw [join]
    · refine joinWith_spec hna hnb (fun haw hfin hd => ?_) fun hd => ?_
      · rw [isFinal, Bool.or_eq_false_iff] at hfin
        rw [items_of_isSimple (by simp), hfin.2, hd]
        have hp := isProper_iff.2 ⟨show wild.isDefined = true by decide, hd,
          fun _ => ⟨by simp, hfin.1⟩⟩
        obtain ⟨r, hr, hadd⟩ := joinPair_added (f := fun _ => none) hr
          (Working.of_isNormal hna haw) ⟨rfl, hnb⟩ hp (fun h => absurd h (by decide))
        exact ⟨r, by simpa using hr, hadd⟩
      · rw [items_of_isSimple (by simp), hd]
        simp
    all_goals simp

end OpenBinder.SValue
