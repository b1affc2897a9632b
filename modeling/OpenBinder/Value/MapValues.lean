import OpenBinder.Value.JoinResult
import OpenBinder.Value.Select

/-!
# MapValues

`MapValues` replaces every value of a map by what another value has for it. It takes shortcuts
where the other value is `WILD` or an error; the formal definition in the source has none.

* `valueForFlags`: `ValueFor` of a key that may be a map.
* `mapValuesCopy`, `correctMapValues`: the operation, and its formal definition.
* `joinAll_spec`: **joining items one after the other** gives a normalised value unless all of
  them are one simple value.
-/

namespace OpenBinder.SValue

open Lib List Bool

mutual

/-- `SValue::ValueFor(key, flags)`: a key that is a map is looked up all the way down. -/
def valueForFlags (flags : Flags) : SValue → SValue → Option SValue
  | this, map ⟨avail, dataSize, maps⟩ =>
    if flags.noRecursion then some (this.valueFor (map ⟨avail, dataSize, maps⟩))
    else if this.isError then some this
    else if this.isWild then some (map ⟨avail, dataSize, maps⟩)
    else valueForItems flags this maps undefined
  | this, key => some (this.valueFor key)

/-- The loop over the items of the key. -/
def valueForItems (flags : Flags) (this : SValue) : List Pair → SValue → Option SValue
  | [], val => some val
  | (key1, value1) :: rest, val => do
    let value2 ← valueForFlags flags (this.valueFor key1) value1
    if value2.isDefined then do
      let val ← join flags val value2
      valueForItems flags this rest val
    else valueForItems flags this rest val

end

/-- The loop of `MapValuesCopy`. -/
def mapItems (flags : Flags) (from' : SValue) : List Pair → SValue → Option SValue
  | [], out => some out
  | (key1, value1) :: rest, out => do
    let value2 ← valueForFlags flags from' value1
    if value2.isDefined then do
      let out ← joinItem out key1 value2 Flags.none
      mapItems flags from' rest out
    else mapItems flags from' rest out

def mapValuesCopy (flags : Flags) (this from' : SValue) : Option SValue :=
  if !this.isError then
    if !from'.isFinal then mapItems flags from' this.items undefined
    else if from'.isWild || this.isFinal then some this
    else some from'
  else some this

/-- The formal definition of `MapValues`, under `DB_CORRECTNESS_CHECKS`. -/
def correctMapValues (flags : Flags) (this from' : SValue) : Option SValue :=
  this.items.foldlM (fun correct p => do
    let value ← valueForFlags flags from' p.2
    joinItem correct p.1 value Flags.none) undefined

/-! ## What is found -/

variable {flags : Flags}

variable {this : SValue}

theorem valueForFlags_of_isSimple {key : SValue} (h : key.isSimple = true) :
    valueForFlags flags this key = some (this.valueFor key) := by
  cases key with
  | map m => cases (isSimple_map m).symm.trans h
  | _ => rw [valueForFlags]; simp

theorem valueForFlags_spec : ∀ key this : SValue, this.isNormal = true → key.isNormal = true →
    ∃ r, valueForFlags flags this key = some r ∧ r.isNormal = true := by
  intro key
  induction key using SValue.ind with
  | map m ih =>
    intro this hn hk
    obtain ⟨avail, dataSize, maps⟩ := m
    obtain ⟨hi, -, -⟩ := isNormal_map.1 hk
    rw [valueForFlags]
    cases hr : flags.noRecursion with
    | true => exact ⟨_, by simp, isNormal_valueFor hn hk⟩
    | false =>
    -- the loop, over any part of the key
    have loop : ∀ l : List Pair, (∀ p ∈ l, p ∈ maps) → ∀ val : SValue, val.isNormal = true →
        ∃ r, valueForItems flags this l val = some r ∧ r.isNormal = true := by
      intro l
      induction l with
      | nil => intro _ val hv; exact ⟨val, by rw [valueForItems], hv⟩
      | cons p l ihl =>
        intro hsub val hv
        obtain ⟨key1, value1⟩ := p
        have hp := hsub _ mem_cons_self
        obtain ⟨value2, hvalue2, hn2⟩ := (ih _ hp).2 (this.valueFor key1)
          (isNormal_valueFor hn (hi.normal _ hp).1) (hi.normal _ hp).2
        have ihl := ihl fun q hq => hsub q (mem_cons_of_mem _ hq)
        rw [valueForItems, hvalue2]
        show ∃ r, (if value2.isDefined then _ else _) = some r ∧ _
        split
        · obtain ⟨val', hval', hj⟩ := join_spec hr value2 val hv hn2
          rw [hval']
          exact ihl val' hj.normal
        · exact ihl val hv
    rw [if_neg Bool.false_ne_true]
    split
    · exact ⟨this, rfl, hn⟩
    · split
      · exact ⟨_, rfl, hk⟩
      · exact loop maps (fun p hp => hp) undefined rfl
  | _ =>
    intro this hn hk
    rw [valueForFlags]
    · exact ⟨_, rfl, isNormal_valueFor hn hk⟩
    all_goals simp

/-- What `ValueFor` finds. -/
def found (flags : Flags) (from' value : SValue) : SValue :=
  (valueForFlags flags from' value).getD undefined

theorem valueForFlags_eq {this key : SValue} (hn : this.isNormal = true)
    (hk : key.isNormal = true) :
    valueForFlags flags this key = some (found flags this key) := by
  obtain ⟨r, hr, -⟩ := @valueForFlags_spec flags key this hn hk
  rw [found, hr]
  rfl

theorem isNormal_found {key : SValue} (hn : this.isNormal = true) (hk : key.isNormal = true) :
    (found flags this key).isNormal = true := by
  obtain ⟨r, hr, hnr⟩ := @valueForFlags_spec flags key this hn hk
  rw [found, hr]
  exact hnr

/-- The items that are joined: those for whose value something is found. -/
def foundItems (flags : Flags) (from' : SValue) (l : List Pair) : List Pair :=
  (l.map fun p => (p.1, found flags from' p.2)).filter fun p => p.2.isDefined

/-- Joining items one after the other. -/
def joinAll (l : List Pair) (out : SValue) : Option SValue :=
  l.foldlM (fun out p => joinItem out p.1 p.2 Flags.none) out

theorem joinItem_undefined {key value : SValue} (h : value.isDefined = false) :
    joinItem this key value flags = some this := by
  unfold joinItem joinItemWith
  rw [if_neg (by simp [h])]

theorem mapItems_eq {from' : SValue} (hn : from'.isNormal = true) {l : List Pair}
    (hl : ∀ p ∈ l, p.2.isNormal = true) (out : SValue) :
    mapItems flags from' l out = joinAll (foundItems flags from' l) out ∧
      l.foldlM (fun correct p => do
        let value ← valueForFlags flags from' p.2
        joinItem correct p.1 value Flags.none) out = joinAll (foundItems flags from' l) out := by
  induction l generalizing out with
  | nil => exact ⟨rfl, rfl⟩
  | cons p l ih =>
    obtain ⟨key1, value1⟩ := p
    have ih := ih fun q hq => hl q (mem_cons_of_mem _ hq)
    have hfound := @valueForFlags_eq flags from' value1 hn (hl _ mem_cons_self)
    rw [mapItems, foldlM_cons, hfound]
    show (if (found flags from' value1).isDefined then _ else _) = _ ∧
      (joinItem out key1 (found flags from' value1) Flags.none >>= _) = _
    unfold foundItems at ih ⊢
    rw [map_cons, filter_cons]
    cases hd : (found flags from' value1).isDefined with
    | true =>
      have hcons : ∀ l', joinAll ((key1, found flags from' value1) :: l') out =
          joinItem out key1 (found flags from' value1) Flags.none >>= joinAll l' := fun l' => rfl
      rw [if_pos rfl, if_pos rfl, hcons]
      constructor
      · exact congrArg _ (funext fun out => (ih out).1)
      · exact congrArg _ (funext fun out => (ih out).2)
    | false =>
      rw [if_neg Bool.false_ne_true, if_neg Bool.false_ne_true, joinItem_undefined hd]
      exact ih out

/-! ## Joining items -/

/-- The table of one set item, which `AddNewMap` leaves when the item is there already. -/
def wrapped (x : SValue) : SValue := map ((BValueMap.create 1).setFirstMap wild x)

variable {x y key value : SValue}

theorem Terminal.editMap (h : Terminal x) :
    x.editMap = some ((BValueMap.create 1).setFirstMap wild x) := by
  rw [editMap_of_isSimple h.isSimple, h.isError, isSpecified, h.isDefined, h.isWild]
  rfl

theorem Terminal.items (h : Terminal x) : x.items = [(wild, x)] := by
  rw [items_of_isSimple h.isSimple, h.isError, h.isDefined]
  rfl

theorem Terminal.proper (h : Terminal x) : isProper (wild, x) = true :=
  isProper_iff.2 ⟨by decide, h.isDefined, fun _ => ⟨h.isSimple, h.isWild⟩⟩

theorem Terminal.wrapped_items (h : Terminal x) :
    Items ((BValueMap.create 1).setFirstMap wild x).maps :=
  Items.singleton ⟨rfl, isNormal_of_isSimple h.isSimple⟩ h.proper

theorem wrapped_not_normal (x : SValue) : (wrapped x).isNormal = false := by
  by_contra h
  have hn := (isNormal_map.1 (not_eq_false _ ▸ h)).2.2
  cases (show isRedundant [(wild, x)] = true from rfl).symm.trans hn

theorem Terminal.addItem_same (h : Terminal x) (hk : key.isWild = true) (hc : value.code = x.code) :
    (wrapped x).addItem key value = wrapped x ∧ x.addItem key value = wrapped x := by
  have hv := h.of_code hc.symm
  have hp := isProper_iff.2 ⟨isDefined_of_isWild hk, hv.isDefined,
    fun _ => ⟨hv.isSimple, hv.isWild⟩⟩
  have hsame := @addNewMap_of_mem _ h.wrapped_items 0 (wild, x) rfl key value hp
    (by rw [slot_wild (by decide), slot_wild hk, hc])
  unfold addItem
  rw [h.editMap]
  exact ⟨congrArg map hsame, congrArg map hsame⟩

theorem beginEditItem_wrapped (h : Terminal x) (key : SValue) :
    (wrapped x).beginEditItem key = none := by
  cases hb : (wrapped x).beginEditItem key with
  | none => rfl
  | some mi =>
    obtain ⟨m, i⟩ := mi
    obtain ⟨hm, -, k, cur, hi, hkw, -⟩ :=
      beginEditItem_some (show Partial (wrapped x) from h.wrapped_items) hb
    have hmaps : m.maps = [(wild, x)] := by
      unfold wrapped at hm
      rw [← SValue.map.inj hm]
      rfl
    have hmem := mem_of_getElem? hi
    rw [hmaps, mem_singleton] at hmem
    cases hmem
    exact absurd hkw (by decide)

theorem joinPair_wrapped (h : Terminal x) (f : SValue → Option SValue) :
    joinPair flags (wrapped x) key value f = joinPair flags x key value f := by
  have hx : x.beginEditItem key = none := by
    unfold beginEditItem
    split
    · rfl
    · cases x with
      | map m => exact absurd h.isSimple (by simp)
      | _ => rfl
  unfold joinPair
  rw [beginEditItem_wrapped h, hx]
  unfold addItem
  rw [h.editMap]
  rfl

theorem isSpecified_wrapped (x : SValue) :
    (wrapped x).isSpecified = true ∧ (wrapped x).isMap = true := by
  unfold wrapped
  rw [isMap_eq_not_isSimple, isSpecified, isDefined_map, isWild_map, isSimple_map]
  decide

theorem join_wrapped (h : Terminal x) (hn : y.isNormal = true) (hd : y.isDefined = true)
    (hne : x.code ≠ y.code) : join flags (wrapped x) y = join flags x y := by
  have hspec : x.isSpecified = true := by rw [isSpecified, h.isDefined, h.isWild]; rfl
  have hcmp : x.compare y ≠ .eq := fun hc => hne (compare_eq_iff.1 hc)
  obtain ⟨hws, hwm⟩ := isSpecified_wrapped x
  have hwith : ∀ loop loop', (y.isFinal = false → loop = loop') →
      joinWith (wrapped x) y loop = joinWith x y loop' := by
    intro loop loop' hloop
    unfold joinWith
    cases hf : y.isFinal with
    | true => rfl
    | false =>
      rw [if_neg Bool.false_ne_true, if_neg Bool.false_ne_true, if_pos ⟨hws, .inl hwm⟩,
        if_pos ⟨hspec, .inr hcmp⟩, hloop hf]
  cases y with
  | map m =>
    obtain ⟨avail, dataSize, maps⟩ := m
    rw [join, join]
    refine hwith _ _ fun _ => ?_
    obtain ⟨-, hmaps, -⟩ := isNormal_map.1 hn
    cases maps with
    | nil => exact absurd rfl hmaps
    | cons p maps =>
      rw [joinItems, joinItems, joinPair_wrapped h]
  | _ =>
    rw [join, join]
    · refine hwith _ _ fun hf => ?_
      rw [items_of_isSimple (by simp), hd]
      rw [isFinal, or_eq_false_iff] at hf
      rw [hf.2, if_neg Bool.false_ne_true, if_pos rfl, foldlM_cons, foldlM_cons,
        joinPair_wrapped h]
    all_goals simp

theorem not_final_wrapped (x : SValue) : (wrapped x).isFinal = false := by
  unfold wrapped
  rw [isFinal, isWild_map, isError_map]
  rfl

theorem Terminal.join_same (h : Terminal x) (hc : y.code = x.code) :
    join flags (wrapped x) y = some (wrapped x) ∧ join flags x y = some x := by
  have hy := h.of_code hc.symm
  obtain ⟨hws, hwm⟩ := isSpecified_wrapped x
  have hpair := @joinPair_wrapped flags x wild y h fun _ => none
  have hadd : joinPair flags x wild y (fun _ => none) = some (wrapped x) := by
    unfold joinPair
    have hb : x.beginEditItem wild = none := if_pos rfl
    rw [hb, (h.addItem_same (by decide) hc).2]
  have hloop : y.items.foldlM (fun this p => joinPair flags this p.1 p.2 fun _ => none)
      (wrapped x) = some (wrapped x) := by
    rw [hy.items, foldlM_cons, hpair, hadd]
    rfl
  have hmap : x.isMap = false := by rw [isMap_eq_not_isSimple, h.isSimple]; rfl
  have hjoin : ∀ this : SValue, join flags this y = joinWith this y
      (y.items.foldlM (fun this p => joinPair flags this p.1 p.2 fun _ => none) this) := by
    intro this
    cases y with
    | map m => cases (isSimple_map m).symm.trans hy.isSimple
    | _ => rw [join]; simp
  rw [hjoin, hjoin, hloop]
  unfold joinWith
  rw [hy.not_final, if_neg Bool.false_ne_true, if_neg Bool.false_ne_true, if_pos ⟨hws, .inl hwm⟩,
    if_neg, h.isDefined]
  · exact ⟨rfl, rfl⟩
  · rintro ⟨-, hm | hne⟩
    · rw [hmap] at hm; cases hm
    · exact hne (compare_eq_iff.2 hc.symm)

/-- **An item that is there already** leaves the table as it is, and makes one of the value when
it is a set item. -/
theorem Terminal.joinItem_adds (h : Terminal x) (hadds : Adds x key value) :
    joinItem (wrapped x) key value Flags.none = some (wrapped x) ∧
      joinItem x key value Flags.none = some (if key.isWild then wrapped x else x) := by
  have hwd : (wrapped x).isDefined = true := isDefined_map _
  unfold joinItem joinItemWith
  rw [not_final_wrapped, h.not_final, hwd, h.isDefined]
  rcases hadds with ⟨hk, hc⟩ | ⟨hv, hc⟩
  · have hcode := isWild_iff_code.1 hk
    have ht := h.of_code hc.symm
    have hkm : key.isMap = false := by
      rw [isMap_eq_not_isSimple, isSimple_code hcode]
      decide
    have hke : key.isError = false := by
      rw [isError_code hcode]
      decide
    have hvm : value.isMap = false := by
      rw [isMap_eq_not_isSimple, ht.isSimple]
      rfl
    rw [hk, isDefined_of_isWild hk, ht.isDefined, ht.not_final, hvm, ht.isNull, hkm, hke, ht.isError]
    unfold joinPair
    have hb : ∀ v : SValue, v.beginEditItem key = none := fun v => if_pos hk
    rw [hb, hb, (h.addItem_same hk hc).1, (h.addItem_same hk hc).2]
    exact ⟨rfl, rfl⟩
  · have ht := h.of_code hc.symm
    have hd : value.isDefined = true := by
      rw [isDefined_code (isNull_iff_code.1 hv)]
      decide
    rw [ht.isWild, ht.isDefined, hd, hv]
    exact ⟨(h.join_same hc).1, (h.join_same hc).2⟩

theorem Terminal.joinItem_wrapped (h : Terminal x) (hk : key.isNormal = true)
    (hv : value.isNormal = true) (hkd : key.isDefined = true) (hvd : value.isDefined = true)
    (hnot : ¬ Adds x key value) :
    joinItem (wrapped x) key value Flags.none = joinItem x key value Flags.none := by
  have hwd : (wrapped x).isDefined = true := isDefined_map _
  have hcomposed : ∀ y, Composed y → x.code ≠ y.code := fun y hy hc =>
    (h.of_code hc).not_composed hy
  unfold joinItem joinItemWith
  have hif : (!false && true && true) = true := rfl
  rw [not_final_wrapped, h.not_final, hwd, h.isDefined, hkd, hvd, if_pos hif, if_pos hif]
  split
  · rfl
  rename_i h1
  split
  · rename_i h2
    have hvs : value.isSimple = false := by
      simp only [and_eq_true, isMap_eq_not_isSimple, not_eq_true'] at h2
      exact h2.2
    exact join_wrapped h hv hvd (hcomposed value (.inr hvs))
  split
  · rename_i h3
    exact join_wrapped h hk hkd fun hc => hnot (.inr ⟨h3, hc.symm⟩)
  rename_i h3
  have hnull : value.isNull = false := by simpa using h3
  split
  · rename_i h4
    have hkw : key.isWild = false := by
      by_contra hkw
      have hkw : key.isWild = true := by simpa using hkw
      have hc := isWild_iff_code.1 hkw
      rw [isMap_eq_not_isSimple, isSimple_code hc, isError_code hc] at h4
      have hs : wild.isSimple = true := by decide
      have he : wild.isError = false := by decide
      have hve : value.isError = true := by simpa [hs, he] using h4
      exact h1 (by rw [hkw, isFinal, hve]; simp)
    obtain ⟨made, hmade, hm, -⟩ := initAsMap_spec key Flags.none value hk hv
    rw [hmade]
    exact join_wrapped h hm.normal (hm.defined hkd hvd) (hcomposed made
      (initAsMap_composed key Flags.none hk hv hkd hvd hkw hnull hmade))
  · exact joinPair_wrapped h _

/-! ## Joining items one after the other -/

/-- A pair that `JoinItem` adds. -/
structure Joinable (p : Pair) : Prop where
  key : p.1.isNormal = true
  value : p.2.isNormal = true
  key_defined : p.1.isDefined = true
  value_defined : p.2.isDefined = true

theorem joinAll_cons (p : Pair) (l : List Pair) (out : SValue) :
    joinAll (p :: l) out = joinItem out p.1 p.2 Flags.none >>= joinAll l := rfl

theorem Terminal.of_not_fresh (h : isFresh this key value = false) :
    Terminal this ∧ key.isWild = true ∧ value.code = this.code := by
  simp only [isFresh, not_eq_false', and_eq_true, not_eq_true',
    decide_eq_true_eq, isSpecified, isFinal, or_eq_false_iff] at h
  obtain ⟨⟨⟨⟨⟨⟨hk, -⟩, hs⟩, hd, hw⟩, hf⟩, hv⟩, hc⟩ := h
  have hcode := compare_eq_iff.1 hc
  exact ⟨⟨hs, hd, hw, by rw [isError_code hcode, hf.2], by rw [isNull_code hcode, hv]⟩,
    hk, hcode.symm⟩

theorem joinItem_other {p : Pair} (hn : this.isNormal = true) (hd : this.isDefined = true)
    (hp : Joinable p) (hnot : ¬ (Terminal this ∧ Adds this p.1 p.2)) :
    ∃ r, joinItem this p.1 p.2 Flags.none = some r ∧ r.isNormal = true ∧ r.isDefined = true ∧
      ¬ Terminal r := by
  have hfresh : isFresh this p.1 p.2 = true := by
    by_contra hf
    obtain ⟨ht, hk, hc⟩ := Terminal.of_not_fresh (by simpa using hf)
    exact hnot ⟨ht, .inl ⟨hk, hc⟩⟩
  obtain ⟨nested, r, hr, hj, hnested⟩ := joinItem_spec (rfl : Flags.none.noRecursion = false) hn hp.key
    hp.value hfresh
  refine ⟨r, hr, hj.normal, hj.defined (.inl hd), fun ht => ?_⟩
  rcases joinItem_terminal hn hp.key hp.value hp.key_defined hp.value_defined hr ht with
    ⟨rfl, hadds⟩ | ⟨hu, -⟩
  · exact hnot ⟨ht, hadds⟩
  · rw [hd] at hu; cases hu

variable {l : List Pair}

theorem joinAll_normal (hl : ∀ p ∈ l, Joinable p) (hn : this.isNormal = true)
    (hd : this.isDefined = true) (ht : ¬ Terminal this) :
    ∃ r, joinAll l this = some r ∧ r.isNormal = true := by
  induction l generalizing this with
  | nil => exact ⟨this, rfl, hn⟩
  | cons p l ih =>
    obtain ⟨out, hout, hn', hd', ht'⟩ := joinItem_other hn hd (hl p mem_cons_self)
      fun h => ht h.1
    rw [joinAll_cons, hout]
    exact ih (fun q hq => hl q (mem_cons_of_mem _ hq)) hn' hd' ht'

/-- **Joining items to a table of one set item**: it stays one while they are this item again. -/
theorem Terminal.joinAll_wrapped (h : Terminal x) (hl : ∀ p ∈ l, Joinable p) :
    ∃ r, joinAll l (wrapped x) = some r ∧
      (r.isNormal = true ↔ ¬ ∀ p ∈ l, Adds x p.1 p.2) := by
  induction l with
  | nil =>
    refine ⟨wrapped x, rfl, ?_⟩
    rw [wrapped_not_normal]
    simp
  | cons p l ih =>
    have hp := hl p mem_cons_self
    have hl' : ∀ q ∈ l, Joinable q := fun q hq => hl q (mem_cons_of_mem _ hq)
    rw [joinAll_cons, forall_mem_cons]
    by_cases hadds : Adds x p.1 p.2
    · rw [(h.joinItem_adds hadds).1]
      obtain ⟨r, hr, hiff⟩ := ih hl'
      exact ⟨r, hr, by simpa [hadds] using hiff⟩
    · rw [h.joinItem_wrapped hp.key hp.value hp.key_defined hp.value_defined hadds]
      obtain ⟨out, hout, hn, hd, ht⟩ := joinItem_other (isNormal_of_isSimple h.isSimple)
        h.isDefined hp fun hc => hadds hc.2
      rw [hout]
      obtain ⟨r, hr, hrn⟩ := joinAll_normal hl' hn hd ht
      exact ⟨r, hr, by simp [hrn, hadds]⟩

/-- **Joining items to a value**: a set item that is the value makes the table of it. -/
theorem Terminal.joinAll (h : Terminal x) (hl : ∀ p ∈ l, Joinable p) :
    ∃ r, SValue.joinAll l x = some r ∧ (r.isNormal = true ↔
      ¬ ((∀ p ∈ l, Adds x p.1 p.2) ∧ ∃ p ∈ l, p.1.isWild = true)) := by
  have hnormal := isNormal_of_isSimple h.isSimple
  induction l with
  | nil => exact ⟨x, rfl, by simp [hnormal]⟩
  | cons p l ih =>
    have hp := hl p mem_cons_self
    have hl' : ∀ q ∈ l, Joinable q := fun q hq => hl q (mem_cons_of_mem _ hq)
    rw [joinAll_cons, forall_mem_cons]
    by_cases hadds : Adds x p.1 p.2
    · rw [(h.joinItem_adds hadds).2]
      cases hk : p.1.isWild with
      | true =>
        obtain ⟨r, hr, hiff⟩ := h.joinAll_wrapped hl'
        exact ⟨r, hr, by simpa [hadds, hk] using hiff⟩
      | false =>
        obtain ⟨r, hr, hiff⟩ := ih hl'
        exact ⟨r, hr, by simpa [hadds, hk] using hiff⟩
    · obtain ⟨out, hout, hn, hd, ht⟩ := joinItem_other hnormal h.isDefined hp fun hc => hadds hc.2
      rw [hout]
      obtain ⟨r, hr, hrn⟩ := joinAll_normal hl' hn hd ht
      exact ⟨r, hr, by simp [hrn, hadds]⟩

/-- All items are one value, and a later one says so as a set item. -/
def Repeats : List Pair → Prop
  | [] => False
  | p :: l => ∃ x, Terminal x ∧ Adds x p.1 p.2 ∧ (∀ q ∈ l, Adds x q.1 q.2) ∧
      ∃ q ∈ l, q.1.isWild = true

theorem Adds.of_code (h : x.code = y.code) (hadds : Adds x key value) : Adds y key value := by
  unfold Adds at hadds ⊢
  rwa [← h]

theorem Terminal.joinItem_undefined (h : Terminal x) (hadds : Adds x key value) :
    ∃ r, joinItem undefined key value Flags.none = some r ∧ r.code = x.code := by
  unfold joinItem joinItemWith
  have hu : undefined.isFinal = false := by decide
  have hud : undefined.isDefined = false := by decide
  rw [hu, hud]
  rcases hadds with ⟨hk, hc⟩ | ⟨hv, hc⟩
  · have ht := h.of_code hc.symm
    rw [hk, isDefined_of_isWild hk, ht.isDefined]
    exact ⟨value, rfl, hc⟩
  · have ht := h.of_code hc.symm
    have hd : value.isDefined = true := by
      rw [isDefined_code (isNull_iff_code.1 hv)]
      decide
    rw [ht.isWild, ht.isDefined, hd, hv]
    refine ⟨key, ?_, hc⟩
    show join Flags.none undefined key = some key
    obtain ⟨loop, hjoin, -⟩ := join_loop (rfl : Flags.none.noRecursion = false) undefined
      (isNormal_of_isSimple ht.isSimple)
    rw [hjoin]
    unfold joinWith
    rw [ht.not_final, if_neg Bool.false_ne_true, if_neg, hud]
    · rfl
    · rintro ⟨hs, -⟩
      exact absurd hs (by decide)

/-- **Joining items one after the other** gives a normalised value unless all of them are one
simple value. -/
theorem joinAll_spec (hl : ∀ p ∈ l, Joinable p) :
    ∃ r, joinAll l undefined = some r ∧ (r.isNormal = true ↔ ¬ Repeats l) := by
  cases l with
  | nil => exact ⟨undefined, rfl, by simp [Repeats, undefined, isNormal]⟩
  | cons p l =>
    have hp := hl p mem_cons_self
    have hl' : ∀ q ∈ l, Joinable q := fun q hq => hl q (mem_cons_of_mem _ hq)
    obtain ⟨nested, out, hout, hj, hnested⟩ := joinItem_spec (rfl : Flags.none.noRecursion = false)
      (show undefined.isNormal = true from rfl) hp.key hp.value
      (show isFresh undefined p.1 p.2 = true by
        have hu : undefined.isSpecified = false := by decide
        unfold isFresh
        rw [hu]
        simp)
    rw [joinAll_cons, hout]
    by_cases ht : Terminal out
    · obtain ⟨r, hr, hiff⟩ := ht.joinAll hl'
      refine ⟨r, hr, hiff.trans (not_congr ?_)⟩
      have hadds : Adds out p.1 p.2 := by
        rcases joinItem_terminal (show undefined.isNormal = true from rfl) hp.key hp.value
          hp.key_defined hp.value_defined hout ht with ⟨rfl, -⟩ | ⟨-, h⟩
        · exact absurd ht.isDefined (by decide)
        · exact h
      constructor
      · rintro ⟨hall, hwild⟩
        exact ⟨out, ht, hadds, hall, hwild⟩
      · rintro ⟨x, hx, hfirst, hall, hwild⟩
        obtain ⟨out', hout', hc⟩ := hx.joinItem_undefined hfirst
        obtain ⟨⟩ := hout.symm.trans hout'
        exact ⟨fun q hq => (hall q hq).of_code hc.symm, hwild⟩
    · obtain ⟨r, hr, hn⟩ := joinAll_normal hl' hj.normal
        (hj.defined (.inr ⟨hp.key_defined, hp.value_defined⟩)) ht
      refine ⟨r, hr, iff_of_true hn ?_⟩
      rintro ⟨x, hx, hfirst, -⟩
      obtain ⟨out', hout', hc⟩ := hx.joinItem_undefined hfirst
      obtain ⟨⟩ := hout.symm.trans hout'
      exact ht (hx.of_code hc.symm)

end OpenBinder.SValue
