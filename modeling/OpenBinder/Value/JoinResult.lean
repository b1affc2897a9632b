import OpenBinder.Value.JoinItem

/-!
# What a joined value can be

`Join` and `JoinItem` give a table, an error or `WILD`, unless there was nothing to join to or the
value is there already.

* `join_loop`: `Join` is its cases around a loop that adds the items.
* `Composed`: a table or an error.
* `initAsMap_composed`: a key that is a map makes one of these.
* `joinItem_terminal`: when `JoinItem` gives a simple value.
-/

namespace OpenBinder.SValue

open Lib

/-- A table, or an error. -/
def Composed (v : SValue) : Prop := v.isError = true ∨ v.isSimple = false

/-- A simple value that can be a set item among others. -/
structure Terminal (v : SValue) : Prop where
  isSimple : v.isSimple = true
  isDefined : v.isDefined = true
  isWild : v.isWild = false
  isError : v.isError = false
  isNull : v.isNull = false

variable {v this r b key value : SValue}

theorem Terminal.not_composed (h : Terminal v) : ¬ Composed v := by
  rintro (he | hs)
  · rw [h.isError] at he; cases he
  · rw [h.isSimple] at hs; cases hs

theorem Terminal.not_final (h : Terminal v) : v.isFinal = false := by
  rw [isFinal, h.isWild, h.isError]; rfl

theorem Terminal.of_code {w : SValue} (h : Terminal v) (hc : v.code = w.code) : Terminal w where
  isSimple := isSimple_code hc ▸ h.isSimple
  isDefined := isDefined_code hc ▸ h.isDefined
  isWild := isWild_code hc ▸ h.isWild
  isError := isError_code hc ▸ h.isError
  isNull := isNull_code hc ▸ h.isNull

theorem Added.composed {l : List Pair} (h : Added this l r) (hne : l ≠ [] ∨ this.isSimple = false) :
    Composed r := by
  cases he : r.isError with
  | true => exact .inl he
  | false => exact .inr (h.is_map he hne)

theorem items_ne_nil (hn : v.isNormal = true) (hd : v.isDefined = true) (hf : v.isFinal = false) :
    v.items ≠ [] := by
  by_cases hs : v.isSimple = true
  · rw [isFinal, Bool.or_eq_false_iff] at hf
    rw [items_of_isSimple hs, hf.2, hd]
    simp
  · obtain ⟨m, rfl⟩ := isSimple_eq_false.1 (by simpa using hs)
    exact (isNormal_map.1 hn).2.1

variable {flags : Flags}

theorem joinItems_added (hr : flags.noRecursion = false) {l : List Pair}
    (hn : ∀ p ∈ l, p.1.isNormal = true ∧ p.2.isNormal = true) (hp : ∀ p ∈ l, isProper p = true) :
    ∀ this, Working this → ∃ r, joinItems flags this l = some r ∧ Added this l r := by
  induction l with
  | nil => intro this hw; exact ⟨this, by rw [joinItems], Added.nil hw⟩
  | cons p l ih =>
    intro this hw
    obtain ⟨k, v⟩ := p
    have hmem : (k, v) ∈ (k, v) :: l := List.mem_cons_self
    obtain ⟨r, hr1, hadd⟩ := joinPair_added (f := fun cur => join flags cur v) hr hw
      (hn _ hmem) (hp _ hmem) fun _ cur hcur => join_spec hr v cur hcur (hn _ hmem).2
    obtain ⟨r', hr', hadd'⟩ := ih (fun q hq => hn q (List.mem_cons_of_mem _ hq))
      (fun q hq => hp q (List.mem_cons_of_mem _ hq)) r hadd.working
    refine ⟨r', ?_, hadd.trans hadd'⟩
    rw [joinItems, hr1]
    exact hr'

theorem join_loop (hr : flags.noRecursion = false) (a : SValue) (hnb : b.isNormal = true) :
    ∃ loop, join flags a b = joinWith a b loop ∧
      (Working a → b.isFinal = false → b.isDefined = true →
        ∃ r, loop = some r ∧ Added a b.items r) := by
  by_cases hs : b.isSimple = true
  · refine ⟨b.items.foldlM (fun this p => joinPair flags this p.1 p.2 fun _ => none) a, ?_, ?_⟩
    · cases b with
      | map m => simp at hs
      | _ => rw [join]; simp
    · intro hw hfin hd
      rw [isFinal, Bool.or_eq_false_iff] at hfin
      have hp := isProper_iff.2 ⟨show wild.isDefined = true by decide, hd, fun _ => ⟨hs, hfin.1⟩⟩
      obtain ⟨r, hr1, hadd⟩ := joinPair_added (f := fun _ => none) hr hw ⟨rfl, hnb⟩ hp
        (fun h => absurd h (by decide))
      rw [items_of_isSimple hs, hfin.2, hd]
      exact ⟨r, by simpa using hr1, hadd⟩
  · obtain ⟨⟨avail, dataSize, maps⟩, rfl⟩ := isSimple_eq_false.1 (by simpa using hs)
    refine ⟨joinItems flags a maps, by rw [join], fun hw _ _ => ?_⟩
    obtain ⟨hi, -, -⟩ := isNormal_map.1 hnb
    exact joinItems_added hr hi.normal hi.proper a hw

section

variable {a : SValue} (hr : flags.noRecursion = false) (hw : Working a) (hnb : b.isNormal = true)
  (hd : b.isDefined = true)
include hr hw hnb hd

theorem join_cases : ∃ r, join flags a b = some r ∧
      ((b.isFinal = true ∨ a.isDefined = false) ∧ r = b ∨
        b.isFinal = false ∧ a.isDefined = true ∧ (a.isMap = true ∨ a.compare b ≠ .eq) ∧
          Added a b.items r ∨
        a.isMap = false ∧ a.code = b.code ∧ r = a) := by
  obtain ⟨loop, hjoin, hloop⟩ := join_loop hr a hnb
  rw [hjoin]
  unfold joinWith
  cases hfin : b.isFinal with
  | true => exact ⟨b, by simp, .inl ⟨.inl rfl, rfl⟩⟩
  | false =>
    obtain ⟨r, rfl, hadd⟩ := hloop hw hfin hd
    rw [if_neg Bool.false_ne_true]
    by_cases hspec : a.isSpecified = true ∧ (a.isMap = true ∨ a.compare b ≠ .eq)
    · have hda : a.isDefined = true := by
        have := hspec.1
        rw [isSpecified, Bool.and_eq_true] at this
        exact this.1
      exact ⟨r, if_pos hspec, .inr (.inl ⟨rfl, hda, hspec.2, hadd⟩)⟩
    · rw [if_neg hspec]
      cases hda : a.isDefined with
      | false => exact ⟨b, by simp, .inl ⟨.inr rfl, rfl⟩⟩
      | true =>
        refine ⟨a, by simp, .inr (.inr ?_)⟩
        have haw : a.isSpecified = true ∨ a.isWild = true := by
          rw [isSpecified, hda]
          cases a.isWild <;> simp
        rcases haw with haw | haw
        · have hnot : ¬ (a.isMap = true ∨ a.compare b ≠ .eq) := fun h => hspec ⟨haw, h⟩
          rw [not_or, not_not] at hnot
          exact ⟨by simpa using hnot.1, compare_eq_iff.1 hnot.2, rfl⟩
        · -- what is worked on is not `WILD`
          rcases hw with he | ⟨-, hwf⟩
          · rw [isError_code (isWild_iff_code.1 haw)] at he
            exact absurd he (by decide)
          · rw [hwf] at haw; cases haw

/-- What is joined to a table, or to a simple value that is another one, makes a table. -/
theorem join_composed (hbw : b.isWild = false)
    (hne : a.isDefined = true → a.isMap = true ∨ a.compare b ≠ .eq)
    (hb : a.isDefined = false → Composed b) (h : join flags a b = some r) : Composed r := by
  obtain ⟨r', hr', hcases⟩ := join_cases hr hw hnb hd
  obtain ⟨⟩ := h.symm.trans hr'
  rcases hcases with ⟨hfin | hda, rfl⟩ | ⟨hfin, -, -, hadd⟩ | ⟨hmap, hcode, rfl⟩
  · rw [isFinal, hbw, Bool.false_or] at hfin
    exact .inl hfin
  · exact hb hda
  · exact hadd.composed (.inl (items_ne_nil hnb hd hfin))
  · rcases hne (isDefined_code hcode ▸ hd) with hm | hc
    · rw [hmap] at hm; cases hm
    · exact absurd (compare_eq_iff.2 hcode) hc

end

theorem Composed.isWild (h : Composed v) : v.isWild = false := by
  rcases h with he | hs
  · exact isWild_of_isError he
  · obtain ⟨m, rfl⟩ := isSimple_eq_false.1 hs
    exact isWild_map m

theorem Composed.isNull (h : Composed v) : v.isNull = false := by
  rcases h with he | hs
  · have htype : v.mType = kErrorTypeCode := by simpa [isError] using he
    rw [SValue.isNull, htype]
    decide
  · obtain ⟨m, rfl⟩ := isSimple_eq_false.1 hs
    exact isNull_map m

theorem Composed.isMap (h : Composed v) (he : v.isError = false) : v.isMap = true := by
  rcases h with he' | hs
  · rw [he] at he'; cases he'
  · rw [isMap_eq_not_isSimple, hs]; rfl

/-- **Nothing simple comes out of `JoinItem`** where nothing simple goes in. -/
theorem joinItemWith_composed (hr : flags.noRecursion = false) {mkMap : SValue → Option SValue}
 (hn : this.isNormal = true)
    (hk : key.isNormal = true) (hv : value.isNormal = true) (hkd : key.isDefined = true)
    (hvd : value.isDefined = true) (hthis : this.isDefined = true → Composed this)
    (hnull : value.isNull = false) (hwild : key.isWild = true → Composed value)
    (hmk : key.isWild = false → ∀ made, mkMap value = some made →
      made.isNormal = true ∧ made.isDefined = true ∧ Composed made)
    (h : joinItemWith mkMap this key value flags = some r) : Composed r := by
  unfold joinItemWith at h
  by_cases hfin : this.isFinal = true
  · rw [if_neg (by simp [hfin])] at h
    obtain ⟨⟩ := h
    apply hthis
    rw [isFinal, Bool.or_eq_true] at hfin
    rcases hfin with hw | he
    · exact isDefined_of_isWild hw
    · exact isDefined_of_isError he
  rw [if_pos (by simp [hfin, hkd, hvd])] at h
  have hfin : this.isWild = false ∧ this.isError = false := by simpa [isFinal] using hfin
  have hw := Working.of_isNormal hn hfin.1
  have hmap : this.isDefined = true → this.isMap = true := fun hd => (hthis hd).isMap hfin.2
  split at h
  · rename_i h1
    simp only [Bool.and_eq_true] at h1
    obtain ⟨⟩ := h
    exact hwild h1.1
  rename_i h1
  split at h
  · rename_i h2
    simp only [Bool.and_eq_true] at h2
    exact join_composed hr hw hv hvd (hwild h2.1).isWild (fun hd => .inl (hmap hd))
      (fun _ => hwild h2.1) h
  rename_i h2
  rw [if_neg (by simp [hnull])] at h
  have hkw : key.isWild = false := by
    by_contra hkw
    have hkw : key.isWild = true := by simpa using hkw
    have hve : value.isError = false := by
      by_contra hve
      exact h1 (by simp [hkw, isFinal, hve])
    exact h2 (by simp [hkw, (hwild hkw).isMap hve])
  split at h
  · obtain ⟨made, hmade, hjoin⟩ := Option.bind_eq_some_iff.1 h
    obtain ⟨hmn, hmd, hmc⟩ := hmk hkw made hmade
    exact join_composed hr hw hmn hmd hmc.isWild (fun hd => .inl (hmap hd)) (fun _ => hmc) hjoin
  · have hp := isProper_iff.2 ⟨hkd, hvd, fun hk' => by rw [hkw] at hk'; cases hk'⟩
    obtain ⟨r', hr', hadd⟩ := joinPair_added (f := fun cur => join flags cur value) hr hw ⟨hk, hv⟩ hp
      fun _ cur hcur => join_spec hr value cur hcur hv
    obtain ⟨⟩ := h.symm.trans hr'
    exact hadd.composed (.inl (List.cons_ne_nil _ _))

theorem initAsMap_wild (hk : key.isWild = true) (hve : value.isError = false)
    (hvd : value.isDefined = true) (h : initAsMap flags key value = some r) : r = value := by
  have hc := isWild_iff_code.1 hk
  have hke : key.isError = false := by rw [isError_code hc]; decide
  cases key with
  | map m => rw [isWild_map] at hk; cases hk
  | _ =>
    rw [initAsMap] at h
    · unfold initAsMapWith at h
      rw [hke, hve, isDefined_of_isWild hk, hvd, hk] at h
      exact (Option.some.inj h).symm
    all_goals simp

theorem initAsMapWith_composed {flatten : Option SValue} (hkd : key.isDefined = true)
    (hvd : value.isDefined = true) (hkw : key.isWild = false)
    (hplain : key.isMap = false ∨ value.isError = true ∨ flags.noFlatten = true)
    (h : initAsMapWith key value flags flatten = some r) : Composed r := by
  unfold initAsMapWith at h
  by_cases hke : key.isError = true
  · rw [if_pos hke] at h
    obtain ⟨⟩ := h
    exact .inl hke
  rw [if_neg hke] at h
  by_cases hve : value.isError = true
  · rw [if_pos hve] at h
    obtain ⟨⟩ := h
    exact .inl hve
  rw [if_neg hve, if_pos (by simp [hkd, hvd]), if_neg (by simp [hkw]), if_pos] at h
  · obtain ⟨⟩ := h
    exact .inr (isSimple_map _)
  · rcases hplain with hm | he | hf
    · simp [hm]
    · exact absurd he hve
    · simp [hf]

/-- **A key that is a map** is taken apart, and makes tables of its parts. -/
theorem initAsMap_composed : ∀ (key : SValue) (flags : Flags) {value r : SValue},
    key.isNormal = true → value.isNormal = true → key.isDefined = true → value.isDefined = true →
    key.isWild = false → value.isNull = false → initAsMap flags key value = some r →
      Composed r := by
  intro key
  induction key using SValue.ind with
  | map m ih =>
    intro flags value r hk hv hkd hvd hkw hnull h
    obtain ⟨avail, dataSize, maps⟩ := m
    obtain ⟨hi, -, -⟩ := isNormal_map.1 hk
    rw [initAsMap] at h
    by_cases hplain : value.isError = true ∨ flags.noFlatten = true
    · exact initAsMapWith_composed hkd hvd hkw (.inr hplain) h
    rw [not_or] at hplain
    have hve : ¬ value.isError = true := hplain.1
    unfold initAsMapWith at h
    rw [if_neg (by simp), if_neg hve, if_pos (by simp [hvd]), if_neg (by simp),
      if_neg (by simp [isMap_eq_not_isSimple, hplain.2])] at h
    -- the loop, over any part of the table
    have loop : ∀ l : List Pair, (∀ p ∈ l, p ∈ maps) → ∀ this : SValue, this.isNormal = true →
        (this.isDefined = true → Composed this) → (this.isDefined = true ∨ l ≠ []) →
        initItems this l value = some r → Composed r := by
      intro l
      induction l with
      | nil =>
        intro _ this _ hthis hne h
        rw [initItems] at h
        obtain ⟨⟩ := h
        exact hthis (hne.resolve_right fun h => h rfl)
      | cons p l ihl =>
        intro hsub this hn hthis _ h
        obtain ⟨k, v⟩ := p
        have hp := hsub _ List.mem_cons_self
        obtain ⟨hkd', hvd', hwild⟩ := isProper_iff.1 (hi.proper _ hp)
        rw [initItems] at h
        obtain ⟨made, hmade, h⟩ := Option.bind_eq_some_iff.1 h
        obtain ⟨this', hthis', h⟩ := Option.bind_eq_some_iff.1 h
        obtain ⟨made', hmade', hm, -⟩ := initAsMap_spec v Flags.none value (hi.normal _ hp).2 hv
        obtain ⟨⟩ := hmade.symm.trans hmade'
        have hmd := hm.defined hvd' hvd
        have hcomposed : v.isWild = false → Composed made := fun hvw =>
          (ih _ hp).2 Flags.none (hi.normal _ hp).2 hv hvd' hvd hvw hnull hmade
        have hmnull : made.isNull = false := by
          cases hvw : v.isWild with
          | true => rwa [initAsMap_wild hvw (by simpa using hve) hvd hmade]
          | false => exact (hcomposed hvw).isNull
        have hfresh : isFresh this k made = true := by
          unfold isFresh
          cases hd : this.isDefined with
          | false => simp [isSpecified, hd]
          | true =>
            rcases hthis hd with he | hs
            · cases hkw' : k.isWild with
              | false => simp
              | true =>
                have hc := hcomposed ((hwild hkw').2)
                rcases hc with hme | hms
                · simp [isFinal, hme]
                · simp [hms]
            · simp [hs]
        obtain ⟨nested, r', hr', hj, -⟩ := joinItem_spec (rfl : Flags.none.noRecursion = false) hn
          (hi.normal _ hp).1 hm.normal hfresh
        obtain ⟨⟩ := hthis'.symm.trans hr'
        have hcthis : Composed this' := by
          refine joinItemWith_composed rfl hn (hi.normal _ hp).1 hm.normal hkd' hmd hthis hmnull
            (fun hkw' => hcomposed (hwild hkw').2) ?_ hthis'
          intro hkw' inner hinner
          obtain ⟨inner', hinner', hmi, -⟩ := initAsMap_spec k Flags.none made (hi.normal _ hp).1
            hm.normal
          obtain ⟨⟩ := hinner.symm.trans hinner'
          exact ⟨hmi.normal, hmi.defined hkd' hmd, (ih _ hp).1 Flags.none (hi.normal _ hp).1
            hm.normal hkd' hmd hkw' hmnull hinner⟩
        exact ihl (fun q hq => hsub q (List.mem_cons_of_mem _ hq)) this' hj.normal
          (fun _ => hcthis) (.inl (hj.defined (.inr ⟨hkd', hmd⟩))) h
    exact loop maps (fun p hp => hp) undefined rfl (fun h => absurd h (by decide))
      (.inr (isNormal_map.1 hk).2.1) h
  | _ =>
    intro flags value r hk hv hkd hvd hkw hnull h
    rw [initAsMap] at h
    · exact initAsMapWith_composed hkd hvd hkw (.inl (by simp [isMap_eq_not_isSimple])) h
    all_goals simp

/-- What is added by an item that is the value `x` alone: `{WILD -> x}`, or `{x -> NULL}`. -/
def Adds (x key value : SValue) : Prop :=
  key.isWild = true ∧ value.code = x.code ∨ value.isNull = true ∧ key.code = x.code

/-- **When `JoinItem` gives a simple value**: the value is there already, or there was none. -/
theorem joinItem_terminal (hn : this.isNormal = true) (hk : key.isNormal = true)
    (hv : value.isNormal = true) (hkd : key.isDefined = true) (hvd : value.isDefined = true)
    (h : joinItem this key value Flags.none = some r) (ht : Terminal r) :
    (r = this ∧ Adds this key value) ∨
      (this.isDefined = false ∧ Adds r key value) := by
  have hr : Flags.none.noRecursion = false := rfl
  unfold joinItem joinItemWith at h
  by_cases hfin : this.isFinal = true
  · rw [if_neg (by simp [hfin])] at h
    obtain ⟨⟩ := h
    rw [ht.not_final] at hfin
    cases hfin
  rw [if_pos (by simp [hfin, hkd, hvd])] at h
  have hfin' : this.isWild = false ∧ this.isError = false := by simpa [isFinal] using hfin
  have hw := Working.of_isNormal hn hfin'.1
  split at h
  · rename_i h1
    simp only [Bool.and_eq_true, Bool.or_eq_true, Bool.not_eq_true'] at h1
    obtain ⟨⟩ := h
    rcases h1.2 with hd | hf
    · exact .inr ⟨hd, .inl ⟨h1.1, rfl⟩⟩
    · rw [ht.not_final] at hf; cases hf
  rename_i h1
  split at h
  · rename_i h2
    simp only [Bool.and_eq_true] at h2
    have hvs : value.isSimple = false := by simpa [isMap_eq_not_isSimple] using h2.2
    refine absurd (join_composed hr hw hv hvd (Composed.isWild (.inr hvs)) (fun _ => ?_)
      (fun _ => .inr hvs) h) ht.not_composed
    by_cases hs : this.isSimple = true
    · refine .inr fun hc => ?_
      rw [isSimple_code (compare_eq_iff.1 hc), hvs] at hs
      cases hs
    · exact .inl (by simp [isMap_eq_not_isSimple, hs])
  rename_i h2
  split at h
  · -- `(* -> null)`
    rename_i h3
    obtain ⟨r', hr', hcases⟩ := join_cases hr hw hk hkd
    obtain ⟨⟩ := h.symm.trans hr'
    rcases hcases with ⟨hf | hd, rfl⟩ | ⟨hf, -, -, hadd⟩ | ⟨-, hc, rfl⟩
    · rw [ht.not_final] at hf; cases hf
    · exact .inr ⟨hd, .inr ⟨h3, rfl⟩⟩
    · exact absurd (hadd.composed (.inl (items_ne_nil hk hkd hf))) ht.not_composed
    · exact .inl ⟨rfl, .inr ⟨h3, hc.symm⟩⟩
  rename_i h3
  have hnull : value.isNull = false := by simpa using h3
  have hkw : key.isWild = true → value.isFinal = false ∧ value.isMap = false := by
    intro hkw
    constructor
    · by_contra hf
      exact h1 (by simp [hkw, hf])
    · by_contra hm
      exact h2 (by simp [hkw, hm])
  split at h
  · rename_i h4
    have hkw' : key.isWild = false := by
      by_contra hkw'
      have hkw' : key.isWild = true := by simpa using hkw'
      have hc := isWild_iff_code.1 hkw'
      have hve := (hkw hkw').1
      rw [isFinal, Bool.or_eq_false_iff] at hve
      rw [isMap_eq_not_isSimple, isSimple_code hc, isError_code hc, hve.2] at h4
      exact absurd h4 (by decide)
    obtain ⟨made, hmade, hjoin⟩ := Option.bind_eq_some_iff.1 h
    obtain ⟨made', hmade', hm, -⟩ := initAsMap_spec key Flags.none value hk hv
    obtain ⟨⟩ := hmade.symm.trans hmade'
    have hmc := initAsMap_composed key Flags.none hk hv hkd hvd hkw' hnull hmade
    refine absurd (join_composed hr hw hm.normal (hm.defined hkd hvd) hmc.isWild (fun _ => ?_)
      (fun _ => hmc) hjoin) ht.not_composed
    by_cases hs : this.isSimple = true
    · refine .inr fun hc => ?_
      have hcode := compare_eq_iff.1 hc
      rcases hmc with he | hms
      · rw [← isError_code hcode, hfin'.2] at he; cases he
      · rw [← isSimple_code hcode, hs] at hms; cases hms
    · exact .inl (by simp [isMap_eq_not_isSimple, hs])
  · rename_i h4
    have hp := isProper_iff.2 ⟨hkd, hvd, fun hkw' => ⟨by
      simpa [isMap_eq_not_isSimple] using (hkw hkw').2, by
      have := (hkw hkw').1
      rw [isFinal, Bool.or_eq_false_iff] at this
      exact this.1⟩⟩
    obtain ⟨r', hr', hadd⟩ := joinPair_added (f := fun cur => join Flags.none cur value) hr hw
      ⟨hk, hv⟩ hp fun _ cur hcur => join_spec hr value cur hcur hv
    obtain ⟨⟩ := h.symm.trans hr'
    exact absurd (hadd.composed (.inl (List.cons_ne_nil _ _))) ht.not_composed

end OpenBinder.SValue
