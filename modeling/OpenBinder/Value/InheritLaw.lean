import OpenBinder.Value.Copy
import OpenBinder.Value.InheritSpec

/-!
# Inherit is Overlay with the operands exchanged

Where neither `Inherit` (`inheritOk`) nor `Overlay` (`overlayOk`) goes wrong,
`a.Inherit(b)` compares equal to `b.OverlayCopy(a)`: both results have the set items and
the entries that `inherit_spec` and `overlay_cases` say.
-/

namespace OpenBinder.SValue

open Lib

/-- The condition on a pair of values is that on the values under a common key. -/
theorem inheritOk_entry {a b : SValue} (ha : Live a) (hspec : a.isSpecified = true)
    (hib : Items b.items) (hok : inheritOk a b = true) {c : List ℤ} {y z : SValue}
    (hy : Entry a.items c y) (hz : Entry b.items c z) : inheritOk y z = true := by
  have hbs : b.isSimple = false := by
    by_contra hs
    exact not_entry_of_isSimple (by simpa using hs) _ _ hz
  obtain ⟨⟨avail, dataSize, maps⟩, rfl⟩ := isSimple_eq_false.1 hbs
  rw [inheritOk, hspec] at hok
  obtain ⟨k, hp, hk, rfl⟩ := hz
  have hall : ∀ l whole, inheritItemsOk a whole l = true → (k, z) ∈ l → inheritOk y z = true := by
    intro l whole
    induction l with
    | nil => intro _ h; cases h
    | cons p l ih =>
      intro hok hp
      rw [inheritItemsOk, Bool.and_eq_true] at hok
      rcases List.mem_cons.1 hp with hp | hp
      · cases hp
        have hhead := hok.1
        rw [hk, if_neg (by simp), (entryFor_eq_some ha).2 ⟨hk, hy⟩] at hhead
        simp only [Bool.and_eq_true] at hhead
        exact hhead.2
      · exact ih hok.2 hp
  exact hall maps maps hok hp

/-- The law for two values, from the law for the values under their common keys. -/
theorem inherit_eq_overlay_of_entries {a b : SValue} (hna : a.isNormal = true)
    (hnb : b.isNormal = true) (hfa : a.isErrorFree = true) (hfb : b.isErrorFree = true)
    (hok : inheritOk a b = true) (hover : overlayOk b.copy a = true)
    (ih : ∀ c y z, Entry a.items c y → Entry b.items c z → inheritOk y z = true →
      overlayOk z.copy y = true → ∃ r s, inherit Flags.none y z = some r ∧
        overlay Flags.none z.copy y = some s ∧ r.code = s.code) :
    ∃ r s, inherit Flags.none a b = some r ∧ overlay Flags.none b.copy a = some s ∧
      r.code = s.code := by
  have hnc := isNormal_copy hnb
  have hfc := isErrorFree_copy hfb
  obtain ⟨r, hr, hin⟩ := inherit_spec (rfl : Flags.none.noRecursion = false) b a hna hnb hfa hfb hok
  obtain ⟨s, hs, hov⟩ := (overlay_cases (rfl : Flags.none.noRecursion = false) a b.copy hnc hna hfc hfa).2 hover
  refine ⟨r, s, hr, hs, ?_⟩
  cases hda : a.isDefined with
  | false => rw [hin.replace hda, hov.keep hda, code_copy]
  | true =>
  cases hwa : a.isWild with
  | true => rw [hin.keep (.inl hwa), hov.replace hda (.inl hwa)]
  | false =>
  have hsa := isSpecified_iff.2 ⟨hda, hwa⟩
  cases hsb : b.isSpecified with
  | false => rw [hin.keep (.inr ⟨hsa, hsb⟩), hov.replace hda (.inr (by simpa using hsb))]
  | true =>
  have hsc : b.copy.isSpecified = true := by simpa using hsb
  have hwb := (isSpecified_iff.1 hsb).2
  have ha : Live a := ⟨Partial.of_isNormal hna, hwa, hfa⟩
  have hb : Live b := ⟨Partial.of_isNormal hnb, hwb, hfb⟩
  have hc : Live b.copy := ⟨Partial.of_isNormal hnc, by simpa using hwb, hfc⟩
  refine code_of_view hin.normal hov.normal (hin.wild hsa) (hov.wild hwa hsc)
    (isError_of_isErrorFree hin.errorFree) (isError_of_isErrorFree hov.errorFree) (fun t => ?_)
    (fun c x hx => ?_) fun c y hy => ?_
  · rw [hin.set hsa hsb, hov.set hsc hsa, SetUnder, SetOver, setItem_copy]
    simp
  · rcases (hin.entry hsa hsb c x).1 hx with ⟨y, z, hy, hz, hyz⟩ | ⟨hy, hno⟩ | ⟨hz, hno⟩
    · -- both have the key, and both results have what the recursive calls made
      obtain ⟨x', hx'⟩ := (hov.keys hsc hsa c).2 (.inr ⟨y, hy⟩)
      refine ⟨x', hx', ?_⟩
      have hzc := (entry_copy c _).2 ⟨z, hz, rfl⟩
      rcases (hov.entry hsc hsa c x').1 hx' with ⟨z', y', hz', hy', hzy⟩ | ⟨-, hno⟩ | ⟨-, hno⟩
      · rw [Entry.unique hc.items hz' hzc, Entry.unique ha.items hy' hy] at hzy
        have hoverz : overlayOk z.copy y = true := by
          by_contra hno
          have hyn := hy.normal ha.items
          have hzn := hz.normal hb.items
          rw [(overlay_cases (rfl : Flags.none.noRecursion = false) y z.copy (isNormal_copy hzn.1) hyn.1
            (isErrorFree_copy (hz.errorFree (isErrorFree_items hfb)))
            (hy.errorFree (isErrorFree_items hfa))).1 (by simpa using hno)] at hzy
          cases hzy
        obtain ⟨r', s', hr', hs', hcode⟩ :=
          ih c y z hy hz (inheritOk_entry ha hsa hb.items hok hy hz) hoverz
        rw [hyz] at hr'
        rw [hzy] at hs'
        cases hr'
        cases hs'
        exact hcode
      · exact absurd hy (hno y)
      · exact absurd hzc (hno _)
    · refine ⟨x, (hov.entry hsc hsa c x).2 (.inr (.inr ⟨hy, fun z' hz' => ?_⟩)), rfl⟩
      obtain ⟨z, hz, -⟩ := (entry_copy c z').1 hz'
      exact hno z hz
    · exact ⟨x.copy, (hov.entry hsc hsa c _).2 (.inr (.inl ⟨(entry_copy c _).2 ⟨x, hz, rfl⟩, hno⟩)),
        (code_copy x).symm⟩
  · rw [hin.keys hsa hsb]
    rcases (hov.keys hsc hsa c).1 ⟨y, hy⟩ with ⟨z', hz'⟩ | h
    · obtain ⟨z, hz, -⟩ := (entry_copy c z').1 hz'
      exact .inr ⟨z, hz⟩
    · exact .inl h

/-- **`a.Inherit(b)` equals `b.OverlayCopy(a)`**, where neither goes wrong. -/
theorem inherit_eq_overlay : ∀ b a : SValue, a.isNormal = true → b.isNormal = true →
    a.isErrorFree = true → b.isErrorFree = true → inheritOk a b = true →
    overlayOk b.copy a = true →
    ∃ r s, inherit Flags.none a b = some r ∧ overlay Flags.none b.copy a = some s ∧
      r.code = s.code := by
  intro b
  induction b using SValue.ind with
  | map m ih =>
    intro a hna hnb hfa hfb hok hover
    refine inherit_eq_overlay_of_entries hna hnb hfa hfb hok hover fun c y z hy hz hoky hoverz => ?_
    obtain ⟨hi, -, -⟩ := isNormal_map.1 hnb
    have hwa : a.isWild = false := by
      by_contra hw
      have hs : a.isSimple = true := by
        rw [isSimple_code (isWild_iff_code.1 (by simpa using hw))]; decide
      exact not_entry_of_isSimple hs _ _ hy
    have hyn := hy.normal ((Partial.of_isNormal hna).items hwa)
    have hyf := hy.errorFree (isErrorFree_items hfa)
    obtain ⟨k, hp, -, -⟩ := hz
    exact (ih _ hp).2 y hyn.1 (hi.normal _ hp).2 hyf (isErrorFree_map.1 hfb _ hp).2 hoky hoverz
  | _ =>
    intro a hna hnb hfa hfb hok hover
    exact inherit_eq_overlay_of_entries hna hnb hfa hfb hok hover fun c y z _ hz _ _ =>
      absurd hz (not_entry_of_isSimple (by simp) _ _)

/-- **The law that `Inherit` is checked against**: `a.Inherit(b)` equals
`b.OverlayCopy(a)`, for values that neither operation goes wrong on. -/
theorem inherit_eq_overlayCopy (a b : NormalValue) (hi : inheritOk a.val b.val = true)
    (ho : overlayOk b.val.copy a.val = true) :
    ∃ r s, inherit Flags.none a.val b.val = some r ∧
      overlayCopy Flags.none b.val a.val = some s ∧ r.compare s = .eq := by
  obtain ⟨r, s, hr, hs, hcode⟩ := inherit_eq_overlay b.val a.val a.normal b.normal a.errorFree
    b.errorFree hi ho
  exact ⟨r, s, hr, hs, compare_eq_iff.2 hcode⟩

/-- `{2 -> {10 -> 1}}`. -/
def laterKey : NormalValue :=
  ⟨ofPairs [(int32 2, ofPairs [(int32 10, int32 1)])], by decide, by decide⟩

/-- `{1 -> {11 -> 3}, 2 -> {12 -> 2}}`. -/
def earlierKeys : NormalValue :=
  ⟨ofPairs [(int32 1, ofPairs [(int32 11, int32 3)]), (int32 2, ofPairs [(int32 12, int32 2)])],
    by decide, by decide⟩

theorem inherit_eq_overlayCopy_earlierKeys :
    ∃ r s, inherit Flags.none earlierKeys.val laterKey.val = some r ∧
      overlayCopy Flags.none laterKey.val earlierKeys.val = some s ∧ r.compare s = .eq :=
  inherit_eq_overlayCopy earlierKeys laterKey (by decide +kernel) (by decide +kernel)

/-- Inheriting `{1 -> {11 -> 3}, 2 -> {12 -> 2}}` into `{2 -> {10 -> 1}}` first adds the key 1
in front of the key 2, and then gives the key 1 what belongs under the key 2. -/
theorem inherit_stale_index : ¬ ∃ r s, inherit Flags.none laterKey.val earlierKeys.val = some r ∧
    overlayCopy Flags.none earlierKeys.val laterKey.val = some s ∧ r.compare s = .eq := by
  have h : ((inherit Flags.none laterKey.val earlierKeys.val).bind fun r =>
      (overlayCopy Flags.none earlierKeys.val laterKey.val).map fun s => r.compare s) = some .gt := by
    decide +kernel
  rintro ⟨r, s, hr, hs, hc⟩
  rw [hr, hs] at h
  simp [hc] at h

end OpenBinder.SValue
