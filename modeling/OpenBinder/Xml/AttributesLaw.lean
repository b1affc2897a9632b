import OpenBinder.Value.Arguments
import OpenBinder.Xml.ParserCore

/-!
# The map of the attributes

A string can always be joined to the attributes, also where one is that has the name.

* `IsAttributes`: a map whose keys are simple.
* `joinItem_isAttributes`: joining keeps it.
* `handleElementStart_run`: what `handle_element_start` does is a callback.
-/

namespace OpenBinder

open Lib

namespace SValue

variable {this key value : SValue}

theorem join_isKey (flags : Flags) (cur : SValue) (h : value.IsKey) :
    ∃ c, join flags cur value = some c ∧ c.isDefined = true := by
  have hloop : joinPair flags cur wild value (fun _ => none) = some (cur.addItem wild value) := by
    simp [joinPair, beginEditItem, wild, isWild, mType]
  have hjoin : join flags cur value = joinWith cur value (some (cur.addItem wild value)) := by
    have hsimple := h.simple
    have hitems := h.items
    cases value with
    | map m => exact absurd hsimple (by rw [isSimple_map]; decide)
    | small type data => simp [join, hitems, hloop]
    | large type buffer => simp [join, hitems, hloop]
  have hfinal : value.isFinal = false := by simp [isFinal, h.wild, h.error]
  rw [hjoin]
  unfold joinWith
  rw [hfinal, if_neg (by decide)]
  split
  · refine ⟨_, rfl, ?_⟩
    rename_i hspecified
    have hdefined : cur.isDefined = true := by
      have hs := hspecified.1
      unfold isSpecified at hs
      exact (Bool.and_eq_true _ _ ▸ hs).1
    unfold addItem
    split
    · rfl
    · exact hdefined
  · split
    · exact ⟨_, rfl, h.defined⟩
    · rename_i hdefined
      exact ⟨_, rfl, by simpa using hdefined⟩

/-- **A map whose keys are simple**, or nothing. -/
def IsAttributes (v : SValue) : Prop := ∀ p ∈ v.items, p.1.IsKey

theorem addNewMap_keys {m : BValueMap SValue} (h : ∀ p ∈ m.maps, p.1.IsKey) (hk : key.IsKey)
    (value : SValue) : ∀ p ∈ (m.addNewMap key value).maps, p.1.IsKey := by
  unfold BValueMap.addNewMap
  split
  · split
    · intro p hp
      rw [BValueMap.addMapAt_maps] at hp
      rcases List.eq_or_mem_of_mem_insertIdx hp with rfl | hp
      · exact hk
      · exact h p hp
    · exact h
  · exact h

/-- **Joining a string to the attributes** ends, and makes attributes again. -/
theorem joinItem_isAttributes (h : this.IsAttributes) (hk : key.IsKey) (hv : value.IsPlain) :
    ∃ r, SValue.joinItem this key value Flags.none = some r ∧ r.IsAttributes := by
  have hkmap : key.isMap = false := by rw [isMap_eq_not_isSimple, hk.simple, Bool.not_true]
  cases hfinal : this.isFinal with
  | true =>
    refine ⟨this, ?_, h⟩
    simp [SValue.joinItem, joinItemWith, hfinal]
  | false =>
    have hjoin : SValue.joinItem this key value Flags.none =
        joinPair Flags.none this key value fun cur => join Flags.none cur value := by
      simp [SValue.joinItem, joinItemWith, hfinal, hk.defined, hk.wild, hv.defined, hv.null,
        hkmap, hk.error, hv.error]
    rw [hjoin]
    unfold joinPair
    split
    · -- the key is there
      rename_i m i hedit
      obtain ⟨rfl, hindex⟩ : this = map m ∧ m.indexFor key = some i := by
        unfold beginEditItem at hedit
        rw [if_neg (by rw [hk.wild]; decide)] at hedit
        split at hedit
        · obtain ⟨j, hj, hmj⟩ := Option.map_eq_some_iff.1 hedit
          obtain ⟨⟩ := hmj
          exact ⟨rfl, hj⟩
        · cases hedit
      have hlt : i < m.maps.length := by
        unfold BValueMap.indexFor at hindex
        split at hindex
        · rename_i heq
          obtain ⟨⟩ := hindex
          have hhit := @BValueMap.getIndexOf_lt m key undefined
          rw [heq] at hhit
          exact hhit rfl
        · cases hindex
      obtain ⟨c, hc, hdefined⟩ := join_isKey Flags.none m.maps[i].2 hv.toIsKey
      have hget : m.beginEditMapAt i = some m.maps[i].2 := by
        simp [BValueMap.beginEditMapAt, hlt]
      have hedited : ∀ p ∈ m.maps.modify i fun p => (p.1, c), p.1.IsKey := by
        intro p hp
        obtain ⟨j, hj, rfl⟩ := List.mem_iff_getElem.1 hp
        rw [List.length_modify] at hj
        rw [List.getElem_modify]
        split
        · exact h m.maps[j] (List.getElem_mem hj)
        · exact h m.maps[j] (List.getElem_mem hj)
      have hstate : (editAt m i fun cur =>
          if Flags.none.noRecursion then some value else join Flags.none cur value) =
          if c.errorCheck < 0 then some (error (BitVec.ofInt 32 c.errorCheck))
          else some (shrinkMap ⟨m.avail, none, m.maps.modify i fun p => (p.1, c)⟩) := by
        have hflags : Flags.none.noRecursion = false := rfl
        simp [editAt, hget, hc, endEditItem, BValueMap.endEditMapAt, hdefined, hflags]
      rw [hstate]
      split
      · -- an error has no items
        have hnil : (error (BitVec.ofInt 32 c.errorCheck)).items = [] := by
          have hs : (error (BitVec.ofInt 32 c.errorCheck)).isSimple = true :=
            (by decide : (unpackTypeLength kErrorTypeCode != typeLengthMap) = true)
          rw [items_of_isSimple hs, isError_error, if_pos rfl]
        refine ⟨_, rfl, fun p hp => ?_⟩
        rw [hnil] at hp
        cases hp
      · refine ⟨_, rfl, ?_⟩
        unfold shrinkMap
        dsimp only
        split
        · exact fun p hp => absurd hp List.not_mem_nil
        · rename_i k v hmaps
          rw [hmaps] at hedited
          rw [(hedited (k, v) List.mem_cons_self).wild, if_neg (by decide)]
          exact fun p hp => hedited p (hmaps ▸ hp)
        · exact hedited
    · refine ⟨_, rfl, ?_⟩
      obtain ⟨herror, hwild⟩ : this.isError = false ∧ this.isWild = false := by
        unfold isFinal at hfinal
        simpa [and_comm] using hfinal
      obtain ⟨m, hm, hmaps⟩ := editMap_spec herror hwild
      unfold addItem
      rw [hm]
      refine addNewMap_keys (fun p hp => ?_) hk value
      rw [hmaps] at hp
      exact h p hp

end SValue

namespace Xml

variable {σ : Type}

theorem isPlain_string (chars : List Byte) : (stringValue chars).IsPlain :=
  SValue.isPlain_ofBytes (by decide) _

namespace XMLParserCore

theorem joinItem_run {map key : SValue} (h : map.IsAttributes) (hk : key.IsKey)
    (value : List Byte) (s : σ) :
    ∃ r, r.IsAttributes ∧ joinItem map key value s = (.ok r, s) := by
  obtain ⟨r, hr, hattributes⟩ := SValue.joinItem_isAttributes h hk (isPlain_string value)
  refine ⟨r, hattributes, ?_⟩
  unfold joinItem
  rw [hr]
  rfl

theorem attributesLoop_run (flags : BitVec 32) (s : σ) : ∀ (n i : ℕ) (attributes : SValue),
    attributes.IsAttributes → ∃ r, r.IsAttributes ∧
      attributesLoop flags n i attributes s = (.ok r, s) := by
  intro n
  induction n with
  | zero => exact fun i attributes h => ⟨attributes, h, rfl⟩
  | succ n ih =>
    intro i attributes h
    rcases hitem : attributes.items[i]? with _ | ⟨key, value⟩
    · refine ⟨attributes, h, ?_⟩
      simp only [attributesLoop, hitem]
      rfl
    · obtain ⟨r, hr, hjoin⟩ := @joinItem_run σ attributes key h (h _ (List.mem_of_getElem? hitem))
        (attributeValue flags (asString value)) s
      simp only [attributesLoop, hitem]
      rw [Fallible.bind_ok hjoin]
      exact ih (i + 1) r hr

theorem handleElementStart_run (context : Context σ) (name : List Byte) {attributes : SValue}
    (h : attributes.IsAttributes) (flags : BitVec 32) (s : σ) :
    ∃ r, handleElementStart context name attributes flags s = context (.startTag name r) s := by
  have hexpand : ∃ r, expandAttributes flags attributes s = (.ok r, s) := by
    unfold expandAttributes
    split
    · obtain ⟨r, -, hrun⟩ := attributesLoop_run flags s attributes.items.length 0 attributes h
      exact ⟨r, hrun⟩
    · exact ⟨attributes, rfl⟩
  obtain ⟨r, hrun⟩ := hexpand
  exact ⟨r, Fallible.bind_ok hrun _⟩

end XMLParserCore

end Xml

end OpenBinder
