import OpenBinder.Value.Normal

/-!
# Looking into a value

`ValueFor` of one key and `HasItem`. A set item counts as a key that maps to `NULL`.
-/

namespace OpenBinder.SValue

/-- `SValue::ValueFor(key)`. -/
def valueFor (this key : SValue) : SValue :=
  if key.isWild then this
  else match this with
    | map m =>
      match m.indexFor key with
      | some index => (m.maps[index]?.map Prod.snd).getD undefined
      -- look in a set
      | none => if (m.indexFor wild key).isSome then null else undefined
    | v =>
      if v.isWild then key
      else if key.compare v = .eq then null
      else if v.isError then v
      else undefined

def hasItem (this key : SValue) (value : SValue := undefined) : Bool :=
  if !this.isError then
    if this.isWild then true
    else if key.isWild then
      if value.isWild then this.isDefined
      else match this with
        | map m => (m.indexFor key value).isSome
        | v => decide (v.compare value = .eq)
    else match this with
      | map m => (m.indexFor key value).isSome || (m.indexFor wild key).isSome
      | v => decide (key.compare v = .eq)
  else false

/-- **What is found is a part of the value**, or the key, or `NULL`: it is normalised and has
no error where the two have none. -/
theorem valueFor_cases (this key : SValue) :
    this.valueFor key = this ∨ this.valueFor key = key ∨ this.valueFor key = null ∨
      this.valueFor key = undefined ∨
      ∃ m p, this = map m ∧ p ∈ m.maps ∧ this.valueFor key = p.2 := by
  unfold valueFor
  split
  · exact .inl rfl
  split
  · rename_i m
    split
    · rename_i index _
      cases hget : m.maps[index]? with
      | none => exact .inr (.inr (.inr (.inl rfl)))
      | some p =>
        exact .inr (.inr (.inr (.inr ⟨m, p, rfl, List.mem_of_getElem? hget, rfl⟩)))
    · split
      · exact .inr (.inr (.inl rfl))
      · exact .inr (.inr (.inr (.inl rfl)))
  · split
    · exact .inr (.inl rfl)
    · split
      · exact .inr (.inr (.inl rfl))
      · split
        · exact .inl rfl
        · exact .inr (.inr (.inr (.inl rfl)))

theorem isNormal_valueFor {this key : SValue} (hn : this.isNormal = true) (hk : key.isNormal = true) :
    (this.valueFor key).isNormal = true := by
  rcases valueFor_cases this key with h | h | h | h | ⟨m, p, rfl, hp, h⟩ <;> rw [h]
  · exact hn
  · exact hk
  · rfl
  · rfl
  · exact ((isNormal_map.1 hn).1.normal p hp).2

theorem isErrorFree_valueFor {this key : SValue} (hf : this.isErrorFree = true)
    (hk : key.isErrorFree = true) : (this.valueFor key).isErrorFree = true := by
  rcases valueFor_cases this key with h | h | h | h | ⟨m, p, rfl, hp, h⟩ <;> rw [h]
  · exact hf
  · exact hk
  · decide
  · decide
  · exact (isErrorFree_map.1 hf p hp).2

end OpenBinder.SValue
