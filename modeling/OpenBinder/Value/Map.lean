import Mathlib.Data.Nat.Basic

/-!
# The pair table of a map value

`BValueMap` is the block of (key, value) pairs behind a map `SValue`. The
operations here place pairs by index and do not look at them; the ones that search
by key are in `Value.Basic`.

The block has a **capacity** `avail`, which `RemoveMapAt` looks at. A table that
several values share is cloned before it is changed (`SValue::edit_map`), so `avail`
here is the capacity the pairs have once the table is private: `m_avail` for a
table with one user, the capacity of a fresh clone for a shared one.

Running out of memory is not modelled.
-/

namespace OpenBinder

/-- A table of (key, value) pairs. `dataSize` is the cached archived size, `none`
for `B_ERROR`. -/
structure BValueMap (ν : Type) where
  avail : ℕ
  dataSize : Option ℕ
  maps : List (ν × ν)

namespace BValueMap

variable {ν : Type}

/-- The capacity `BValueMapPool::Create` gives to a table made for `initSize`
pairs: up to six pairs it comes from one of three pools. -/
def capacity (initSize : ℕ) : ℕ :=
  if initSize ≤ 1 then 1
  else if initSize ≤ 3 then 3
  else if initSize ≤ 6 then 6
  else initSize

theorem le_capacity (n : ℕ) : n ≤ capacity n := by
  unfold capacity
  split
  · omega
  · split
    · omega
    · split <;> omega

def create (initSize : ℕ) : BValueMap ν := ⟨capacity initSize, none, []⟩

def countMaps (m : BValueMap ν) : ℕ := m.maps.length

/-- `BValueMap::SetFirstMap`, on a table without pairs. -/
def setFirstMap (m : BValueMap ν) (key value : ν) : BValueMap ν :=
  { m with dataSize := none, maps := [(key, value)] }

def clone (m : BValueMap ν) : BValueMap ν :=
  { m with avail := capacity m.countMaps }

/-- `BValueMap::AddMapAt`: a full table moves to a block half as large again. -/
def addMapAt (m : BValueMap ν) (index : ℕ) (key value : ν) : BValueMap ν :=
  if m.countMaps ≥ m.avail then
    ⟨capacity ((m.countMaps + 1) * 3 / 2), none, m.maps.insertIdx index (key, value)⟩
  else
    { m with maps := m.maps.insertIdx index (key, value) }

/-- `BValueMap::RemoveMapAt`. The pair is destroyed first. If the block is then
less than a quarter full, the others move to a smaller one: those before `index` are
copied from `m_maps + index` on, where the destroyed pair lies, instead of from
`m_maps` on. Only `index = 0` has none to copy; otherwise there is no result. -/
def removeMapAt (m : BValueMap ν) (index : ℕ) : Option (BValueMap ν) :=
  let size := m.countMaps - 1
  if size * 4 < m.avail ∧ 0 < size then
    if 0 < index then none
    else some ⟨capacity (size * 2), none, m.maps.eraseIdx index⟩
  else some ⟨m.avail, none, m.maps.eraseIdx index⟩

theorem addMapAt_maps (m : BValueMap ν) (index : ℕ) (key value : ν) :
    (m.addMapAt index key value).maps = m.maps.insertIdx index (key, value) := by
  unfold addMapAt; split <;> rfl

theorem addMapAt_avail (m : BValueMap ν) (index : ℕ) (key value : ν) :
    (m.addMapAt index key value).avail =
      if m.countMaps ≥ m.avail then capacity ((m.countMaps + 1) * 3 / 2) else m.avail := by
  unfold addMapAt; split <;> rfl

theorem removeMapAt_maps {m m' : BValueMap ν} {index : ℕ} (h : m.removeMapAt index = some m') :
    m'.maps = m.maps.eraseIdx index := by
  unfold removeMapAt at h
  simp only at h
  split at h
  · split at h
    · exact absurd h (by simp)
    · cases h; rfl
  · cases h; rfl

/-- Removing a pair goes wrong exactly when the block is compacted around a pair
that is not the first. -/
theorem removeMapAt_eq_none {m : BValueMap ν} {index : ℕ} :
    m.removeMapAt index = none ↔
      (m.countMaps - 1) * 4 < m.avail ∧ 1 < m.countMaps ∧ 0 < index := by
  unfold removeMapAt
  simp only
  split
  · rename_i h
    split
    · simp; omega
    · simp; omega
  · simp; omega

end BValueMap

end OpenBinder
