import OpenBinder.Lib.Word
import OpenBinder.Value.Basic

/-!
# Row nodes and datums of an indexed table

A table keeps a node for each row that was asked for, and a node a datum for each of its columns, in
vectors that are sorted by the index. Each object here knows where the row or column is that it was
made for, and `m_index` is to say the same.

* `Slots.updateDatumIndices`, `Slots.updateEntryIndices`: the two loops that follow an edit.
* `BIndexedTableNode.fetchCollapsed`: a row with all of its columns.
* `BIndexedTableNode.perform`: the steps of a table.
-/

namespace OpenBinder

open Lib

/-- Rows or columns are inserted at an index, or, where `delta` is negative, so many removed. -/
structure Edit where
  index : ℕ
  delta : ℤ

namespace Edit

variable (e : Edit)

/-- How many are inserted. -/
def more : ℕ := e.delta.toNat

/-- How many are removed. -/
def less : ℕ := (-e.delta).toNat

/-- It is within so many, and they can be counted after it. -/
def Valid (n : ℕ) : Prop := e.index + e.less ≤ n ∧ n + e.more < 2 ^ 31

/-- Where something is after it, unless it is removed. -/
def follow (k : ℕ) : Option ℕ :=
  if k < e.index then some k
  else if k < e.index + e.less then none
  else some (k + e.more - e.less)

end Edit

/-- A row node or a datum: `m_index`, where `none` is `B_ENTRY_NOT_FOUND`, where the row or column is
that it was made for, and what it keeps. -/
structure Slot (α : Type) where
  index : Option ℕ
  place : Option ℕ
  kept : α

/-- The sorted vector of the objects of a table, which may be `NULL`, and those that were removed. -/
structure Slots (α : Type) where
  table : Option (List (ℕ × Slot α))
  removed : List (Slot α)

namespace Slots

variable {α : Type} (s : Slots α) (index : ℕ) (delta : ℤ)

def entries : List (ℕ × Slot α) := s.table.getD []

/-- `CeilIndexOf`: the objects in front of it, and the others. Behind the last key it is the last
position, and there is none if there are no objects. -/
def splitAtCeil (l : List (ℕ × Slot α)) : Option (List (ℕ × Slot α) × List (ℕ × Slot α)) :=
  if l = [] then none
  else if l.dropWhile (·.1 < index) = [] then some (l.dropLast, l.drop (l.length - 1))
  else some (l.takeWhile (·.1 < index), l.dropWhile (·.1 < index))

/-- `posIndex += delta`, and `m_index` with it. -/
def shift (entry : ℕ × Slot α) : ℕ × Slot α :=
  let posIndex := (size (entry.1 + delta)).toNat
  (posIndex, { entry.2 with index := some posIndex })

/-- The loop of `UpdateDatumIndicesLocked`: what stays, and what is removed. -/
def datumLoop : List (ℕ × Slot α) → List (ℕ × Slot α) × List (Slot α)
  | [] => ([], [])
  | entry :: rest =>
    let (stays, removed) := datumLoop rest
    if entry.1 < index then (entry :: stays, removed)
    else if delta < 0 ∧ entry.1 < size (index - delta) then
      (stays, { entry.2 with index := none } :: removed)
    else (shift delta entry :: stays, removed)

/-- The loop of `UpdateEntryIndicesLocked`, for a number of turns; `none` if it has not ended then. It
never goes to the next position. -/
def entryLoop : ℕ → List (ℕ × Slot α) → Option (List (ℕ × Slot α) × List (Slot α))
  | _, [] => some ([], [])
  | 0, _ :: _ => none
  | turns + 1, entry :: rest =>
    if entry.1 ≥ index then
      if delta < 0 ∧ entry.1 < size (index - delta) then do
        let (stays, removed) ← entryLoop turns rest
        return (stays, { entry.2 with index := none } :: removed)
      else entryLoop turns (shift delta entry :: rest)
    else entryLoop turns (entry :: rest)

/-- The objects from the ceiling of an index on go through a loop. -/
def update (loop : List (ℕ × Slot α) → Option (List (ℕ × Slot α) × List (Slot α))) :
    Option (Slots α) :=
  match s.table with
  | none => some s
  | some entries =>
    match splitAtCeil index entries with
    | none => some s
    | some (front, rest) => do
      let (stays, removed) ← loop rest
      return ⟨some (front ++ stays), s.removed ++ removed⟩

/-- `SDatumGeneratorInt::UpdateDatumIndicesLocked`. Its loop always ends. -/
def updateDatumIndices : Slots α :=
  (s.update index fun l => some (datumLoop index delta l)).getD s

/-- `BIndexedTableNode::UpdateEntryIndicesLocked`, for a number of turns of its loop. -/
def updateEntryIndices (turns : ℕ) : Option (Slots α) := s.update index (entryLoop index delta turns)

/-- `NodeAtLocked` or `DatumAtLocked`: the object at an index is made if there is none. -/
def objectAt (kept : α) : Slots α :=
  if s.entries.any (·.1 = index) then s
  else { s with table := some (s.entries.takeWhile (·.1 < index) ++
    (index, ⟨some index, some index, kept⟩) :: s.entries.dropWhile (·.1 < index)) }

/-- The destructor of the object at an index. An empty vector is deleted. -/
def drop : Slots α :=
  let left := s.entries.filter (·.1 ≠ index)
  { s with table := if left = [] then none else some left }

/-- The rows or columns themselves are edited, and are where they are then. -/
def followed (e : Edit) : Slots α :=
  let follow := fun o : Slot α => { o with place := o.place.bind e.follow }
  ⟨s.table.map (List.map fun entry => (entry.1, follow entry.2)), s.removed.map follow⟩

/-- What the objects keep is changed. -/
def modify (f : ℕ → α → α) : Slots α :=
  { s with table := s.table.map (List.map fun entry =>
      (entry.1, { entry.2 with kept := f entry.1 entry.2.kept })) }

end Slots

/-- What the virtuals answer: `ColumnNameAtLocked`, `ValueAtLocked`, and the binder of a datum. -/
structure TableVirtuals where
  name : ℕ → SValue
  value : ℕ → ℕ → SValue
  binder : ℕ → ℕ → SValue

/-- What is to be in a row for a column: its value, or its datum if data is not requested and the
value is no object. -/
def TableVirtuals.cell (v : TableVirtuals) (data : Bool) (row column : ℕ) : SValue :=
  if data ∨ (v.value row column).isObject then v.value row column else v.binder row column

/-- `BIndexedTableNode`: how many rows and columns it has, and `m_nodes`. -/
structure BIndexedTableNode where
  rows : ℕ
  columns : ℕ
  nodes : Slots (Slots Unit)

namespace BIndexedTableNode

variable (t : BIndexedTableNode)

/-- `NodeAtLocked`. -/
def nodeAt (row : ℕ) : BIndexedTableNode := { t with nodes := t.nodes.objectAt row ⟨none, []⟩ }

/-- `FetchValueAtLocked`; `none` for a column that there is not. -/
def fetchValueAt (v : TableVirtuals) (data : Bool) (row column : ℕ) :
    Option (SValue × BIndexedTableNode) :=
  if column < t.columns then
    if data ∨ (v.value row column).isObject then some (v.value row column, t)
    else some (v.binder row column,
      { t with nodes := t.nodes.modify fun key datums =>
          if key = row then datums.objectAt column () else datums })
  else none

/-- The loop of `FetchEntryAtLocked` over the columns: the items that are joined to the entry. -/
def fetchColumns (v : TableVirtuals) (data : Bool) (row : ℕ) :
    List ℕ → BIndexedTableNode → Option (List (SValue × SValue) × BIndexedTableNode)
  | [], t => some ([], t)
  | column :: rest, t => do
    let (value, t) ← t.fetchValueAt v data row column
    let (items, t) ← fetchColumns v data row rest t
    return ((v.name column, value) :: items, t)

/-- `FetchEntryAtLocked` with `COLLAPSE_NODE` and no selection. It counts the entries of the table,
which are its rows. -/
def fetchCollapsed (v : TableVirtuals) (data : Bool) (row : ℕ) :
    Option (List (SValue × SValue) × BIndexedTableNode) :=
  fetchColumns v data row (List.range t.rows) (if data then t else t.nodeAt row)

/-- `UpdateColumnIndicesLocked`; `none` where `m_nodes` is `NULL`. -/
def updateColumnIndices (index : ℕ) (delta : ℤ) : Option (Slots (Slots Unit)) :=
  if t.nodes.table.isNone then none
  else some (t.nodes.modify fun _ datums => datums.updateDatumIndices index delta)

/-- A step of a table. -/
inductive Act where
  | rows (e : Edit)
  | columns (e : Edit)
  | fetch (v : TableVirtuals) (data : Bool) (row : ℕ)
  | node (row : ℕ)
  | drop (row : ℕ)
  | dropDatum (row column : ℕ)

/-- The steps that can be asked for. -/
def Possible : Act → Prop
  | .rows e => e.Valid t.rows
  | .columns e => e.Valid t.columns
  | .fetch _ _ row | .node row => row < t.rows
  | .drop _ | .dropDatum _ _ => True

/-- **A step**, for a number of turns of its loop: what is fetched, and the table after it. -/
def perform (turns : ℕ) : Act → Option (List (SValue × SValue) × BIndexedTableNode)
  | .rows e => do
    let nodes ← t.nodes.updateEntryIndices e.index e.delta turns
    return ([], { t with rows := t.rows + e.more - e.less, nodes := nodes.followed e })
  | .columns e => do
    let nodes ← t.updateColumnIndices e.index e.delta
    return ([], { t with
      columns := t.columns + e.more - e.less
      nodes := nodes.modify fun _ datums => datums.followed e })
  | .fetch v data row => t.fetchCollapsed v data row
  | .node row => some ([], t.nodeAt row)
  | .drop row => some ([], { t with nodes := t.nodes.drop row })
  | .dropDatum row column =>
    some ([], { t with nodes := t.nodes.modify fun key datums =>
        if key = row then datums.drop column else datums })

end BIndexedTableNode

end OpenBinder
