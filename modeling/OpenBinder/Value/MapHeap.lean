import OpenBinder.Lib.Cells
import OpenBinder.Lib.Run
import OpenBinder.Value.Edit

/-!
# The storage of pair tables

A `BValueMap` is a block of memory with a header and room for `m_avail` pairs. Its pairs are
constructed one after the other from the start of the block, and moved when one is added or removed
before them. A block for up to six pairs comes from the pool and goes back to it.

A cell holds one `SValue`, a pair two of them. The operations are on blocks and cells; what they do
to a list of pairs is in `BValueMap.addMapAt` and `BValueMap.removeMapAt`.

* Each table has one user, so that `DecUsers` deletes it.
* `malloc` finds memory for some calls and for others not (`room`), and gives a block that is not in
  use: block `n` is that of call `n`.
* Where an object that is not there would be moved, read or destroyed, there is no result.
-/

namespace OpenBinder

open Lib

/-- The header of a block of pairs. `dataSize` is the cached archived size, `none` for `B_ERROR`,
and `editIndex` the index of the pair that is edited. -/
structure MapBlock where
  block : ℕ
  dataSize : Option ℕ
  size : ℕ
  avail : ℕ
  editIndex : Option ℕ

/-- The memory and the pool of blocks, `g_valueMapPool`. -/
structure MapHeap where
  mem : Store ℕ SValue
  calls : ℕ
  room : ℕ → Bool
  pools : Fin 3 → List MapBlock

namespace MapHeap

def maxPoolSize : ℕ := 6

/-- `size_to_pool`, up to `MAX_POOL_SIZE`. -/
def sizeToPool (n : ℕ) : Fin 3 := if n ≤ 1 then 0 else if n ≤ 3 then 1 else 2

def poolToSize : Fin 3 → ℕ
  | 0 => 1
  | 1 => 3
  | 2 => maxPoolSize

def maxInPool : Fin 3 → ℕ
  | 0 => 20
  | 1 => 10
  | 2 => 5

/-- The blocks of the pool. -/
def pooled (pools : Fin 3 → List MapBlock) : List ℕ :=
  (pools 0 ++ (pools 1 ++ pools 2)).map MapBlock.block

/-- No memory is in use. -/
def init (room : ℕ → Bool) : MapHeap := ⟨fun _ => none, 0, room, fun _ => []⟩

/-- `malloc`, and then `BValueMap::Construct`. -/
def malloc (h : MapHeap) (avail : ℕ) : Option MapBlock × MapHeap :=
  if h.room h.calls then
    (some ⟨h.calls, none, 0, avail, none⟩,
      { h with mem := h.mem.put h.calls (raw (avail * 2)), calls := h.calls + 1 })
  else (none, { h with calls := h.calls + 1 })

/-- `BValueMapPool::Create`. A block from the pool keeps its `m_avail` and `m_editIndex`. -/
def create (h : MapHeap) (initSize : ℕ) : Option MapBlock × MapHeap :=
  if initSize ≤ maxPoolSize then
    match h.pools (sizeToPool initSize) with
    | map :: rest =>
      (some { map with dataSize := none, size := 0 },
        { h with pools := Function.update h.pools (sizeToPool initSize) rest })
    | [] => h.malloc (poolToSize (sizeToPool initSize))
  else h.malloc initSize

/-- `BValueMapPool::Delete`, after `BValueMap::Destroy`. -/
def delete (h : MapHeap) (map : MapBlock) : Option MapHeap := do
  let mem ← h.mem.destroyAll map.block 0 (map.size * 2)
  let pool := h.pools (sizeToPool map.avail)
  if map.avail ≤ maxPoolSize ∧ pool.length ≤ maxInPool (sizeToPool map.avail) then
    some { h with
      mem := mem
      pools := Function.update h.pools (sizeToPool map.avail) (map :: pool) }
  else
    let mem ← mem.free map.block
    some { h with mem := mem }

def mapAt (h : MapHeap) (map : MapBlock) (index : ℕ) : Option SValue.Pair := do
  let key ← h.mem.read map.block (index * 2)
  let value ← h.mem.read map.block (index * 2 + 1)
  some (key, value)

def getIndexOf (h : MapHeap) (map : MapBlock) (k v : SValue) : Bool × ℕ :=
  bisect (fun i => match h.mapAt map i with
    | some p => SValue.compareMap p (k, v)
    | none => .gt) map.size 0 map.size

/-- What a call returns: an index, or a status. -/
inductive Result
  | index (i : ℕ)
  | ok
  | badValue
  | nameInUse
  | nameNotFound
  | noMemory
deriving DecidableEq

/-- The end of `AddMapAt`: a pair is constructed where the cells are raw. -/
def constructPair (h : MapHeap) (map : MapBlock) (index : ℕ) (key value : SValue) (size : ℕ) :
    Option (MapHeap × MapBlock × Result) := do
  let mem ← h.mem.construct map.block (index * 2) key
  let mem ← mem.construct map.block (index * 2 + 1) value
  some ({ h with mem := mem }, { map with size := size + 1 }, .index index)

/-- `BValueMap::AddMapAt`: in a block that is full the pairs move into the new digs. -/
def addMapAt (h : MapHeap) (map : MapBlock) (index : ℕ) (key value : SValue) :
    Option (MapHeap × MapBlock × Result) :=
  let size := map.size
  if size ≥ map.avail then
    match h.create ((size + 1) * 3 / 2) with
    | (none, h) => some (h, map, .noMemory)
    | (some more, h) => do
      let mem ←
        (if index ≥ size then h.mem.moveBefore more.block map.block 0 0 (size * 2)
        else
          (if 0 < index then h.mem.moveBefore more.block map.block 0 0 (index * 2)
            else some h.mem).bind fun mem =>
          mem.moveBefore more.block map.block ((index + 1) * 2) (index * 2) ((size - index) * 2))
      let h ← { h with mem := mem }.delete { map with size := 0 }
      h.constructPair more index key value size
  else do
    let mem ←
      (if index < size then
        h.mem.moveAfter map.block ((index + 1) * 2) map.block (index * 2) ((size - index) * 2)
      else some h.mem)
    { h with mem := mem }.constructPair map index key value size

/-- The end of `RemoveMapAt`: the pairs after the index move down. -/
def closeGap (h : MapHeap) (map : MapBlock) (index size : ℕ) : Option (MapHeap × MapBlock) := do
  let mem ←
    (if index < size then
      h.mem.moveBefore map.block map.block (index * 2) ((index + 1) * 2) ((size - index) * 2)
    else some h.mem)
  some ({ h with mem := mem }, { map with size := size, dataSize := none })

/-- `BValueMap::RemoveMapAt`. The pair is destroyed first. What moves to a smaller block from the
pairs before the index starts at the index. -/
def removeMapAt (h : MapHeap) (map : MapBlock) (index : ℕ) : Option (MapHeap × MapBlock) := do
  let mem ← h.mem.destroyAll map.block (index * 2) 2
  let h := { h with mem := mem }
  let size := map.size - 1
  if size * 4 < map.avail ∧ 0 < size then
    match h.create (size * 2) with
    | (some more, h) =>
      let mem ←
        (if index ≥ size then h.mem.moveBefore more.block map.block 0 (index * 2) (size * 2)
        else
          (if 0 < index then h.mem.moveBefore more.block map.block 0 (index * 2) (index * 2)
            else some h.mem).bind fun mem =>
          mem.moveBefore more.block map.block (index * 2) ((index + 1) * 2) ((size - index) * 2))
      let h ← { h with mem := mem }.delete { map with size := 0 }
      some (h, { more with size := size, dataSize := none })
    | (none, h) => h.closeGap map index size
  else h.closeGap map index size

def addNewMap (h : MapHeap) (map : MapBlock) (key value : SValue) :
    Option (MapHeap × MapBlock × Result) :=
  if value.isDefined && key.isDefined && (!value.isWild || !key.isWild) then
    match h.getIndexOf map key value with
    | (false, index) => h.addMapAt { map with dataSize := none } index key value
    | (true, _) => some (h, map, .nameInUse)
  else some (h, map, .badValue)

/-- `BValueMap::RemoveMap`, which removes all pairs for `(WILD, WILD)`. -/
def removeMap (h : MapHeap) (map : MapBlock) (key value : SValue) :
    Option (MapHeap × MapBlock × Result) :=
  if !key.isWild || !value.isWild then
    match h.getIndexOf map key value with
    | (true, index) => (h.removeMapAt map index).map fun (h, map) => (h, map, .ok)
    | (false, _) => some (h, map, .nameNotFound)
  else
    (h.mem.destroyAll map.block 0 (map.size * 2)).map fun mem =>
      ({ h with mem := mem }, { map with size := 0, dataSize := none }, .nameNotFound)

def renameMap (h : MapHeap) (map : MapBlock) (oldKey newKey : SValue) :
    Option (MapHeap × MapBlock × Result) :=
  if !oldKey.isWild && oldKey.isDefined && newKey.isSpecified then
    match h.getIndexOf map oldKey SValue.wild with
    | (true, oldIndex) => do
      let value ← h.mem.read map.block (oldIndex * 2 + 1)
      match h.getIndexOf map newKey value with
      | (false, newIndex) => do
        let (h, map) ← h.removeMapAt map oldIndex
        let (h, map, result) ←
          h.addMapAt map (if newIndex > oldIndex then newIndex - 1 else newIndex) newKey value
        some (h, { map with dataSize := none }, if result = .noMemory then .noMemory else .ok)
      | (true, _) => some (h, map, .nameInUse)
    | (false, _) => some (h, map, .nameNotFound)
  else some (h, map, .badValue)

/-- What the user of `BeginEditMapAt` makes of the value. -/
def assign (h : MapHeap) (map : MapBlock) (index : ℕ) (value : SValue) :
    Option (MapHeap × MapBlock × Result) :=
  (h.mem.assign map.block (index * 2 + 1) value).map fun mem => ({ h with mem := mem }, map, .ok)

/-- `BValueMap::EndEditMapAt`, for the pair at the index that was edited. -/
def endEditMapAt (h : MapHeap) (map : MapBlock) (index : ℕ) :
    Option (MapHeap × MapBlock × Result) := do
  let value ← h.mem.read map.block (index * 2 + 1)
  let map := { map with editIndex := none, dataSize := none }
  if value.isDefined then some (h, map, .ok)
  else (h.removeMapAt map index).map fun (h, map) => (h, map, .ok)

/-! ### Calls -/

/-- The calls on a table, and the assignment to the value that is edited. -/
inductive Call
  | addNewMap (key value : SValue)
  | removeMapAt (index : ℕ)
  | removeMap (key value : SValue)
  | renameMap (oldKey newKey : SValue)
  | beginEditMapAt (index : ℕ)
  | assign (value : SValue)
  | endEditMapAt

/-- The assertions: an index is that of a pair, and nothing else is done while a pair is edited. -/
def Call.Allowed (size : ℕ) (editIndex : Option ℕ) : Call → Prop
  | .removeMapAt index => editIndex = none ∧ index < size
  | .beginEditMapAt index => editIndex = none ∧ index < size
  | .assign _ => editIndex ≠ none
  | .endEditMapAt => editIndex ≠ none
  | _ => editIndex = none

instance (size : ℕ) (editIndex : Option ℕ) (call : Call) :
    Decidable (call.Allowed size editIndex) := by
  cases call <;> unfold Call.Allowed <;> infer_instance

/-- A call on a table. -/
def perform (h : MapHeap) (map : MapBlock) : Call → Option (MapHeap × MapBlock × Result)
  | .addNewMap key value => h.addNewMap map key value
  | .removeMapAt index => (h.removeMapAt map index).map fun (h, map) => (h, map, .ok)
  | .removeMap key value => h.removeMap map key value
  | .renameMap oldKey newKey => h.renameMap map oldKey newKey
  | .beginEditMapAt index => some (h, { map with editIndex := some index }, .ok)
  | .assign value => map.editIndex.bind fun index => h.assign map index value
  | .endEditMapAt => map.editIndex.bind fun index => h.endEditMapAt map index

/-- The index of the pair that a call on a list of pairs removes. -/
def Call.removed (l : List SValue.Pair) (editIndex : Option ℕ) : Call → Option ℕ
  | .removeMapAt index => some index
  | .removeMap key value =>
    if !key.isWild || !value.isWild then BValueMap.indexFor ⟨0, none, l⟩ key value else none
  | .renameMap oldKey newKey =>
    if !oldKey.isWild && oldKey.isDefined && newKey.isSpecified then do
      let index ← BValueMap.indexFor ⟨0, none, l⟩ oldKey SValue.wild
      let (_, value) ← l[index]?
      if (BValueMap.getIndexOf ⟨0, none, l⟩ newKey value).1 then none else some index
    else none
  | .endEditMapAt => do
    let index ← editIndex
    let (_, value) ← l[index]?
    if value.isDefined then none else some index
  | _ => none

/-- **A call on a list of pairs.** -/
def Call.apply (l : List SValue.Pair) (editIndex : Option ℕ) (call : Call) : List SValue.Pair :=
  match call with
  | .addNewMap key value => (BValueMap.addNewMap ⟨0, none, l⟩ key value).maps
  | .removeMap key value =>
    if !key.isWild || !value.isWild then
      ((Call.removeMap key value).removed l editIndex).elim l l.eraseIdx
    else []
  | .renameMap oldKey newKey =>
    ((Call.renameMap oldKey newKey).removed l editIndex).elim l fun index =>
      l[index]?.elim l fun (_, value) =>
        let newIndex := (BValueMap.getIndexOf ⟨0, none, l⟩ newKey value).2
        (l.eraseIdx index).insertIdx (if newIndex > index then newIndex - 1 else newIndex)
          (newKey, value)
  | .assign value => editIndex.elim l fun index => l.modify index fun p => (p.1, value)
  | call => (call.removed l editIndex).elim l l.eraseIdx

/-! ### Runs -/

/-- The heap, and the tables that are in use with the lists they are to hold. -/
structure State where
  heap : MapHeap
  maps : List (MapBlock × List SValue.Pair)
  faulted : Bool

/-- What the users of tables do. -/
inductive Action
  | create (initSize : ℕ)
  | delete (i : ℕ)
  | call (i : ℕ) (call : Call)

/-- A step. -/
def step (s : State) : Action → Option State
  | .create initSize =>
    match s.heap.create initSize with
    | (none, h) => some { s with heap := h }
    | (some map, h) => some { s with heap := h, maps := s.maps ++ [(map, [])] }
  | .delete i => do
    let (map, _) ← s.maps[i]?
    if map.editIndex = none then
      match s.heap.delete map with
      | none => some { s with faulted := true }
      | some h => some { s with heap := h, maps := s.maps.eraseIdx i }
    else none
  | .call i call => do
    let (map, l) ← s.maps[i]?
    if call.Allowed map.size map.editIndex then
      match s.heap.perform map call with
      | none => some { s with faulted := true }
      | some (h, map', result) =>
        let l' := if result = .noMemory then l else call.apply l map.editIndex
        some { s with heap := h, maps := s.maps.set i (map', l') }
    else none

/-- The cells of a list of pairs. -/
def pairCells (l : List SValue.Pair) : List SValue := l.flatMap fun p => [p.1, p.2]

/-- **Each table holds its list**, one pair after the other, and nothing else. -/
structure Refines (s : State) : Prop where
  defined : s.faulted = false
  holds : ∀ map l, (map, l) ∈ s.maps → map.size = l.length ∧ map.size ≤ map.avail ∧
    s.heap.mem map.block = some (filled (pairCells l) ++ raw ((map.avail - map.size) * 2))

/-- Whether the table moves to a smaller block around a pair that is not the first. -/
def Compacts (h : MapHeap) (map : MapBlock) (index : ℕ) : Prop :=
  0 < index ∧ 1 < map.size ∧ (map.size - 1) * 4 < map.avail ∧
    (h.create ((map.size - 1) * 2)).1.isSome = true

/-- **No call compacts a table** around a pair that is not the first. -/
def Observes (s : State) : Action → Prop
  | .call i call => ∀ map l index, s.maps[i]? = some (map, l) →
    call.removed l map.editIndex = some index → ¬ Compacts s.heap map index
  | _ => True

end MapHeap

end OpenBinder
