import OpenBinder.Parcel.CachedInput

/-!
# Variables with values

Any number of variables that hold values, and the calls that are made on them, with the values of
other variables as arguments. While an item is edited, the variable has it in place of its value,
and the tables around it, the innermost first.

Variables share tables, which makes no difference to a value but this: `ArchivedSize` caches a
size, and a table that is shared is cloned before it is changed. Both can happen to a table that
is anywhere in a value (`atPath`), so they are calls of their own.
-/

namespace OpenBinder

open Lib

namespace SValue

mutual

/-- The tables in a value. -/
def tables : SValue → List (BValueMap SValue)
  | map ⟨avail, dataSize, maps⟩ => ⟨avail, dataSize, maps⟩ :: tablesMaps maps
  | _ => []

/-- The tables in the keys and values of a table. -/
def tablesMaps : List Pair → List (BValueMap SValue)
  | [] => []
  | (key, value) :: rest => tables key ++ (tables value ++ tablesMaps rest)

end

/-- A value in which `f` is done to the key or value at a path: each pair by its index, and whether
it goes on in the key. -/
def atPath (f : SValue → SValue) : List (ℕ × Bool) → SValue → SValue
  | [], v => f v
  | (i, inKey) :: path, map m =>
    map { m with maps := m.maps.modify i fun p =>
      if inKey then (atPath f path p.1, p.2) else (p.1, atPath f path p.2) }
  | _ :: _, v => v

/-- The pairs that `ReplaceValues` leaves. -/
def withValues (newValues : List SValue) (indices : List ℕ) (maps : List Pair) : List Pair :=
  (newValues.zip indices).foldl (fun maps p => maps.modify p.2 fun q => (q.1, p.1)) maps

end SValue

open SValue

/-- The calls on a value. -/
inductive ValueCall where
  | set (value : SValue)
  | unarchive (source : SParcel)
  | construct (flags : Flags)
  | assign
  | valueFor
  | join (flags : Flags)
  | overlay (flags : Flags)
  | inherit (flags : Flags)
  | remove (flags : Flags)
  | retain (flags : Flags)
  | joinItem (flags : Flags)
  | removeItem
  | renameItem
  | replaceValues (indices : List ℕ)
  | archivedSize (path : List (ℕ × Bool))
  | clone (path : List (ℕ × Bool))

namespace ValueCall

/-- What a call makes of a value, with its arguments. -/
def apply : ValueCall → List SValue → SValue → Option SValue
  | set value, [], _ => if value.isSimple then some value else none
  | unarchive source, [], _ =>
    match SValue.unarchive source with
    | .ok (value, _, _) => some value
    | .error _ => none
  | construct flags, [key, value], _ => SValue.initAsMap flags key value
  | assign, [o], _ => some o
  | valueFor, [v, key], _ => some (v.valueFor key)
  | join flags, [o], this => SValue.join flags this o
  | overlay flags, [o], this => SValue.overlay flags this o
  | inherit flags, [o], this => SValue.inherit flags this o
  | remove flags, [o], this => SValue.correctWith .removed flags this o
  | retain flags, [o], this => SValue.correctWith .retained flags this o
  | joinItem flags, [key, value], this => SValue.joinItem this key value flags
  | removeItem, [key, value], this => (SValue.removeItem this key value).map Prod.snd
  | renameItem, [oldKey, newKey], this => (SValue.renameItem this oldKey newKey).map Prod.snd
  | replaceValues indices, newValues, this => some (SValue.replaceValues this newValues indices)
  | archivedSize path, [], this => some (this.atPath SValue.sized path)
  | clone path, [], this => some (this.atPath SValue.copy path)
  | _, _, _ => none

end ValueCall

/-- A value, or an item that is edited, and the tables around it with the places of the items. -/
structure Variable where
  current : SValue
  around : List (BValueMap SValue × ℕ)

namespace Variable

/-- A value in the tables around it. -/
def wholeOf : SValue → List (BValueMap SValue × ℕ) → SValue
  | v, [] => v
  | v, (m, i) :: around => wholeOf (map { m with maps := m.maps.modify i fun p => (p.1, v) }) around

/-- The value of the variable. -/
def whole (x : Variable) : SValue := wholeOf x.current x.around

/-- `BeginEditItem`, on the item that is edited if there is one. Without such an item it comes back
with `NULL`. -/
def beginEditItem (x : Variable) (key : SValue) : Option Variable :=
  match x.current.beginEditItem key with
  | none => some x
  | some (m, i) => (m.beginEditMapAt i).map fun cur => ⟨cur, (m, i) :: x.around⟩

/-- `EndEditItem`, after a `BeginEditItem`. -/
def endEditItem (x : Variable) : Option Variable :=
  match x.around with
  | [] => none
  | (m, i) :: around => (SValue.endEditItem m i x.current).map fun v => ⟨v, around⟩

end Variable

/-- What is done to a variable. -/
inductive VariableCall where
  | call (c : ValueCall)
  | beginEditItem
  | endEditItem

/-- A call on a variable, with the variables that are its arguments. -/
structure VariableAction where
  target : ℕ
  call : VariableCall
  arguments : List ℕ

/-- The variables. -/
abbrev Variables := ℕ → Variable

namespace Variables

/-- The variables before the first call. -/
def start : Variables := fun _ => ⟨undefined, []⟩

/-- The values of the arguments: of other variables, and none that is being edited. -/
def valuesOf (s : Variables) (target : ℕ) : List ℕ → Option (List SValue)
  | [] => some []
  | j :: rest =>
    if j = target ∨ (s j).around ≠ [] then none
    else (valuesOf s target rest).map fun values => (s j).current :: values

/-- What becomes of the target. -/
def result (x : Variable) : VariableCall → List SValue → Option Variable
  | .call c, values => (c.apply values x.current).map fun v => { x with current := v }
  | .beginEditItem, [key] => x.beginEditItem key
  | .endEditItem, [] => x.endEditItem
  | _, _ => none

/-- One call. -/
def step (s : Variables) (a : VariableAction) : Option Variables := do
  let values ← valuesOf s a.target a.arguments
  let x ← result (s a.target) a.call values
  return Function.update s a.target x

/-- **What is archived comes with its length**: where `Archive` can write a table, the length in
its header is the number of bytes that follow it. -/
def Framed (m : BValueMap SValue) : Prop :=
  ∀ flat, (map m).isErrorFree = true → ((map m).flattened flat).wireSize < 2 ^ 31 →
    (BitVec.ofNat 32 (8 + valueDataAlign (size (mapArchivedSize m)).toNat)).toNat =
      8 + (wireMaps (flattenedMaps flat m.maps)).length

/-- **No cached size in a value is stale.** -/
def Fresh (v : SValue) : Prop :=
  ∀ m ∈ v.tables, (∀ size, m.dataSize = some size → (size : ℤ) = computeArchivedSize m.maps) ∧
    Framed m

/-- The values of all variables that are not being edited are fresh. -/
def AtRest (s : Variables) : Prop := ∀ i, (s i).around = [] → Fresh (s i).current

/-- The values of all variables are fresh. -/
def Always (s : Variables) : Prop := ∀ i, Fresh (s i).whole

/-- **A call observes the cached sizes**: what is unarchived is tidy, and values are replaced in a
table without a cached size, or by such that the sum of the sizes stays what it is. -/
def Observes (s : Variables) (a : VariableAction) : Prop :=
  match a.call with
  | .call (.unarchive source) => isTidyParcel source = true
  | .call (.replaceValues indices) =>
    ∀ m newValues, (s a.target).current = map m → valuesOf s a.target a.arguments = some newValues →
      m.dataSize = none ∨
        computeArchivedSize (withValues newValues indices m.maps) = computeArchivedSize m.maps
  | _ => True

/-- **A call is not seen from around**: no table around what it changes has a cached size. -/
def Unseen (s : Variables) (a : VariableAction) : Prop :=
  match a.call with
  | .call (.archivedSize _) | .call (.clone _) | .beginEditItem => True
  | .endEditItem => ∀ f ∈ (s a.target).around.tail, f.1.dataSize = none
  | .call _ => ∀ f ∈ (s a.target).around, f.1.dataSize = none

end Variables

end OpenBinder
