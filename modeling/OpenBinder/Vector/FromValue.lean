import OpenBinder.Stream.Access
import OpenBinder.Value.Arguments
import OpenBinder.Vector.VectorLaw

/-!
# Vectors as values

* `asValue`: the value of a vector of values, a table from indices to elements.
* `setFromValue`: a vector from a value. The number of elements is guessed from the length of a
  simple value, or is the number of the items of a table.
* `Marshal`: what the element type does with a value. `values` and `fixed` are two of its kinds.
* `Safe`, `Restores`: what is promised.
-/

namespace OpenBinder

open Lib

namespace SValue

/-- A value that is constructed is undefined. -/
instance : Inhabited SValue := ⟨undefined⟩

def length : SValue → ℕ
  | small type _ => unpackTypeLength type.1
  | large _ buffer => buffer.length
  | map _ => 0

def countItems : SValue → ℕ
  | map m => m.countMaps
  | v => if v.isDefined then 1 else 0

/-- `SSimpleValue<int32_t>` of an index. -/
def index (i : ℕ) : SValue := int32 (BitVec.ofNat 32 i)

/-- `BArrayAsValue` of values, from an index on. -/
def bArrayAsValue : ℕ → List SValue → SValue → Option SValue
  | _, [], result => some result
  | i, x :: xs, result => (result.joinItem (index i) x Flags.none).bind (bArrayAsValue (i + 1) xs)

/-- `AsValue` of a vector of values. -/
def asValue (x : List SValue) : Option SValue := bArrayAsValue 0 x undefined

/-- `BArrayConstruct` of values: what they are assigned. -/
def bArrayConstruct (value : SValue) (count : ℕ) : List SValue :=
  (List.range count).map fun i => value.valueFor (index i)

end SValue

namespace SAbstractVector

variable {α : Type}

/-! ### Elements -/

/-- `BArrayConstruct` of an element type, for elements that are constructed: what they are assigned,
and whether it is `B_OK`. `again` is whether it calls `BConstruct` for them once more. -/
structure Marshal (α : Type) where
  construct : SValue → List α → List α × Bool
  again : Bool
  length_construct : ∀ value xs, (construct value xs).1.length = xs.length

/-- For `SValue`. -/
def Marshal.values : Marshal SValue where
  construct value xs := (value.bArrayConstruct xs.length, true)
  again := false
  length_construct value xs := by simp [SValue.bArrayConstruct]

def fixedArrayType : BitVec 32 := typeCode 0x617266#32

/-- A type that is flattened as its bytes. -/
structure FixedType (α : Type) where
  typeCode : BitVec 32
  size : ℕ
  ofBytes : List Byte → α

/-- `BArrayConstructHelper`: the bytes behind the header. -/
def bArrayConstructHelper (value : SValue) (count elementSize : ℕ) (typeCode : BitVec 32) :
    Option (List Byte) :=
  if unpackTypeCode value.mType ≠ fixedArrayType ∨
      value.length ≠ wrap (8 + wrap (elementSize * count)) then none
  else
    value.bytes.bind fun bytes =>
      if wordOf (bytes.take 4) ≠ typeCode ∨ (wordOf ((bytes.drop 4).take 4)).toNat ≠ elementSize then
        none
      else some (bytes.drop 8)

/-- For `B_IMPLEMENT_SIMPLE_TYPE_FLATTEN_FUNCS`. -/
def Marshal.fixed (t : FixedType α) : Marshal α where
  construct value xs :=
    match bArrayConstructHelper value xs.length t.size t.typeCode with
    | some bytes =>
      ((List.range xs.length).map fun i => t.ofBytes ((bytes.drop (i * t.size)).take t.size), true)
    | none => (xs, false)
  again := false
  length_construct value xs := by
    split <;> simp

/-! ### Vectors -/

/-- What `SetFromValue` returns: `B_OK`, `B_NO_MEMORY` or `B_BAD_DATA`. -/
inductive Status where
  | ok
  | noMemory
  | badData
deriving DecidableEq

/-- How many elements a value seems to have. -/
def countOf (v : SAbstractVector α) (value : SValue) : ℕ :=
  if value.isSimple = true then
    if 0 < value.length then wrap (value.length + 2 ^ 32 - 8) / v.elementSize else 0
  else wrap value.countItems

/-- `PerformConstruct` and `PerformSetFromValue`. -/
def constructFrom [Inhabited α] (v : SAbstractVector α) (m : Marshal α) (value : SValue)
    (count : ℕ) : Option (SAbstractVector α × Bool) :=
  (v.fill (Store.constructAll v.base 0 (List.replicate count default))).bind fun v =>
    (if m.again = true then v.fill (Store.constructAll v.base 0 (List.replicate count default))
      else some v).bind fun v =>
        (v.fill (Store.assignAll v.base 0 (m.construct value (List.replicate count default)).1)).map
          fun v => (v, (m.construct value (List.replicate count default)).2)

def setFromValue [Inhabited α] (v : SAbstractVector α) (m : Marshal α) (value : SValue)
    (env : Env) : Option (SAbstractVector α × Status) :=
  let count := v.countOf value
  v.makeEmpty.bind fun v =>
    if count = 0 then some (v, .ok)
    else
      (v.setCapacity count env).bind fun v =>
        if v.avail < count then some (v, .noMemory)
        else
          (v.constructFrom m value count).map fun r =>
            ({ r.1 with size := count }, if r.2 = true then .ok else .badData)

/-! ### What is promised -/

/-- **Safe**: the vector holds as many elements as there was room for and the value seems to have,
or none if there was not enough. -/
def Safe [Inhabited α] (v : SAbstractVector α) (m : Marshal α) (value : SValue) (env : Env) : Prop :=
  ∃ v' r l, v.setFromValue m value env = some (v', r) ∧ v'.Holds l ∧
    l.length = if r = .noMemory then 0 else v.countOf value

/-- **Restored**: a vector that is set from the value of some elements holds them. -/
def Restores (v : SAbstractVector SValue) (x : List SValue) (env : Env) : Prop :=
  ∃ value v' l, SValue.asValue x = some value ∧
    v.setFromValue .values value env = some (v', .ok) ∧ v'.Holds l ∧
    List.Forall₂ SValue.Equal l x

/-! ### What does not go wrong -/

/-- How many elements are in a block that is allocated for some. -/
def capacity (elementSize count : ℕ) : ℕ :=
  wrap ((count + 1) % 2 ^ 31 * elementSize + 7) / 8 * 8 / elementSize

/-- Whether a vector with room for a number of elements has its storage where it says. -/
def HasRoom (elementSize count : ℕ) (env : Env) : Prop :=
  count ≤ 8 / elementSize ∨ env.fresh = none ∨ 8 / elementSize < capacity elementSize count

/-- Whether no element is constructed. -/
def HasNone (elementSize count : ℕ) (env : Env) : Prop :=
  count = 0 ∨ 8 / elementSize < count ∧ (env.fresh = none ∨ capacity elementSize count < count)

end SAbstractVector

end OpenBinder
