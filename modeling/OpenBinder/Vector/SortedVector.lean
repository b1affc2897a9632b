import OpenBinder.Lib.Ranked
import OpenBinder.Lib.Word
import OpenBinder.Vector.Vector

/-!
# Sorted vectors and keyed vectors

`SAbstractSortedVector` and `SAbstractKeyedVector` with the vectors that they keep their elements
in: the keys by binary search, and the value of each in a second vector, at the same index.

* `SSortedVector.Refines`: the vector is a finite set, listed in order.
* `SKeyedVector.Refines`: the two vectors are a finite map, and every lookup finds what the map has.
* `Observes`: the calls that do not go wrong.
-/

namespace OpenBinder

open Lib
open SAbstractVector (Ptr Env Result)

/-- A comparison by `BCompare` is that of a total order. -/
structure IsOrder {K : Type} [LinearOrder K] (compare : K → K → ℤ) : Prop where
  neg : ∀ a b, compare a b < 0 ↔ a < b
  pos : ∀ a b, 0 < compare a b ↔ b < a

namespace SAbstractVector

variable {α : Type}

/-- `At`. What is not an element is `none`. -/
def itemAt (v : SAbstractVector α) (index : ℤ) : Option α :=
  if 0 ≤ index then v.mem.read v.base index.toNat else none

/-- What a pointer points to. -/
def pointee (v : SAbstractVector α) : Ptr α → Option α
  | .given x => some x
  | .own i => v.mem.read v.base i

/-- A pointer of a caller does not point to what is no element of the vector. -/
def Points (v : SAbstractVector α) : Ptr α → Prop
  | .given _ => True
  | .own i => i < v.size

instance (v : SAbstractVector α) : (p : Ptr α) → Decidable (v.Points p)
  | .given _ => .isTrue trivial
  | .own i => inferInstanceAs (Decidable (i < v.size))

/-- A block that is allocated is none that there is. -/
def Fresh (v : SAbstractVector α) (env : Env) : Prop :=
  ∀ b ∈ env.fresh, v.mem (.block b) = none

instance (v : SAbstractVector α) (env : Env) : Decidable (v.Fresh env) :=
  inferInstanceAs (Decidable (∀ b ∈ env.fresh, v.mem (.block b) = none))

/-- One more element can be added to a vector, or there is no memory for it. -/
def CanAdd (v : SAbstractVector α) (env : Env) : Prop := v.Fails 1 env ∨ v.Sized 1 3

/-- The items to be removed are counted without wrapping around, if there is one. -/
def CanRemove (v : SAbstractVector α) (index count : ℕ) : Prop :=
  0 < count → index < v.size → index + count < 2 ^ 32

end SAbstractVector

/-! ### Sorted vectors -/

namespace SSortedVector

def nameNotFound : ℤ := (BitVec.ofNat 32 0x8000052C).toInt

variable {K : Type} (compare : K → K → ℤ)

/-- The loop of `GetOrderOf`, for a number of turns. -/
def search (v : SAbstractVector K) (element : K) : ℕ → ℤ → ℤ → Option (Bool × ℕ)
  | 0, _, _ => none
  | n + 1, low, high =>
    if low ≤ high then
      let mid := (ssize (low + high)).tdiv 2
      (v.itemAt mid).bind fun item =>
        let cmp := compare element item
        if cmp < 0 then search v element n low (mid - 1)
        else if 0 < cmp then search v element n (mid + 1) high
        else some (true, mid.toNat)
    else some (false, low.toNat)

/-- `GetOrderOf`: whether the element is there, and where it is or would be. -/
def getOrderOf (v : SAbstractVector K) (element : K) : Option (Bool × ℕ) :=
  search compare v element (v.size + 1) 0 (ssize (v.size - 1))

def orderOf (v : SAbstractVector K) (element : K) : Option ℤ :=
  (getOrderOf compare v element).map fun r => if r.1 then ssize r.2 else nameNotFound

def floorOrderOf (v : SAbstractVector K) (element : K) : Option ℤ :=
  (getOrderOf compare v element).map fun r =>
    if r.1 then ssize r.2
    else if 0 < r.2 then ssize (r.2 - 1)
    else if 0 < v.size then 0 else nameNotFound

def ceilOrderOf (v : SAbstractVector K) (element : K) : Option ℤ :=
  (getOrderOf compare v element).map fun r =>
    if r.1 then ssize r.2
    else if r.2 < v.size then ssize r.2
    else if 0 < v.size then ssize (v.size - 1) else nameNotFound

/-- `AddOrdered`: what is returned, and whether an element was added. -/
def addOrdered [Inhabited K] (v : SAbstractVector K) (newElement : Ptr K) (env : Env) :
    Option (SAbstractVector K × Result × Bool) :=
  (v.pointee newElement).bind fun element =>
    (getOrderOf compare v element).bind fun r =>
      if r.1 then (v.replaceAt newElement r.2).map fun w => (w.1, .value r.2, false)
      else
        (v.addAt (some newElement) r.2 env).map fun w => (w.1, w.2, decide (w.2 ≠ .noMemory))

/-- `RemoveOrdered`: where the element was, if it was there. -/
def removeOrdered (v : SAbstractVector K) (element : Ptr K) (env : Env) :
    Option (SAbstractVector K × Option ℕ) :=
  (v.pointee element).bind fun x =>
    (getOrderOf compare v x).bind fun r =>
      if r.1 then (v.removeItemsAt r.2 1 env).map fun w => (w, some r.2) else some (v, none)

/-- A call that changes the vector. -/
inductive Action (K : Type) where
  | addItem (item : Ptr K) (env : Env)
  | removeItemFor (item : Ptr K) (env : Env)
  | removeItemsAt (index count : BitVec 32) (env : Env)

/-- A sorted vector, and the set that it is to hold. -/
structure State (K : Type) where
  vec : SAbstractVector K
  keys : Finset K
  faulted : Bool

/-- A new sorted vector. -/
def init (elementSize : ℕ) : State K := ⟨.init elementSize, ∅, false⟩

/-- The calls there can be. -/
def Allowed (s : State K) : Action K → Prop
  | .addItem item env | .removeItemFor item env => s.vec.Points item ∧ s.vec.Fresh env
  | .removeItemsAt _ _ env => s.vec.Fresh env

instance (s : State K) : (a : Action K) → Decidable (Allowed s a)
  | .addItem item env | .removeItemFor item env =>
    inferInstanceAs (Decidable (s.vec.Points item ∧ s.vec.Fresh env))
  | .removeItemsAt _ _ env => inferInstanceAs (Decidable (s.vec.Fresh env))

variable [LinearOrder K] [Inhabited K]

/-- What a call does, to the vector and to the set. An item is not added only if there is no memory
for it. -/
def perform (s : State K) : Action K → Option (State K)
  | .addItem item env =>
    (s.vec.pointee item).bind fun x =>
      (addOrdered compare s.vec item env).map fun r =>
        { s with
          vec := r.1
          keys := if r.2.1 = .noMemory ∧ env.fresh = none then s.keys else insert x s.keys }
  | .removeItemFor item env =>
    (s.vec.pointee item).bind fun x =>
      (removeOrdered compare s.vec item env).map fun r =>
        { s with vec := r.1, keys := s.keys.erase x }
  | .removeItemsAt index count env =>
    (s.vec.removeItemsAt index.toNat count.toNat env).map fun v =>
      { s with vec := v, keys := removeRange s.keys index.toNat count.toNat }

/-- One call. -/
def step (s : State K) (a : Action K) : Option (State K) :=
  if Allowed s a then some ((perform compare s a).getD { s with faulted := true }) else none

/-- **The vector is the set**: its elements are those of the set in order, and every search finds
where an item is, or the nearest one below or above it. -/
structure Refines (s : State K) : Prop where
  listed : ∃ l, SAbstractVector.Refines ⟨s.vec, l, s.faulted⟩ ∧ Listed l s.keys
  order : ∀ a, orderOf compare s.vec a =
    some (if a ∈ s.keys then (rank s.keys a : ℤ) else nameNotFound)
  floor : ∀ a, s.keys.Nonempty →
    ∃ f, IsFloor s.keys a f ∧ floorOrderOf compare s.vec a = some (rank s.keys f : ℤ)
  ceil : ∀ a, s.keys.Nonempty →
    ∃ f, IsCeil s.keys a f ∧ ceilOrderOf compare s.vec a = some (rank s.keys f : ℤ)
  none : ∀ a, s.keys = ∅ →
    floorOrderOf compare s.vec a = some nameNotFound ∧
      ceilOrderOf compare s.vec a = some nameNotFound

/-- The calls that do not go wrong. No more than 2³⁰ items are searched, and no size wraps
around. -/
def Observes (s : State K) : Action K → Prop
  | .addItem item env => ∀ x ∈ s.vec.pointee item, x ∉ s.keys →
    s.vec.Fails 1 env ∨ s.vec.size < 2 ^ 30 ∧ s.vec.Sized 1 3
  | .removeItemFor _ _ => True
  | .removeItemsAt index count _ => s.vec.CanRemove index.toNat count.toNat

end SSortedVector

/-! ### Keyed vectors -/

/-- A keyed vector: the keys, the values, and what is looked up where there is none. -/
structure SKeyedVector (K V : Type) where
  keys : SAbstractVector K
  values : SAbstractVector V
  undefined : V

namespace SKeyedVector

open SSortedVector (orderOf floorOrderOf ceilOrderOf addOrdered removeOrdered)

variable {K V : Type} (compare : K → K → ℤ)

/-- What is looked up, with whether it was found, by the order of its key. -/
def valueFor (m : SKeyedVector K V) (order : Option ℤ) : Option (V × Bool) :=
  order.bind fun pos =>
    let pos := if ssize m.values.size ≤ pos then -1 else pos
    if 0 ≤ pos then (m.values.itemAt pos).map fun v => (v, true) else some (m.undefined, false)

def keyedFor (m : SKeyedVector K V) (key : K) : Option (V × Bool) :=
  m.valueFor (orderOf compare m.keys key)

def floorKeyedFor (m : SKeyedVector K V) (key : K) : Option (V × Bool) :=
  m.valueFor (floorOrderOf compare m.keys key)

def ceilKeyedFor (m : SKeyedVector K V) (key : K) : Option (V × Bool) :=
  m.valueFor (ceilOrderOf compare m.keys key)

/-- What is answered for memory when the key, and when the value is added, and when the key is
removed again. -/
structure AddEnv where
  key : Env
  value : Env
  undo : Env

def addKeyed [Inhabited K] [Inhabited V] (m : SKeyedVector K V) (key : Ptr K) (value : Ptr V)
    (env : AddEnv) : Option (SKeyedVector K V × Result) :=
  (addOrdered compare m.keys key env.key).bind fun r =>
    match r.2 with
    | (.value pos, true) =>
      (m.values.addAt (some value) pos env.value).bind fun w =>
        match w.2 with
        | .noMemory =>
          (r.1.removeItemsAt pos 1 env.undo).map fun keys =>
            ({ m with keys := keys, values := w.1 }, .noMemory)
        | .value vpos => some ({ m with keys := r.1, values := w.1 }, .value vpos)
    | (.value pos, false) =>
      (m.values.replaceAt value pos).map fun w =>
        ({ m with keys := r.1, values := w.1 }, .value pos)
    | (.noMemory, _) => some ({ m with keys := r.1 }, .noMemory)

def removeItemsAt (m : SKeyedVector K V) (index count : ℕ) (keyEnv valueEnv : Env) :
    Option (SKeyedVector K V) :=
  (m.keys.removeItemsAt index count keyEnv).bind fun keys =>
    (m.values.removeItemsAt index count valueEnv).map fun values =>
      { m with keys := keys, values := values }

def removeKeyed (m : SKeyedVector K V) (key : Ptr K) (keyEnv valueEnv : Env) :
    Option (SKeyedVector K V) :=
  (removeOrdered compare m.keys key keyEnv).bind fun r =>
    match r.2 with
    | some pos =>
      (m.values.removeItemsAt pos 1 valueEnv).map fun values =>
        { m with keys := r.1, values := values }
    | none => some { m with keys := r.1 }

/-- A call that changes the vector. -/
inductive Action (K V : Type) where
  | addItem (key : Ptr K) (value : Ptr V) (env : AddEnv)
  | removeItemFor (key : Ptr K) (keyEnv valueEnv : Env)
  | removeItemsAt (index count : BitVec 32) (keyEnv valueEnv : Env)

/-- A keyed vector, and the map that it is to hold. -/
structure State (K V : Type) where
  vec : SKeyedVector K V
  map : FiniteMap K V
  faulted : Bool

/-- A new keyed vector. -/
def init [Inhabited V] (keySize valueSize : ℕ) (undefined : V) : State K V :=
  ⟨⟨.init keySize, .init valueSize, undefined⟩, .empty, false⟩

variable [LinearOrder K] [Inhabited K] [Inhabited V]

/-- The calls there can be. -/
def Allowed (s : State K V) : Action K V → Prop
  | .addItem key value env =>
    (s.vec.keys.Points key ∧ s.vec.values.Points value) ∧
      (s.vec.keys.Fresh env.key ∧ s.vec.values.Fresh env.value) ∧
        ∀ r ∈ addOrdered compare s.vec.keys key env.key, r.1.Fresh env.undo
  | .removeItemFor key keyEnv valueEnv =>
    s.vec.keys.Points key ∧ s.vec.keys.Fresh keyEnv ∧ s.vec.values.Fresh valueEnv
  | .removeItemsAt _ _ keyEnv valueEnv => s.vec.keys.Fresh keyEnv ∧ s.vec.values.Fresh valueEnv

instance (s : State K V) : (a : Action K V) → Decidable (Allowed compare s a)
  | .addItem key value env =>
    inferInstanceAs (Decidable ((s.vec.keys.Points key ∧ s.vec.values.Points value) ∧
      (s.vec.keys.Fresh env.key ∧ s.vec.values.Fresh env.value) ∧
        ∀ r ∈ addOrdered compare s.vec.keys key env.key, r.1.Fresh env.undo))
  | .removeItemFor key keyEnv valueEnv =>
    inferInstanceAs (Decidable
      (s.vec.keys.Points key ∧ s.vec.keys.Fresh keyEnv ∧ s.vec.values.Fresh valueEnv))
  | .removeItemsAt _ _ keyEnv valueEnv =>
    inferInstanceAs (Decidable (s.vec.keys.Fresh keyEnv ∧ s.vec.values.Fresh valueEnv))

/-- What a call does, to the vectors and to the map. An entry is not added only if there is no
memory for its key or its value. -/
def perform (s : State K V) : Action K V → Option (State K V)
  | .addItem key value env =>
    (s.vec.keys.pointee key).bind fun x =>
      (s.vec.values.pointee value).bind fun y =>
        (s.vec.addKeyed compare key value env).map fun r =>
          { s with
            vec := r.1
            map := if r.2 = .noMemory ∧ (env.key.fresh = none ∨ env.value.fresh = none) then s.map
              else s.map.insert x y }
  | .removeItemFor key keyEnv valueEnv =>
    (s.vec.keys.pointee key).bind fun x =>
      (s.vec.removeKeyed compare key keyEnv valueEnv).map fun m =>
        { s with vec := m, map := s.map.erase x }
  | .removeItemsAt index count keyEnv valueEnv =>
    (s.vec.removeItemsAt index.toNat count.toNat keyEnv valueEnv).map fun m =>
      { s with vec := m, map := s.map.removeRange index.toNat count.toNat }

/-- One call. -/
def step (s : State K V) (a : Action K V) : Option (State K V) :=
  if Allowed compare s a then some ((perform compare s a).getD { s with faulted := true }) else none

/-- **The vectors are the map**: the keys are those of the map in order, the values are theirs at
the same indices, and every lookup finds the value of the key, or that of the nearest key below or
above it. -/
structure Refines (s : State K V) : Prop where
  entries : ∃ l, SAbstractVector.Refines ⟨s.vec.keys, l, s.faulted⟩ ∧
    SAbstractVector.Refines ⟨s.vec.values, l.map s.map.value, s.faulted⟩ ∧ Listed l s.map.keys
  keyed : ∀ a, s.vec.keyedFor compare a =
    some (if a ∈ s.map.keys then (s.map.value a, true) else (s.vec.undefined, false))
  floor : ∀ a, s.map.keys.Nonempty →
    ∃ f, IsFloor s.map.keys a f ∧ s.vec.floorKeyedFor compare a = some (s.map.value f, true)
  ceil : ∀ a, s.map.keys.Nonempty →
    ∃ f, IsCeil s.map.keys a f ∧ s.vec.ceilKeyedFor compare a = some (s.map.value f, true)
  none : ∀ a, s.map.keys = ∅ → s.vec.floorKeyedFor compare a = some (s.vec.undefined, false) ∧
    s.vec.ceilKeyedFor compare a = some (s.vec.undefined, false)

/-- The calls that do not go wrong. No more than 2³⁰ keys are searched, no size wraps around, and a
value that is one of the vector itself is not moved before it is copied. -/
def Observes (s : State K V) : Action K V → Prop
  | .addItem key value env => ∀ x ∈ s.vec.keys.pointee key, x ∉ s.map.keys →
    s.vec.keys.Fails 1 env.key ∨
      (s.vec.keys.size < 2 ^ 30 ∧ s.vec.keys.Sized 1 3) ∧ s.vec.values.CanAdd env.value ∧
        s.vec.values.PtrStays 1 (rank s.map.keys x) env.value (some value)
  | .removeItemFor _ _ _ => True
  | .removeItemsAt index count _ _ => s.vec.keys.CanRemove index.toNat count.toNat

end SKeyedVector

end OpenBinder
