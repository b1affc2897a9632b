import OpenBinder.Lib.Cells
import OpenBinder.Lib.Run
import Mathlib.Algebra.Ring.Nat

/-!
# Vectors

`SAbstractVector` with the storage of its elements: an 8-byte union of a few elements and the
pointer to a block on the heap. What loses an element, destroys one twice or goes outside of the
storage is `none`.

* `grow`, `shrink`: the storage with a gap opened or closed at a position.
* `Ptr`, `Items`: what the pointers that a caller passes point to, which can be elements of the
  vector itself.
* `Env`: what `inplace_realloc` and `malloc` answer. At most one block is allocated in a call.
* `Refines`: the vector holds a list of elements and nothing else.
-/

namespace OpenBinder

open Lib

namespace SAbstractVector

/-- Where elements can be: in `m_data.local`, in the temporary buffer of `MoveItems`, and in a
block on the heap. -/
inductive Place where
  | localSpace
  | buffer
  | block (b : ℕ)
deriving DecidableEq

end SAbstractVector

/-- A vector. `heap` is `m_data.heap` as long as no elements are written over it, and `mem` all
storage there is. -/
structure SAbstractVector (α : Type) where
  elementSize : ℕ
  size : ℕ
  avail : ℕ
  base : SAbstractVector.Place
  heap : Option ℕ
  mem : Store SAbstractVector.Place α

namespace SAbstractVector

variable {α : Type}

/-- A number of 32 bits. -/
def wrap (n : ℕ) : ℕ := n % 2 ^ 32

/-- `m_localSpace`. -/
def localSpace (v : SAbstractVector α) : ℕ := 8 / v.elementSize

/-- A new vector. -/
def init (elementSize : ℕ) : SAbstractVector α where
  elementSize := elementSize
  size := 0
  avail := 8 / elementSize
  base := .localSpace
  heap := none
  mem := fun p => if p = .localSpace then some (raw (8 / elementSize)) else none

/-- What `inplace_realloc` answers, and where `malloc` puts a block, if it does. -/
structure Env where
  inplace : Bool
  fresh : Option ℕ

/-- How many elements are in the bytes of some elements, rounded up to eight. -/
def roundUp (v : SAbstractVector α) (n : ℕ) : ℕ :=
  wrap (n * v.elementSize + 7) / 8 * 8 / v.elementSize

/-- How many elements are in a block that is allocated for some. -/
def blockSize (v : SAbstractVector α) (n : ℕ) : ℕ := wrap (n * v.elementSize) / v.elementSize

/-- Elements are constructed in the storage of a vector, if need be over `m_data.heap`. -/
def fill (v : SAbstractVector α) (f : Store Place α → Option (Store Place α)) :
    Option (SAbstractVector α) :=
  (f v.mem).map fun mem =>
    { v with mem := mem, heap := if v.base = .localSpace then none else v.heap }

/-- `free(m_data.heap)`. -/
def freeHeap (v : SAbstractVector α) (mem : Store Place α) : Option (Store Place α) :=
  match v.heap with
  | some b => mem.free (.block b)
  | none => none

/-- `m_data.heap` is assigned to, if no element is there. -/
def setHeap (v : SAbstractVector α) (b avail : ℕ) (mem : Store Place α) :
    Option (SAbstractVector α) :=
  match mem .localSpace with
  | some cells =>
    if cells.all Option.isNone then
      some { v with heap := some b, avail := avail, base := .block b, mem := mem }
    else none
  | none => none

/-! ### Growing -/

/-- What `grow` does where the storage stays. -/
def growGap (v : SAbstractVector α) (amount pos : ℕ) : Option (SAbstractVector α × Bool) :=
  if pos < v.size then
    (Store.moveAfter v.base (wrap (pos + amount)) v.base pos (v.size - pos) v.mem).map fun mem =>
      ({ v with mem := mem }, true)
  else some (v, true)

/-- The elements go to a new block, with a gap. -/
def moveOut (v : SAbstractVector α) (b amount pos : ℕ) (mem : Store Place α) :
    Option (Store Place α) :=
  if v.size = 0 then some mem
  else if v.size ≤ pos then Store.moveBefore (.block b) v.base 0 0 v.size mem
  else
    (Store.moveBefore (.block b) v.base 0 0 pos mem).bind
      (Store.moveBefore (.block b) v.base (wrap (pos + amount)) pos (v.size - pos))

/-- `grow`: whether the pointer that it returns is not `NULL`. -/
def grow (v : SAbstractVector α) (amount factor pos : ℕ) (env : Env) :
    Option (SAbstractVector α × Bool) :=
  let totalNeeded := wrap (v.size + amount)
  if v.avail < totalNeeded then
    if v.localSpace < totalNeeded then
      let canUse := v.roundUp (wrap (wrap (totalNeeded + 1) * factor) / 2)
      if v.localSpace < v.avail ∧ env.inplace = true then
        (v.mem.resize v.base (v.blockSize canUse)).bind fun mem =>
          growGap { v with mem := mem, avail := canUse } amount pos
      else
        match env.fresh with
        | none => some (v, false)
        | some b =>
          (v.moveOut b amount pos (v.mem.put (.block b) (raw (v.blockSize canUse)))).bind fun mem =>
            (if v.localSpace < v.avail then v.freeHeap mem else some mem).bind fun mem =>
              (v.setHeap b canUse mem).map fun v' => (v', true)
    else none
  else v.growGap amount pos

/-! ### Shrinking -/

/-- What `shrink` does first where the storage stays. -/
def shrinkGap (v : SAbstractVector α) (amount pos needed : ℕ) : Option (SAbstractVector α) :=
  if pos < needed then
    (Store.moveBefore v.base v.base pos (wrap (pos + amount)) (needed - pos) v.mem).map fun mem =>
      { v with mem := mem }
  else some v

/-- The elements go to the local storage, without a gap. -/
def moveIn (v : SAbstractVector α) (amount pos needed : ℕ) : Option (Store Place α) :=
  if needed = 0 then some v.mem
  else if needed ≤ pos then Store.moveBefore .localSpace v.base 0 0 needed v.mem
  else
    (Store.moveBefore .localSpace v.base 0 0 pos v.mem).bind
      (Store.moveBefore .localSpace v.base pos (wrap (pos + amount)) (needed - pos))

def shrink (v : SAbstractVector α) (amount factor pos : ℕ) (env : Env) :
    Option (SAbstractVector α) :=
  let amount := min amount v.size
  let totalNeeded := v.size - amount
  if totalNeeded ≤ v.localSpace then
    if v.localSpace < v.avail then
      (v.moveIn amount pos totalNeeded).bind fun mem =>
        (mem.free v.base).map fun mem =>
          { v with
            mem := mem
            avail := v.localSpace
            base := .localSpace
            heap := if totalNeeded = 0 then v.heap else none }
    else v.shrinkGap amount pos totalNeeded
  else
    (v.shrinkGap amount pos totalNeeded).bind fun v =>
      if wrap (totalNeeded * factor) < v.avail then
        let willUse := v.roundUp (wrap (totalNeeded * max (factor / 2) 1))
        if env.inplace = true then
          (v.mem.resize v.base (v.blockSize willUse)).map fun mem =>
            { v with mem := mem, avail := willUse }
        else
          match env.fresh with
          | none => some v
          | some b =>
            (Store.moveBefore (.block b) v.base 0 0 totalNeeded
              (v.mem.put (.block b) (raw (v.blockSize willUse)))).bind fun mem =>
                (v.freeHeap mem).bind (v.setHeap b willUse)
      else some v

/-! ### Elements -/

/-- What a pointer to an element points to: one of somebody else, or one of the vector. -/
inductive Ptr (α : Type) where
  | given (x : α)
  | own (i : ℕ)

/-- What a pointer to an array points to. -/
inductive Items (α : Type) where
  | given (xs : List α)
  | own (i n : ℕ)

/-- How many elements an array has. -/
def Items.count : Items α → ℕ
  | .given xs => xs.length
  | .own _ n => n

/-- `PerformCopy` from an array, which is at `old` if it is one of the vector. -/
def copyItems (v : SAbstractVector α) (old : Place) (items : Items α) (index : ℕ) :
    Option (SAbstractVector α) :=
  match items with
  | .given xs => v.fill (Store.constructAll v.base index xs)
  | .own i n => v.fill (Store.copy v.base old index i n)

/-- `PerformReplicate`, `PerformCopy` of one element, and `PerformConstruct` if there is none to
copy. -/
def copyPtr [Inhabited α] (v : SAbstractVector α) (old : Place) (item : Option (Ptr α))
    (index n : ℕ) : Option (SAbstractVector α) :=
  match item with
  | none => v.fill (Store.constructAll v.base index (List.replicate n default))
  | some (.given x) => v.fill (Store.constructAll v.base index (List.replicate n x))
  | some (.own i) => v.fill (Store.replicate v.base old i index n)

/-- What is returned: a size, an index or `B_OK`, or `B_NO_MEMORY`. -/
inductive Result where
  | value (n : ℕ)
  | noMemory
deriving DecidableEq

/-- A call that has grown, or fails. -/
def grown (r : SAbstractVector α × Bool)
    (f : SAbstractVector α → Option (SAbstractVector α × Result)) :
    Option (SAbstractVector α × Result) :=
  match r with
  | (v, true) => f v
  | (v, false) => some (v, .noMemory)

/-- The default of `pos`. -/
def atEnd : ℕ := 0xFFFFFFFF

def add [Inhabited α] (v : SAbstractVector α) (item : Option (Ptr α)) (env : Env) :
    Option (SAbstractVector α × Result) :=
  (v.grow 1 3 atEnd env).bind fun r => grown r fun v' =>
    (v'.copyPtr v.base item v'.size 1).map fun v' =>
      ({ v' with size := wrap (v'.size + 1) }, .value v'.size)

def addAt [Inhabited α] (v : SAbstractVector α) (item : Option (Ptr α)) (index : ℕ) (env : Env) :
    Option (SAbstractVector α × Result) :=
  let index := min index v.size
  (v.grow 1 3 index env).bind fun r => grown r fun v' =>
    ({ v' with size := wrap (v'.size + 1) }.copyPtr v.base item index 1).map fun v' =>
      (v', .value index)

def addArrayAt (v : SAbstractVector α) (array : Items α) (index : ℕ) (env : Env) :
    Option (SAbstractVector α × Result) :=
  if 0 < array.count then
    let index := min index v.size
    (v.grow array.count 3 index env).bind fun r => grown r fun v' =>
      (v'.copyItems v.base array index).map fun v' =>
        ({ v' with size := wrap (v'.size + array.count) }, .value (wrap (v'.size + array.count)))
  else some (v, .value v.size)

/-- `AddVectorAt` of a vector of the same element size, which is `none` for the vector itself. -/
def addVectorAt (v : SAbstractVector α) (o : Option (List α)) (index : ℕ) (env : Env) :
    Option (SAbstractVector α × Result) :=
  match o with
  | some xs => v.addArrayAt (.given xs) index env
  | none => v.addArrayAt (.own 0 v.size) index env

def makeEmpty (v : SAbstractVector α) : Option (SAbstractVector α) :=
  (Store.destroyAll v.base 0 v.size v.mem).bind fun mem =>
    (if v.base ≠ .localSpace then mem.free v.base else some mem).map fun mem =>
      { v with mem := mem, avail := v.localSpace, size := 0, base := .localSpace }

/-- `operator=` from a vector of the same element size, which is `none` for the vector itself. A
size of the vector itself is zero when its elements are destroyed. -/
def assign (v : SAbstractVector α) (o : Option (List α)) (env : Env) :
    Option (SAbstractVector α) :=
  if 0 < (match o with | some xs => xs.length | none => v.size) then
    (Store.destroyAll v.base 0 v.size v.mem).bind fun mem =>
      let v := { v with mem := mem, size := 0 }
      let items := match o with | some xs => .given xs | none => .own 0 v.size
      (v.grow items.count 3 atEnd env).bind fun r =>
        match r with
        | (v', true) => (v'.copyItems v'.base items 0).map fun v' => { v' with size := items.count }
        | (v', false) => some v'
  else v.makeEmpty

def removeItemsAt (v : SAbstractVector α) (index count : ℕ) (env : Env) :
    Option (SAbstractVector α) :=
  if 0 < count ∧ index < v.size then
    let count := if v.size < wrap (index + count) then v.size - index else count
    (Store.destroyAll v.base index count v.mem).bind fun mem =>
      (shrink { v with mem := mem } count 4 index env).map fun v' =>
        { v' with size := wrap (v'.size + 2 ^ 32 - count) }
  else some v

def setSize [Inhabited α] (v : SAbstractVector α) (totalCount : ℕ) (item : Option (Ptr α))
    (env : Env) : Option (SAbstractVector α × Result) :=
  if v.size < totalCount then
    (v.grow (totalCount - v.size) 3 atEnd env).bind fun r => grown r fun v' =>
      (v'.copyPtr v.base item v'.size (totalCount - v'.size)).map fun v' =>
        ({ v' with size := totalCount }, .value 0)
  else (v.removeItemsAt totalCount (v.size - totalCount) env).map fun v => (v, .value 0)

def setCapacity (v : SAbstractVector α) (totalSpace : ℕ) (env : Env) :
    Option (SAbstractVector α) :=
  let totalSpace := max totalSpace v.size
  (v.grow (totalSpace - v.size) 2 atEnd env).map fun r => r.1

def replaceAt (v : SAbstractVector α) (item : Ptr α) (index : ℕ) :
    Option (SAbstractVector α × Result) :=
  match item with
  | .given x => (v.mem.assign v.base index x).map fun mem => ({ v with mem := mem }, .value index)
  | .own i =>
    (v.mem.read v.base i).bind fun x =>
      (v.mem.assign v.base index x).map fun mem => ({ v with mem := mem }, .value index)

/-- The size of the local buffer of `MoveItems`, or of the one that it allocates. -/
def bufferSize (v : SAbstractVector α) (count : ℕ) : ℕ :=
  if 32 < wrap (v.elementSize * count) then wrap (v.elementSize * count) / v.elementSize
  else 32 / v.elementSize

def moveItems (v : SAbstractVector α) (newIndex oldIndex count : ℕ) (env : Env) :
    Option (SAbstractVector α × Result) :=
  if 0 < count ∧ oldIndex < v.size then
    let count := if v.size < wrap (oldIndex + count) then v.size - oldIndex else count
    let newIndex := if v.size < wrap (newIndex + count) then v.size - count else newIndex
    if oldIndex ≠ newIndex then
      if 32 < wrap (v.elementSize * count) ∧ env.fresh = none then some (v, .noMemory)
      else
        (Store.moveBefore .buffer v.base 0 oldIndex count
          (v.mem.put .buffer (raw (v.bufferSize count)))).bind fun mem =>
        (if newIndex < oldIndex then
          Store.moveAfter v.base (wrap (newIndex + count)) v.base newIndex (oldIndex - newIndex) mem
        else
          Store.moveBefore v.base v.base oldIndex (wrap (oldIndex + count)) (newIndex - oldIndex)
            mem).bind fun mem =>
        (Store.moveBefore v.base .buffer newIndex 0 count mem).bind fun mem =>
        (mem.free .buffer).map fun mem => ({ v with mem := mem }, .value 0)
    else some (v, .value 0)
  else some (v, .value 0)

/-! ### Steps -/

/-- A call, with what it returns where it returns something. -/
inductive Action (α : Type) where
  | add (item : Option (Ptr α))
  | addAt (item : Option (Ptr α)) (index : BitVec 32)
  | addArrayAt (array : Items α) (index : BitVec 32)
  | addVectorAt (o : Option (List α)) (index : BitVec 32)
  | assign (o : Option (List α))
  | setSize (totalCount : BitVec 32) (item : Option (Ptr α))
  | setCapacity (totalSpace : BitVec 32)
  | replaceAt (item : Ptr α) (index : BitVec 32)
  | removeItemsAt (index count : BitVec 32)
  | moveItems (newIndex oldIndex count : BitVec 32)
  | makeEmpty

/-- What a call does to a vector. -/
def perform [Inhabited α] (v : SAbstractVector α) (env : Env) :
    Action α → Option (SAbstractVector α × Result)
  | .add item => v.add item env
  | .addAt item index => v.addAt item index.toNat env
  | .addArrayAt array index => v.addArrayAt array index.toNat env
  | .addVectorAt o index => v.addVectorAt o index.toNat env
  | .assign o => (v.assign o env).map fun v => (v, .value 0)
  | .setSize totalCount item => v.setSize totalCount.toNat item env
  | .setCapacity totalSpace => (v.setCapacity totalSpace.toNat env).map fun v => (v, .value 0)
  | .replaceAt item index => v.replaceAt item index.toNat
  | .removeItemsAt index count =>
    (v.removeItemsAt index.toNat count.toNat env).map fun v => (v, .value 0)
  | .moveItems newIndex oldIndex count =>
    v.moveItems newIndex.toNat oldIndex.toNat count.toNat env
  | .makeEmpty => v.makeEmpty.map fun v => (v, .value 0)

/-- A pointer of a caller points to an element, or is `NULL`. -/
def Ptr.Valid (l : List α) : Ptr α → Prop
  | .given _ => True
  | .own i => i < l.length

/-- An array of a caller is one, and its size is a number of 32 bits. -/
def Items.Valid (l : List α) : Items α → Prop
  | .given xs => xs.length < 2 ^ 32
  | .own i n => i + n ≤ l.length

/-- What a caller may pass. -/
def Action.Valid (l : List α) : Action α → Prop
  | .add item | .addAt item _ | .setSize _ item => ∀ p ∈ item, p.Valid l
  | .addArrayAt array _ => array.Valid l
  | .addVectorAt o _ | .assign o => ∀ xs ∈ o, xs.length < 2 ^ 32
  | .replaceAt item _ => item.Valid l
  | _ => True

instance (l : List α) : (p : Ptr α) → Decidable (p.Valid l)
  | .given _ => .isTrue trivial
  | .own i => inferInstanceAs (Decidable (i < l.length))

instance (l : List α) : (items : Items α) → Decidable (items.Valid l)
  | .given xs => inferInstanceAs (Decidable (xs.length < 2 ^ 32))
  | .own i n => inferInstanceAs (Decidable (i + n ≤ l.length))

instance (l : List α) : (a : Action α) → Decidable (a.Valid l)
  | .add item | .addAt item _ | .setSize _ item =>
    inferInstanceAs (Decidable (∀ p ∈ item, p.Valid l))
  | .addArrayAt array _ => inferInstanceAs (Decidable (array.Valid l))
  | .addVectorAt o _ | .assign o => inferInstanceAs (Decidable (∀ xs ∈ o, xs.length < 2 ^ 32))
  | .replaceAt item _ => inferInstanceAs (Decidable (item.Valid l))
  | .setCapacity _ | .removeItemsAt _ _ | .moveItems _ _ _ | .makeEmpty => .isTrue trivial

/-- A vector, and the list of elements that it is to hold. -/
structure State (α : Type) where
  vec : SAbstractVector α
  items : List α
  faulted : Bool

section Inhabited

variable [Inhabited α]

/-- The element that a pointer points to. -/
def ptrValue (l : List α) : Option (Ptr α) → α
  | none => default
  | some (.given x) => x
  | some (.own i) => l.getD i default

/-- The elements of an array. -/
def Items.values (l : List α) : Items α → List α
  | .given xs => xs
  | .own i n => (l.drop i).take n

/-- A list with others in it. -/
def insertAt (l : List α) (i : ℕ) (xs : List α) : List α := l.take i ++ xs ++ l.drop i

/-- **The operation on lists** that a call stands for. -/
def Action.apply (l : List α) : Action α → List α
  | .add item => l ++ [ptrValue l item]
  | .addAt item index => insertAt l index.toNat [ptrValue l item]
  | .addArrayAt array index => insertAt l index.toNat (array.values l)
  | .addVectorAt o index => insertAt l index.toNat (o.getD l)
  | .assign o => o.getD l
  | .setSize totalCount item =>
    l.take totalCount.toNat ++ List.replicate (totalCount.toNat - l.length) (ptrValue l item)
  | .setCapacity _ => l
  | .replaceAt item index => l.set index.toNat (ptrValue l (some item))
  | .removeItemsAt index count => l.take index.toNat ++ l.drop (index.toNat + count.toNat)
  | .moveItems newIndex oldIndex count =>
    insertAt (l.take oldIndex.toNat ++ l.drop (oldIndex.toNat + count.toNat)) newIndex.toNat
      ((l.drop oldIndex.toNat).take count.toNat)
  | .makeEmpty => []

/-- One call. -/
def step (s : State α) (a : Action α × Env) : Option (State α) :=
  if a.1.Valid s.items ∧ ∀ b ∈ a.2.fresh, s.vec.mem (.block b) = none then
    match s.vec.perform a.2 a.1 with
    | none => some { s with faulted := true }
    | some (v, r) =>
      some { s with vec := v, items := if r = .noMemory then s.items else a.1.apply s.items }
  else none

end Inhabited

/-- Storage with cells at one place, raw cells in the local space if that is another one, and
nothing else. -/
def layout (localSpace : ℕ) (base : Place) (cells : Cells α) : Store Place α :=
  fun p => if p = base then some cells else if p = .localSpace then some (raw localSpace) else none

/-- **The vector is the list**: nothing was lost, its elements are those of the list, one after the
other and nowhere else, and `m_base` is its own local storage or its block on the heap, of capacity
`m_avail`. -/
structure Refines (s : State α) : Prop where
  defined : s.faulted = false
  size : s.vec.size = s.items.length
  le_avail : s.vec.size ≤ s.vec.avail
  stored : s.vec.mem = layout s.vec.localSpace s.vec.base
    (filled s.items ++ raw (s.vec.avail - s.vec.size))
  base : (s.vec.base = .localSpace ∧ s.vec.avail = s.vec.localSpace) ∨
    ∃ b, s.vec.base = .block b ∧ s.vec.heap = some b ∧ s.vec.localSpace < s.vec.avail

/-! ### What does not go wrong -/

/-- Whether `grow` needs a block. -/
def NeedsBlock (v : SAbstractVector α) (amount : ℕ) (env : Env) : Prop :=
  v.avail < v.size + amount ∧ ¬ (v.localSpace < v.avail ∧ env.inplace = true)

/-- Whether `grow` fails. -/
def Fails (v : SAbstractVector α) (amount : ℕ) (env : Env) : Prop :=
  v.NeedsBlock amount env ∧ env.fresh = none

/-- Whether no size wraps around when `grow` needs room. -/
def Sized (v : SAbstractVector α) (amount factor : ℕ) : Prop :=
  v.avail < v.size + amount → (v.size + amount + 1) * factor < 2 ^ 32 ∧
    (v.size + amount + 1) * factor / 2 * v.elementSize + 7 < 2 ^ 32

/-- Whether `grow` does what it says, or fails. -/
def CanGrow (v : SAbstractVector α) (amount factor : ℕ) (env : Env) : Prop :=
  v.size + amount < 2 ^ 32 ∧ (v.Fails amount env ∨ v.Sized amount factor)

/-- Whether elements of the vector itself stay where they are when it grows, or it fails. -/
def Stays (v : SAbstractVector α) (amount pos last : ℕ) (env : Env) : Prop :=
  v.Fails amount env ∨ ¬ v.NeedsBlock amount env ∧ last ≤ pos

/-- The same of an element that a pointer points to. -/
def PtrStays (v : SAbstractVector α) (amount pos : ℕ) (env : Env) (item : Option (Ptr α)) : Prop :=
  ∀ p ∈ item, match p with
    | .given _ => True
    | .own i => v.Stays amount pos (i + 1) env

/-- The same of an array. -/
def ItemsStay (v : SAbstractVector α) (amount pos : ℕ) (env : Env) : Items α → Prop
  | .given _ => True
  | .own i n => v.Stays amount pos (i + n) env

/-- Whether no size wraps around when `shrink` takes a smaller block. -/
def CanShrink (v : SAbstractVector α) (amount : ℕ) (env : Env) : Prop :=
  v.localSpace < v.size - amount → wrap ((v.size - amount) * 4) < v.avail →
    (v.size - amount) * 2 * v.elementSize + 7 < 2 ^ 32 ∨ env.inplace = false ∧ env.fresh = none

/-- An array can be put in. -/
def CanInsert (v : SAbstractVector α) (items : Items α) (index : ℕ) (env : Env) : Prop :=
  0 < items.count →
    v.CanGrow items.count 3 env ∧ v.ItemsStay items.count (min index v.size) env items

/-- The calls that do not go wrong. No size wraps around. An argument that is a part of the vector
is not moved before it is copied. A vector is not assigned to itself if it has elements, and an
assignment finds memory. A replaced element is there. -/
def Observes (s : State α) (a : Action α × Env) : Prop :=
  let v := s.vec
  match a.1 with
  | .add item => v.CanGrow 1 3 a.2 ∧ v.PtrStays 1 v.size a.2 item
  | .addAt item index => v.CanGrow 1 3 a.2 ∧ v.PtrStays 1 (min index.toNat v.size) a.2 item
  | .addArrayAt array index => v.CanInsert array index.toNat a.2
  | .addVectorAt (some xs) index => v.CanInsert (.given xs) index.toNat a.2
  | .addVectorAt none index => v.CanInsert (.own 0 v.size) index.toNat a.2
  | .assign (some xs) =>
    { v with size := 0 }.Sized xs.length 3 ∧ ¬ { v with size := 0 }.Fails xs.length a.2
  | .assign none => v.size = 0
  | .setSize totalCount item =>
    if v.size < totalCount.toNat then
      v.CanGrow (totalCount.toNat - v.size) 3 a.2 ∧
        v.PtrStays (totalCount.toNat - v.size) v.size a.2 item
    else v.CanShrink (v.size - totalCount.toNat) a.2
  | .setCapacity totalSpace => v.CanGrow (totalSpace.toNat - v.size) 2 a.2
  | .replaceAt _ index => index.toNat < v.size
  | .removeItemsAt index count =>
    0 < count.toNat → index.toNat < v.size → index.toNat + count.toNat < 2 ^ 32 ∧
      v.CanShrink (min count.toNat (v.size - index.toNat)) a.2
  | .moveItems newIndex oldIndex count =>
    0 < count.toNat → oldIndex.toNat < v.size → oldIndex.toNat + count.toNat < 2 ^ 32 ∧
      (newIndex.toNat + min count.toNat (v.size - oldIndex.toNat) < 2 ^ 32 ∨
        32 < v.elementSize * min count.toNat (v.size - oldIndex.toNat) ∧ a.2.fresh = none)
  | .makeEmpty => True

end SAbstractVector

end OpenBinder
