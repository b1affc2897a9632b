import OpenBinder.Vector.VectorLaw

/-!
# Vectors that are exchanged and relocated

Several vectors of one element type in memory. `Swap`, `MoveBefore` and `MoveAfter` copy the objects
by their bytes and then move the elements that are in local storage.

* `Objects.vector`: an object of the memory as a vector of its own.
* `Exchanged`, `Relocated`: what is promised.
* `OnHeap`: exactly vectors on the heap can be exchanged and relocated, since `m_base` of a
  vector with local storage keeps pointing into the object that it was copied from.
-/

namespace OpenBinder.SAbstractVector

open Lib

variable {α : Type}

/-- Where an object is: in an array of objects, or in the buffer of `Swap`. -/
inductive Address where
  | slot (o : ℕ)
  | buffer
deriving DecidableEq

/-- Where elements are: in `m_data.local` of an object, or in a block on the heap. -/
inductive Site where
  | localOf (address : Address)
  | block (b : ℕ)
deriving DecidableEq

/-- The bytes of an object in front of its local storage. -/
structure Object where
  size : ℕ
  avail : ℕ
  base : Site
  heap : Option ℕ

/-- Vectors in memory. `bytewise` is whether `BMoveBefore` of the element type is `memmove`. -/
structure Objects (α : Type) where
  elementSize : ℕ
  bytewise : Bool
  object : Address → Object
  mem : Store Site α

namespace Objects

/-- `m_localSpace`. -/
def localSpace (s : Objects α) : ℕ := 8 / s.elementSize

/-- An object as a vector of its own. What is not its own storage is no place that it has. -/
def vector (s : Objects α) (o : Address) : SAbstractVector α where
  elementSize := s.elementSize
  size := (s.object o).size
  avail := (s.object o).avail
  base := match (s.object o).base with
    | .localOf o' => if o' = o then .localSpace else .buffer
    | .block b => .block b
  heap := (s.object o).heap
  mem := fun p => match p with
    | .localSpace => s.mem (.localOf o)
    | .buffer => none
    | .block b => if (s.object o).base = .block b then s.mem (.block b) else none

/-! ### Bytes -/

/-- Cells that are written over with the bytes of others. Where elements have to be constructed, the
bytes of an element are none, and no element may be lost. -/
def overwrite (s : Objects α) (dest src : Cells α) : Option (Cells α) :=
  if s.bytewise = true then some src
  else if dest.all Option.isNone then some (raw src.length)
  else none

/-- An object is written over with the bytes that another one had. -/
def copyObject (old : Objects α) (dest src : Address) (s : Objects α) : Option (Objects α) :=
  (old.mem (.localOf dest)).bind fun d => (old.mem (.localOf src)).bind fun c =>
    (old.overwrite d c).map fun cells =>
      { s with
        object := Function.update s.object dest (old.object src)
        mem := s.mem.put (.localOf dest) cells }

/-- `memmove` of some objects. -/
def memmove (old : Objects α) (dest src : ℕ) : ℕ → Objects α → Option (Objects α)
  | 0, s => some s
  | n + 1, s =>
    (memmove old dest src n s).bind (copyObject old (.slot (dest + n)) (.slot (src + n)))

/-- `memcpy` of some objects, which must not overlap unless they are the same. -/
def memcpy (s : Objects α) (dest src count : ℕ) : Option (Objects α) :=
  if dest = src then some s
  else if dest + count ≤ src ∨ src + count ≤ dest then memmove s dest src count s
  else none

/-- `memcpy` of one object. -/
def memcpyObject (dest src : Address) (s : Objects α) : Option (Objects α) :=
  if dest = src then some s else copyObject s dest src s

/-! ### Elements -/

/-- `PerformMoveBefore` from the local storage of an object to that of another one. -/
def performMoveBefore (s : Objects α) (dest src : Address) (n : ℕ) : Option (Objects α) :=
  if s.bytewise = true then
    (s.mem (.localOf dest)).bind fun d => (s.mem (.localOf src)).bind fun c =>
      if n ≤ d.length ∧ n ≤ c.length then
        some { s with mem := s.mem.put (.localOf dest) (c.take n ++ d.drop n) }
      else none
  else
    (Store.moveBefore (.localOf dest) (.localOf src) 0 0 n s.mem).map fun mem =>
      { s with mem := mem }

/-- The elements are moved if those of an object are local. -/
def moveLocal (o dest src : Address) (n : ℕ) (s : Objects α) : Option (Objects α) :=
  if (s.object o).avail ≤ s.localSpace ∧ 0 < (s.object o).size then s.performMoveBefore dest src n
  else some s

def swap (s : Objects α) (a b : ℕ) : Option (Objects α) :=
  (memcpyObject .buffer (.slot a)
    { s with mem := s.mem.put (.localOf .buffer) (raw s.localSpace) }).bind fun s =>
  (moveLocal (.slot a) .buffer (.slot a) 1 s).bind fun s =>
  (memcpyObject (.slot a) (.slot b) s).bind fun s =>
  (moveLocal (.slot a) (.slot a) (.slot b) 1 s).bind fun s =>
  (memcpyObject (.slot b) .buffer s).bind fun s =>
  moveLocal (.slot b) (.slot b) .buffer 1 s

/-- The number of elements that `MoveBefore` and `MoveAfter` move. -/
def moveCount (s : Objects α) (o : Address) : ℕ := wrap ((s.object o).size * s.elementSize)

/-- The loop of `MoveBefore`. -/
def moveBeforeLoop : ℕ → ℕ → ℕ → Objects α → Option (Objects α)
  | _, _, 0, s => some s
  | dest, src, n + 1, s =>
    (moveLocal (.slot src) (.slot dest) (.slot src) (s.moveCount (.slot src)) s).bind
      (moveBeforeLoop (dest + 1) (src + 1) n)

def moveBefore (s : Objects α) (dest src count : ℕ) : Option (Objects α) :=
  (s.memcpy dest src count).bind (moveBeforeLoop dest src count)

/-- The loop of `MoveAfter`. -/
def moveAfterLoop (dest src : ℕ) : ℕ → Objects α → Option (Objects α)
  | 0, s => some s
  | n + 1, s =>
    (moveLocal (.slot (src + n)) (.slot (dest + n)) (.slot (src + n))
      (s.moveCount (.slot (src + n))) s).bind (moveAfterLoop dest src n)

def moveAfter (s : Objects α) (dest src count : ℕ) : Option (Objects α) :=
  (memmove s dest src count s).bind (moveAfterLoop dest src count)

/-! ### What is promised -/

/-- Whether the elements of a vector are on the heap. -/
def OnHeap (s : Objects α) (o : ℕ) : Prop := s.localSpace < (s.object (.slot o)).avail

/-- **The vectors are exchanged**: each has the elements of the other one in storage of its own, no
element is anywhere else, and no other vector is changed. -/
def Exchanged (s : Objects α) (a b : ℕ) (la lb : List α) : Prop :=
  ∃ s', s.swap a b = some s' ∧ (s'.vector (.slot a)).Holds lb ∧ (s'.vector (.slot b)).Holds la ∧
    (∀ p, s'.mem (.block p) = s.mem (.block p)) ∧
    ∀ o, o ≠ a → o ≠ b → s'.vector (.slot o) = s.vector (.slot o)

/-- **Vectors are relocated**: each destination holds what its source did in storage of its own, no
element stays in a source, and no other vector is changed. -/
def Relocated (r : Option (Objects α)) (s : Objects α) (dest src count : ℕ) (l : ℕ → List α) :
    Prop :=
  ∃ s', r = some s' ∧ (∀ i < count, (s'.vector (.slot (dest + i))).Holds (l i)) ∧
    (∀ p, s'.mem (.block p) = s.mem (.block p)) ∧
    (∀ i < count, (∀ j < count, src + i ≠ dest + j) → s.bytewise = true ∨
      s'.mem (.localOf (.slot (src + i))) = some (raw s.localSpace)) ∧
    ∀ o, (∀ i < count, o ≠ dest + i ∧ o ≠ src + i) → s'.vector (.slot o) = s.vector (.slot o)

/-- Vectors that can be relocated: each source holds its elements, and what is no source among the
destinations is raw. -/
structure Movable (s : Objects α) (dest src count : ℕ) (l : ℕ → List α) : Prop where
  holds : ∀ i < count, (s.vector (.slot (src + i))).Holds (l i)
  raw : ∀ i < count, (∀ j < count, dest + i ≠ src + j) →
    s.mem (.localOf (.slot (dest + i))) = some (raw s.localSpace)

end Objects

end OpenBinder.SAbstractVector
