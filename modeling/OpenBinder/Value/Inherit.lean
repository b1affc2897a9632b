import OpenBinder.Value.Join

/-!
# Inherit

`SValue::Inherit` adds what another value has and the value lacks. It walks the
items of both values at once, with a cursor into the value that it is adding to.
-/

namespace OpenBinder.SValue

open Lib

/-- `GetNextItem` at index `i`; `none` for a negative result. `last` is what the
output variables hold: an error with the code `B_OK` reports success and leaves them
alone. -/
def getNextItem (this : SValue) (i : ℕ) (last : Pair) : Option Pair :=
  if this.isError then (if this.errorCheck < 0 then none else some last) else this.items[i]?

/-- The variables of `Inherit`: the value, the cursor `i1` with the item `(k1, v1)` read
last, and the flags. -/
structure InheritState where
  this : SValue
  i1 : ℕ
  item : Pair
  first : Bool
  finish : Bool
  terminals : Bool
  termcheck : Bool

/-- The body of the inner loop of `Inherit`: reading the next item. -/
def InheritState.next (s : InheritState) : InheritState :=
  match s.this.getNextItem s.i1 s.item with
  | none => { s with first := false, finish := true, termcheck := true }
  | some p =>
    { s with i1 := s.i1 + 1, item := p, first := false
             terminals := s.terminals || (!s.termcheck && p.1.isWild) }

/-- The inner loop of `Inherit`: reading on as long as the item read last is in front of
the item `p2` of `from`. The second result is `cmp`. With `fuel` rounds the loop comes to
an end unless it never does. -/
def advance : ℕ → InheritState → Pair → Option (InheritState × Ordering)
  | 0, _, _ => none
  | fuel + 1, s, p2 =>
    if s.finish then some (s, .lt)
    else
      let cmp := if s.first then .lt else compareMap s.item p2
      if cmp = .lt then advance fuel s.next p2 else some (s, cmp)

/-- The loop that looks for a set item from index `i` on; it does not end on an error with
the code `B_OK`. -/
def scanTerminals (this : SValue) (i : ℕ) : Option Bool :=
  if this.isError && !decide (this.errorCheck < 0) then none
  else some ((this.items.drop i).any fun p => p.1.isWild)

/-- Before a set item is added: whether the value has set items, if that is not known
yet. -/
def InheritState.checkTerminals (s : InheritState) : Option InheritState :=
  if !s.terminals && !s.termcheck then
    (scanTerminals s.this s.i1).map fun terminals =>
      { s with terminals := terminals, termcheck := true }
  else some s

/-- Adding an item of `from`: a set item is only added when the value has none. -/
def inheritNew (flags : Flags) (s : InheritState) (k2 v2 : SValue) : Option InheritState :=
  let flags := { flags with noFlatten := true }
  if k2.isWild then do
    let s ← s.checkTerminals
    if !s.terminals then do
      let this ← s.this.joinItem k2 v2 flags
      pure { s with this := this }
    else pure s
  else do
    let this ← s.this.joinItem k2 v2 flags
    pure { s with this := this }

/-- Editing the item that the cursor has just read, found by its index `i1 - 1`. -/
def inheritEdit (s : InheritState) (inheritValue : SValue → Option SValue) : Option InheritState :=
  match s.this.editMap with
  | some m => do
    let cur ← m.beginEditMapAt (s.i1 - 1)
    let cur ← inheritValue cur
    let m ← m.endEditMapAt (s.i1 - 1) cur
    pure { s with this := map m }
  | none => pure s

/-- One round of the outer loop of `Inherit`. `inheritValue` is the recursive call on the
value that is being edited. -/
def inheritPair (flags : Flags) (s : InheritState) (k2 v2 : SValue)
    (inheritValue : SValue → Option SValue) : Option InheritState := do
  let (s, cmp) ← advance (s.this.items.length + 2) s (k2, v2)
  if cmp ≠ .eq then inheritNew flags s k2 v2
  else if !flags.noRecursion && !k2.isWild then inheritEdit s inheritValue
  else pure s

/-- The cases of `Inherit`; `loop` is what its loop over the items of `from` makes of
the value. -/
def inheritWith (this from' : SValue) (loop : InheritState → Option InheritState) : Option SValue :=
  if from'.isError then some from'
  else if this.isSpecified then
    (loop ⟨this, 0, (undefined, undefined), true, false, false, false⟩).map fun s => s.this
  else if !this.isDefined then some from'
  else some this

mutual

def inherit (flags : Flags) : SValue → SValue → Option SValue
  | this, map ⟨avail, dataSize, maps⟩ =>
    inheritWith this (map ⟨avail, dataSize, maps⟩) fun s => inheritItems flags s maps
  | this, v =>
    -- the only item of a simple value has a wild key, so nothing is edited
    inheritWith this v fun s =>
      v.items.foldlM (fun s p => inheritPair flags s p.1 p.2 fun _ => none) s

/-- The loop of `Inherit`. -/
def inheritItems (flags : Flags) : InheritState → List Pair → Option InheritState
  | s, [] => some s
  | s, (k2, v2) :: rest => do
    let s ← inheritPair flags s k2 v2 fun cur => inherit flags cur v2
    inheritItems flags s rest

end

end OpenBinder.SValue
