import OpenBinder.Lib.BitWords
import OpenBinder.Lib.Run
import OpenBinder.Lib.Word

/-!
# Bitfields

A bitfield of up to 32 bits is in a word of the object itself, in the place of the pointer to the
words of a larger one.

* `computeMasks`, `fill`, `resize`, `first`, `equals`: what they compute, with the arithmetic of
  `size_t`. What touches a word that is not there, or is undefined, has no result.
* `Refines`: the field is a list of booleans.
* `step`: a call on one of any number of fields, next to what it does with their lists.
* `Observes`: the calls that do not go wrong.
-/

namespace OpenBinder

open Lib

/-- What is in the place of the pointer. -/
inductive SBitfield.Bits where
  | inlineBits (word : BitVec 32)
  | bits (words : List (BitVec 32))
deriving DecidableEq

structure SBitfield where
  numBits : ℤ
  store : SBitfield.Bits
deriving DecidableEq

namespace SBitfield

def noMemory : ℤ := (0x80000504#32).toInt

/-- What the allocator answers: what is in new memory, or `NULL`. -/
abbrev Memory := Option (ℕ → BitVec 32)

def IsInline (f : SBitfield) : Prop := f.numBits ≤ 32

instance (f : SBitfield) : Decidable f.IsInline := by unfold IsInline; infer_instance

/-- `m_inlineBits`. -/
def word (f : SBitfield) : Option (BitVec 32) :=
  match f.store with
  | .inlineBits word => some word
  | .bits _ => none

/-- The words at `m_bits`. -/
def words (f : SBitfield) : Option (List (BitVec 32)) :=
  match f.store with
  | .inlineBits _ => none
  | .bits words => some words

/-- `bitfield_fill_info`. -/
structure FillInfo where
  startWord : ℕ
  endWord : ℕ
  leftMask : BitVec 32
  rightMask : BitVec 32
  numWords : ℕ

/-- `compute_masks`. The end of an empty range is before its start, also where that is zero. -/
def computeMasks (start len : ℕ) : FillInfo :=
  let last := (start + len + (2 ^ 32 - 1)) % 2 ^ 32
  let numWords := (last / 32 + 2 ^ 32 - start / 32) % 2 ^ 32
  { startWord := start / 32
    endWord := last / 32
    leftMask := Lib.leftMask (start % 32)
    rightMask := Lib.rightMask (last % 32)
    numWords := if numWords ≠ 0 then numWords - 1 else numWords }

/-- The words of a range set or cleared. -/
def fillHeap (value : Bool) (info : FillInfo) (words : List (BitVec 32)) :
    Option (List (BitVec 32)) :=
  if info.startWord = info.endWord then
    modifyWord words info.startWord (putMask value (info.leftMask &&& info.rightMask))
  else
    (modifyWord words info.startWord (putMask value info.leftMask)).bind fun words =>
      -- the bytes that are filled are counted by a `size_t`
      (if info.numWords ≠ 0 then
        fillWords words (info.startWord + 1) (info.numWords * 4 % 2 ^ 32 / 4)
          (if value then 0xFFFFFFFF#32 else 0)
      else some words).bind fun words =>
        modifyWord words info.endWord (putMask value info.rightMask)

/-- `Set` and `Clear`, with whether it is `B_OK`. -/
def fill (value : Bool) (f : SBitfield) (start len : ℕ) : Option (SBitfield × Bool) :=
  if f.numBits < ssize (start + len) then some (f, false)
  else
    let info := computeMasks start len
    if f.IsInline then
      f.word.map fun word =>
        ({ f with store := .inlineBits (putMask value (info.leftMask &&& info.rightMask) word) }, true)
    else
      f.words.bind fun words =>
        (fillHeap value info words).map fun words => ({ f with store := .bits words }, true)

def set (f : SBitfield) (start len : ℕ) : Option (SBitfield × Bool) := fill true f start len

def clear (f : SBitfield) (start len : ℕ) : Option (SBitfield × Bool) := fill false f start len

def testAndSet (f : SBitfield) (bit : ℕ) : Option (SBitfield × Bool) :=
  if 32 < f.numBits then
    f.words.bind fun words =>
      (modifyWord words (bit / 32) (putMask true (bitMask (bit % 32)))).map fun words' =>
        ({ f with store := .bits words' }, (words.getD (bit / 32) 0 &&& bitMask (bit % 32)) != 0)
  else
    f.word.map fun word =>
      ({ f with store := .inlineBits (putMask true (bitMask (bit % 32)) word) },
        (word &&& bitMask (bit % 32)) != 0)

/-- `Test`, inside of the field. -/
def test (f : SBitfield) (bit : ℕ) : Bool :=
  match f.store with
  | .inlineBits word => word.getMsbD (bit % 32)
  | .bits words => bitAt words bit

/-- `alloc_size`, in words. -/
def allocSize (size : ℕ) : ℕ := (size + 31) % 2 ^ 32 / 32

def malloc (size : ℕ) (memory : Memory) : Option (List (BitVec 32)) :=
  memory.map fun junk => (List.range size).map junk

def realloc (words : List (BitVec 32)) (size : ℕ) (memory : Memory) : Option (List (BitVec 32)) :=
  memory.map fun junk => words.take size ++ ((List.range size).drop words.length).map junk

/-- The bits that a field has grown by are cleared. -/
def clearGrown (f : SBitfield) (oldBits : ℤ) (bits : ℕ) : Option (SBitfield × Bool) :=
  (f.clear (size oldBits).toNat (size (bits - oldBits)).toNat).map fun r => (r.1, true)

/-- `Resize`, with whether it is `B_OK` and not `B_NO_MEMORY`. -/
def resize (f : SBitfield) (bits : ℕ) (memory : Memory) : Option (SBitfield × Bool) :=
  if ssize bits ≤ f.numBits then
    if f.IsInline then some (f, true)
    else
      f.words.bind fun words =>
        if bits ≤ 32 then words.head?.map fun word => (⟨32, .inlineBits word⟩, true)
        else some (⟨ssize bits, .bits ((realloc words (allocSize bits) memory).getD [])⟩, true)
  else if 32 < bits then
    if f.IsInline then
      -- what `malloc` returns is written to before it is checked
      f.word.bind fun word =>
        (malloc (allocSize bits) memory).bind fun newbuf =>
          clearGrown ⟨ssize bits, .bits (newbuf.set 0 word)⟩ f.numBits bits
    else
      f.words.bind fun words =>
        match realloc words (bits / 8 / 4) memory with
        | some newbuf => clearGrown ⟨ssize bits, .bits newbuf⟩ f.numBits bits
        | none => some (f, false)
  else if f.numBits ≠ 0 then clearGrown ⟨32, f.store⟩ f.numBits bits
  else some (⟨32, .inlineBits 0⟩, true)

/-- A bitfield before its constructor resizes it: `m_bits` is `NULL`. -/
def empty : SBitfield := ⟨0, .inlineBits 0⟩

/-- `SBitfield(size)`. -/
def ofSize (size : ℕ) (memory : Memory) : Option SBitfield :=
  if size ≠ 0 then
    (empty.resize size memory).map fun r => if r.2 then r.1 else { r.1 with numBits := noMemory }
  else some empty

/-- `SBitfield(size, initial)`. -/
def ofSizeInitial (size : ℕ) (initial : Bool) (memory : Memory) : Option SBitfield :=
  (ofSize size memory).bind fun f => if initial then (f.set 0 size).map Prod.fst else some f

/-- `SBitfield(copy)`. -/
def ofCopy (copy : SBitfield) (memory : Memory) : Option SBitfield :=
  if 0 ≤ copy.numBits then
    if copy.IsInline then copy.word.map fun word => ⟨copy.numBits, .inlineBits word⟩
    else
      (empty.resize (size copy.numBits).toNat memory).bind fun r =>
        if r.2 then
          copy.words.bind fun words =>
            if words.length < allocSize (size copy.numBits).toNat then none
            else some ⟨copy.numBits, .bits (words.take (allocSize (size copy.numBits).toNat))⟩
        else some { r.1 with numBits := noMemory }
  else some { empty with numBits := copy.numBits }

def wordSet (word : BitVec 32) : ℤ :=
  (narrow 0x00000002 1 (narrow 0x0000000C 2 (narrow 0x000000F0 4 (narrow 0x0000FF00 8
    (narrow 0xFFFF0000 16 (word, 31)))))).2

/-- The word itself, or its complement. -/
def select (value : Bool) (word : BitVec 32) : BitVec 32 := if value then word else ~~~word

/-- The loop of `FirstSet` and `FirstClear` over `n` words. -/
def scanWords (value : Bool) (words : List (BitVec 32)) : ℕ → ℕ → Option ℤ
  | 0, _ => some (-1)
  | n + 1, i =>
    words[i]?.bind fun word =>
      if select value word ≠ 0 then some (i * 32 + wordSet (select value word))
      else scanWords value words n (i + 1)

/-- `FirstSet` and `FirstClear`. -/
def first (value : Bool) (f : SBitfield) : Option ℤ :=
  if f.numBits < 0 then some f.numBits
  else if f.IsInline then
    f.word.map fun word => if select value word ≠ 0 then wordSet (select value word) else -1
  else f.words.bind fun words => scanWords value words (f.numBits.toNat / 32) 0

def firstSet (f : SBitfield) : Option ℤ := first true f

def firstClear (f : SBitfield) : Option ℤ := first false f

/-- `operator ==`. The mask of an inline field is shifted by what is left of a word, and a shift by
32 is undefined. -/
def equals (f copy : SBitfield) (same : Bool) : Option Bool :=
  if same then some true
  else if f.numBits ≠ copy.numBits then some false
  else if 0 < f.numBits then
    if f.IsInline then
      let count := 32 - f.numBits.toNat % 32
      if count = 32 then none
      else
        f.word.bind fun word => copy.word.map fun word' =>
          decide (word &&& (0xFFFFFFFF#32 <<< count) = word' &&& (0xFFFFFFFF#32 <<< count))
    else
      f.words.bind fun words => copy.words.bind fun words' =>
        let info := computeMasks 0 f.numBits.toNat
        if words.length ≤ info.endWord ∨ words'.length ≤ info.endWord then none
        else some (decide (words.take info.endWord = words'.take info.endWord ∧
          words.getD info.endWord 0 &&& info.rightMask =
            words'.getD info.endWord 0 &&& info.rightMask))
  else some true

/-! ### Lists of booleans -/

/-- A list cut, or grown by cleared bits. -/
def resizeList (l : List Bool) (n : ℕ) : List Bool := l.take n ++ List.replicate (n - l.length) false

/-- A range of a list set or cleared, if the list has it. -/
def fillList (value : Bool) (l : List Bool) (start len : ℕ) : List Bool × Bool :=
  if start + len ≤ l.length then
    (l.mapIdx fun i b => if start ≤ i ∧ i < start + len then value else b, true)
  else (l, false)

/-- The lowest index of a value, or -1. -/
def firstIndex (value : Bool) (l : List Bool) : ℤ := if value ∈ l then l.idxOf value else -1

/-- **A field is a list of booleans.** -/
structure Refines (f : SBitfield) (l : List Bool) : Prop where
  numBits : f.numBits = l.length
  small : l.length < 2 ^ 31
  inline : ∀ word, f.store = .inlineBits word →
    l.length ≤ 32 ∧ ∀ i < l.length, word.getMsbD i = l.getD i false
  heap : ∀ words, f.store = .bits words → 32 < l.length ∧ words.length = (l.length + 31) / 32 ∧
    ∀ i < l.length, bitAt words i = l.getD i false

/-! ### Calls on any number of fields -/

/-- The fields with their lists, and whether all calls have touched only what they may and returned
what they should. -/
structure Fields where
  field : ℕ → Option (SBitfield × List Bool)
  sound : Bool

/-- A call on a field. What is allocated is given with it. -/
inductive Call where
  | construct (id : ℕ) (size : BitVec 32) (initial : Bool) (memory : Memory)
  | copy (id source : ℕ) (memory : Memory)
  | resize (id : ℕ) (bits : BitVec 32) (memory : Memory)
  | fill (value : Bool) (id : ℕ) (start len : BitVec 32)
  | testAndSet (id : ℕ) (bit : ℕ)
  | first (value : Bool) (id : ℕ)
  | equals (id other : ℕ)

namespace Fields

/-- A field after a call, with its list. -/
def put (s : Fields) (id : ℕ) (f : Option SBitfield) (l : List Bool) (agrees : Bool) : Fields :=
  match f with
  | some f => ⟨Function.update s.field id (some (f, l)), s.sound && agrees⟩
  | none => { s with sound := false }

def step (s : Fields) : Call → Option Fields
  | .construct id size initial memory =>
    some (s.put id (ofSizeInitial size.toNat initial memory) (List.replicate size.toNat initial) true)
  | .copy id source memory =>
    (s.field source).map fun p => s.put id (p.1.ofCopy memory) p.2 true
  | .resize id bits memory =>
    (s.field id).map fun p =>
      s.put id ((p.1.resize bits.toNat memory).map Prod.fst) (resizeList p.2 bits.toNat) true
  | .fill value id start len =>
    (s.field id).map fun p =>
      let filled := fill value p.1 start.toNat len.toNat
      let wanted := fillList value p.2 start.toNat len.toNat
      s.put id (filled.map Prod.fst) wanted.1 (decide (filled.map Prod.snd = some wanted.2))
  | .testAndSet id bit =>
    (s.field id).bind fun p =>
      if bit < p.2.length then
        let tested := p.1.testAndSet bit
        some (s.put id (tested.map Prod.fst) (p.2.set bit true)
          (decide (tested.map Prod.snd = p.2[bit]?)))
      else none
  | .first value id =>
    (s.field id).map fun p =>
      { s with sound := s.sound && decide (first value p.1 = some (firstIndex value p.2)) }
  | .equals id other =>
    (s.field id).bind fun p => (s.field other).map fun q =>
      { s with sound := s.sound && decide (equals p.1 q.1 (decide (id = other)) =
        some (decide (p.2 = q.2))) }

/-- No field yet. -/
def start : Fields := ⟨fun _ => none, true⟩

/-- **The fields are lists of booleans**, and every call has been one on lists. -/
def Exact (s : Fields) : Prop :=
  s.sound = true ∧ ∀ id f l, s.field id = some (f, l) → Refines f l

end Fields

/-! ### What goes wrong -/

/-- **A size that a field can get**: none from none, 32, and more that can be allocated. What a
field on the heap grows to has to be a multiple of 32. -/
def FitsResize (f : SBitfield) (bits : ℕ) (memory : Memory) : Prop :=
  (bits = 0 ∧ f.numBits = 0) ∨ bits = 32 ∨
    (32 < bits ∧ bits < 2 ^ 31 ∧ memory ≠ none ∧ (32 < f.numBits → f.numBits < bits → bits % 32 = 0))

/-- **A range that is filled right**: it is rejected, or inside of the field and, if it is empty, not
at the start of a word, where all of the word is filled. -/
def FitsFill (value : Bool) (f : SBitfield) (start len : ℕ) : Prop :=
  f.numBits < ssize (start + len) ∨
    ((start + len : ℕ) ≤ f.numBits ∧ (len = 0 → start % 32 ≠ 0 ∨ f.numBits = 0 ∨
      f.store = .inlineBits (if value then 0xFFFFFFFF#32 else 0)))

/-- **A bit that is found**: not in an empty field, and not in the last word of one on the heap, if
the field ends in it. -/
def FitsFirst (value : Bool) (f : SBitfield) : Prop :=
  if f.numBits = 0 then f.store = .inlineBits (if value then 0 else 0xFFFFFFFF#32)
  else f.numBits = 32 ∨ (∃ i < f.numBits.toNat / 32 * 32, f.test i = value) ∨
    ∀ i < f.numBits.toNat, f.test i ≠ value

/-- **The calls that do not go wrong.** -/
def Observes (s : Fields) : Call → Prop
  | .construct _ size _ memory => FitsResize empty size.toNat memory
  | .copy _ source memory => ∀ p ∈ s.field source, 32 < p.1.numBits → memory ≠ none
  | .resize id bits memory => ∀ p ∈ s.field id, FitsResize p.1 bits.toNat memory
  | .fill value id start len => ∀ p ∈ s.field id, FitsFill value p.1 start.toNat len.toNat
  | .testAndSet _ _ => True
  | .first value id => ∀ p ∈ s.field id, FitsFirst value p.1
  | .equals id other => id = other ∨ ∀ p ∈ s.field id, ∀ q ∈ s.field other,
      ¬ (p.1.numBits = 32 ∧ q.1.numBits = 32)

end SBitfield

end OpenBinder
