import OpenBinder.Lib.Ring
import OpenBinder.Lib.Run
import OpenBinder.Lib.Word

/-!
# A pipe

`BPipe` with one writer and one reader, which its serializers make of any number of threads. Every
access to `mSpaceAvailable` and `mPipeHalfClosed` and every operation on a gate is a step of its own.

* `WriteCall`, `WriterPc`: a `WriteV` in progress, between two steps. `PrvWrite` and `PrvWriteEOS`
  are its program counters.
* `ReadCall`, `ReaderPc`: the same for `ReadV` and `PrvRead`.
* A gate stays open until it is closed, and a thread that waits for it goes on when it is open.

`accepted`, `received`, `given`, `told` and `lastRead` are not in the source. They are what the
writer and the reader have seen of the pipe.
-/

namespace OpenBinder

open Lib

namespace BPipe

/-- What an `iovec` of a writer points to: no block of memory is longer. -/
abbrev Vec := { bytes : List Byte // bytes.length < 2 ^ 31 }

/-- A `WriteV` in progress: what is left of its vector (`addr` and `len`), the vectors after that,
`total`, and its flags. -/
structure WriteCall where
  rest : List Byte
  vectors : List Vec
  total : ℕ
  blocking : Bool
  writeEnd : Bool

/-- Where a writer is in `PrvWrite` and `PrvWriteEOS`. -/
inductive WriterPc where
  | testClosed
  | testSpace
  | wait
  | close
  | copy
  | add (size : ℕ)
  | openData (size : ℕ)
  | testEnd
  | setEnd
  | testEmpty
  | openEnd

/-- A writer. -/
inductive Writer where
  | idle
  | running (call : WriteCall) (pc : WriterPc)

/-- A `ReadV` in progress: the length of its vector and of those after it, `total`, and whether it
blocks. `drained` is whether it found the pipe empty and at its end when it was called. -/
structure ReadCall where
  size : ℕ
  sizes : List ℕ
  total : ℕ
  blocking : Bool
  drained : Bool

/-- Where a reader is in `PrvRead`. -/
inductive ReaderPc where
  | testEmpty
  | wait
  | close
  | testAgain
  | openAgain
  | copy
  | add (bytes : List Byte)
  | openSpace (size : ℕ)

/-- A reader. -/
inductive Reader where
  | idle
  | running (call : ReadCall) (pc : ReaderPc)

/-- `B_WOULD_BLOCK`, `-EWOULDBLOCK`. -/
def wouldBlock : ℤ := -11

end BPipe

/-- A `BPipe` with its writer and its reader. -/
structure BPipe where
  size : ℕ
  slots : ℕ → Byte
  readOffset : ℕ
  writeOffset : ℕ
  spaceAvailable : ℕ
  halfClosed : Bool
  spaceOpen : Bool
  dataOpen : Bool
  writer : BPipe.Writer
  reader : BPipe.Reader
  /-- What the `WriteV` in progress was called with. -/
  given : List Byte
  /-- What the writer was told was written. -/
  told : List Byte
  /-- What was handed over in the pipe. -/
  accepted : List Byte
  /-- What was read. -/
  received : List Byte
  /-- Of the last `ReadV`, whether it found the pipe drained, and its result. -/
  lastRead : Option (Bool × ℤ)

namespace BPipe

/-- A new pipe. -/
def init (size : ℕ) : BPipe where
  size := size
  slots := fun _ => 0
  readOffset := 0
  writeOffset := 0
  spaceAvailable := size
  halfClosed := false
  spaceOpen := false
  dataOpen := false
  writer := .idle
  reader := .idle
  given := []
  told := []
  accepted := []
  received := []
  lastRead := none

/-- The bytes of vectors. -/
def flat (vectors : List Vec) : List Byte := vectors.flatMap fun v => v.1

/-! ### The writer -/

/-- The next vector that is not empty, and `total` there. -/
def nextVector : List Vec → ℕ → ℕ × Option (List Byte × List Vec)
  | [], total => (total, none)
  | v :: vectors, total =>
    if v.1 = [] then nextVector vectors total else (total + v.1.length, some (v.1, vectors))

/-- `WriteV` returns `total`, as a signed word. -/
def returnWrite (s : BPipe) (total : ℕ) : BPipe :=
  { s with writer := .idle, told := s.told ++ s.given.take (ssize total).toNat, given := [] }

/-- The loops of `WriteV` go on. -/
def writeOn (s : BPipe) (call : WriteCall) : BPipe :=
  if call.rest ≠ [] then { s with writer := .running call .testClosed }
  else
    match nextVector call.vectors call.total with
    | (total, some (rest, vectors)) =>
      let call := { call with rest := rest, vectors := vectors, total := total }
      { s with writer := .running call .testClosed }
    | (total, none) =>
      if call.writeEnd then
        let call := { call with vectors := [], total := total }
        { s with writer := .running call .testEnd }
      else s.returnWrite total

/-- `PrvWrite` returns a size. -/
def wrote (s : BPipe) (call : WriteCall) (size : ℕ) : BPipe :=
  s.writeOn { call with rest := call.rest.drop size }

/-- One step of the writer. `total` counts all of a vector before it is written, so that an error of
`PrvWrite` is never what `WriteV` returns. -/
def writerStep (s : BPipe) (call : WriteCall) : WriterPc → Option BPipe
  | .testClosed =>
    if s.halfClosed then some (s.returnWrite call.total)
    else some { s with writer := .running call .testSpace }
  | .testSpace =>
    if s.spaceAvailable = 0 then
      if call.blocking then some { s with writer := .running call .wait }
      else some (s.returnWrite call.total)
    else some { s with writer := .running call .close }
  | .wait => if s.spaceOpen then some { s with writer := .running call .testSpace } else none
  | .close => some { s with spaceOpen := false, writer := .running call .copy }
  | .copy =>
    let size := min call.rest.length s.spaceAvailable
    some { s with
      slots := place s.size s.slots s.writeOffset (call.rest.take size)
      writeOffset := advance s.size s.writeOffset size
      writer := .running call (.add size) }
  | .add size =>
    let s' := { s with
      spaceAvailable := s.spaceAvailable - size
      accepted := s.accepted ++ call.rest.take size }
    if s.spaceAvailable = s.size then some { s' with writer := .running call (.openData size) }
    else some (s'.wrote call size)
  | .openData size => some ({ s with dataOpen := true }.wrote call size)
  | .testEnd =>
    if s.halfClosed then some (s.returnWrite call.total)
    else some { s with writer := .running call .setEnd }
  | .setEnd => some { s with halfClosed := true, writer := .running call .testEmpty }
  | .testEmpty =>
    if s.spaceAvailable = s.size then some { s with writer := .running call .openEnd }
    else some (s.returnWrite call.total)
  | .openEnd => some ({ s with dataOpen := true }.returnWrite call.total)

/-! ### The reader -/

/-- `ReadV` returns. -/
def returnRead (s : BPipe) (drained : Bool) (result : ℤ) : BPipe :=
  { s with reader := .idle, lastRead := some (drained, result) }

/-- The loop of `ReadV` goes on: nothing is read to vectors of no length. -/
def readOn (s : BPipe) (blocking drained : Bool) (total : ℕ) : List ℕ → BPipe
  | [] => s.returnRead drained total
  | size :: sizes =>
    if size = 0 then s.readOn blocking drained total sizes
    else { s with reader := .running ⟨size, sizes, total, blocking, drained⟩ .testEmpty }

/-- `PrvRead` returns a size. -/
def didRead (s : BPipe) (call : ReadCall) (size : ℕ) : BPipe :=
  if size < call.size then s.returnRead call.drained (call.total + size : ℕ)
  else s.readOn call.blocking call.drained (call.total + size) call.sizes

/-- One step of the reader. -/
def readerStep (s : BPipe) (call : ReadCall) : ReaderPc → Option BPipe
  | .testEmpty =>
    if s.spaceAvailable = s.size then
      if call.blocking then some { s with reader := .running call .wait }
      else some (s.returnRead call.drained (if 0 < call.total then call.total else wouldBlock))
    else some { s with reader := .running call .close }
  | .wait => if s.dataOpen then some { s with reader := .running call .close } else none
  | .close => some { s with dataOpen := false, reader := .running call .testAgain }
  | .testAgain =>
    if s.spaceAvailable = s.size then some { s with reader := .running call .openAgain }
    else some { s with reader := .running call .copy }
  | .openAgain => some ({ s with dataOpen := true }.didRead call 0)
  | .copy =>
    let size := min call.size (s.size - s.spaceAvailable)
    some { s with
      readOffset := advance s.size s.readOffset size
      reader := .running call (.add (fetch s.size s.slots s.readOffset size)) }
  | .add bytes =>
    let s' := { s with
      spaceAvailable := s.spaceAvailable + bytes.length
      received := s.received ++ bytes }
    if s.spaceAvailable = 0 then some { s' with reader := .running call (.openSpace bytes.length) }
    else some (s'.didRead call bytes.length)
  | .openSpace size => some ({ s with spaceOpen := true }.didRead call size)

/-! ### Steps -/

/-- What can happen: a call, or a step of a call. -/
inductive Action where
  | writeV (vectors : List Vec) (blocking writeEnd : Bool)
  | readV (sizes : List ℕ) (blocking : Bool)
  | writer
  | reader

/-- One step. -/
def step (s : BPipe) : Action → Option BPipe
  | .writeV vectors blocking writeEnd =>
    match s.writer with
    | .idle => some ({ s with given := flat vectors }.writeOn
        ⟨[], vectors, 0, blocking, writeEnd⟩)
    | .running _ _ => none
  | .readV sizes blocking =>
    match s.reader with
    | .idle => some (s.readOn blocking (s.halfClosed && s.spaceAvailable == s.size) 0 sizes)
    | .running _ _ => none
  | .writer =>
    match s.writer with
    | .idle => none
    | .running call pc => s.writerStep call pc
  | .reader =>
    match s.reader with
    | .idle => none
    | .running call pc => s.readerStep call pc

/-- Whether the writer is about to open the gate of the reader, or to see whether it has to. -/
def WakesReader : Writer → Prop
  | .running _ (.openData _) => True
  | .running _ .testEmpty => True
  | .running _ .openEnd => True
  | _ => False

/-- Whether the reader waits, having read so much. -/
def WaitsWith (reader : Reader) (total : ℕ) : Prop :=
  ∃ call, reader = .running call .wait ∧ call.total = total

/-- **A FIFO channel with an end**: what is read is what was accepted, in order; the writer is told
of what was accepted and of nothing else, and of all of it when its call is over; a reader that has
data does not wait, and no reader waits for a wake-up that has been lost; and a reader that comes
to a pipe that is drained and at its end gets zero. -/
structure Fifo (s : BPipe) : Prop where
  read : s.received <+: s.accepted
  accepted : s.accepted <+: s.told ++ s.given
  told : s.told <+: s.accepted
  idle : s.writer = .idle → s.told = s.accepted
  empty_handed : ∀ total, WaitsWith s.reader total → total = 0
  woken : ∀ total, WaitsWith s.reader total → s.dataOpen = false →
    s.spaceAvailable ≠ s.size ∨ s.halfClosed = true → WakesReader s.writer
  ended : ∀ result, s.lastRead = some (true, result) → result = 0

/-- The steps that do not go wrong. A `WriteV` is no longer than a signed word can say, and it does
not end in an error: it does not find the write end closed, nor the pipe full where it must not
block. A `ReadV` does not come to an empty pipe when it has read something; nor, if it blocks, when
the end was written while there was data, which leaves the gate closed; nor, if it does not block,
when the pipe was already drained and at its end. -/
def Observes (s : BPipe) : Action → Prop
  | .writeV vectors _ _ => (flat vectors).length < 2 ^ 31
  | .readV _ _ => True
  | .writer =>
    match s.writer with
    | .running _ .testClosed => s.halfClosed = false
    | .running call .testSpace => call.blocking = false → s.spaceAvailable ≠ 0
    | _ => True
  | .reader =>
    match s.reader with
    | .running call .testEmpty => s.spaceAvailable = s.size →
        if call.blocking then
          call.total = 0 ∧ (s.halfClosed = true → s.dataOpen = false → WakesReader s.writer)
        else call.drained = false
    | _ => True

end BPipe

end OpenBinder
