import OpenBinder.Lib.Run
import OpenBinder.Parcel.Parcel

/-!
# The storage of `SParcel`

A parcel has its bytes in itself (`m_inline`), on the heap, in a block of someone else, or
nowhere. Here are the operations on a parcel without streams as far as they decide where bytes
are: what `m_data` points at, the three numbers that are compared with each other, and the
objects that are remembered in `m_binders`.

Every operation notes the ranges of the block that it reads and writes. Sums of 32-bit numbers
wrap around, and an operation is told whether `malloc` gives it a block. `ErrFatalError` is the
end of the program.
-/

namespace OpenBinder

open Lib Function

def noMemory : ℤ := (BitVec.ofNat 32 0x80000504).toInt

/-- What `m_data` points at. -/
inductive Block where
  | null
  | inline
  | outside (size : ℤ)
  deriving DecidableEq

/-- How many bytes are there. -/
def Block.size : Block → ℤ
  | null => 0
  | inline => 32
  | outside size => size

/-- Bytes of a block of the given size that are read or written. -/
structure Range where
  block : ℤ
  offset : ℤ
  length : ℤ
  deriving DecidableEq

/-- The bytes, if there are any, lie in the block. -/
def Range.Inside (r : Range) : Prop := 0 < r.length → 0 ≤ r.offset ∧ r.offset + r.length ≤ r.block

/-- `SParcel`. Of `m_free` it says whether it is set, and `ranges` are those of the operation. -/
structure Storage where
  data : Block
  free : Bool
  length : ℤ
  avail : ℤ
  base : ℤ
  pos : ℤ
  binders : List ℤ
  ownsBinders : Bool
  ranges : List Range

namespace Storage

/-- Bytes of `m_data` are read or written. -/
def touch (p : Storage) (offset length : ℤ) : Storage :=
  { p with ranges := p.ranges ++ [⟨p.data.size, offset, length⟩] }

@[simp] theorem touch_data (p : Storage) (o n : ℤ) : (p.touch o n).data = p.data := rfl
@[simp] theorem touch_pos (p : Storage) (o n : ℤ) : (p.touch o n).pos = p.pos := rfl
@[simp] theorem touch_length (p : Storage) (o n : ℤ) : (p.touch o n).length = p.length := rfl
@[simp] theorem touch_avail (p : Storage) (o n : ℤ) : (p.touch o n).avail = p.avail := rfl

/-- `acquire_binders` and `release_binders`: all the objects are looked at. -/
def binderRanges (p : Storage) : Storage :=
  { p with ranges := p.ranges ++ p.binders.map (⟨p.data.size, ·, 16⟩) }

def reset (p : Storage) : Storage :=
  let p := if p.ownsBinders then p.binderRanges else p
  { p with
    binders := []
    avail := if p.data = .inline then 32 else p.avail
    ownsBinders := false
    length := 0
    base := 0
    pos := 0 }

def doFree (p : Storage) : Storage :=
  let p := if p.ownsBinders then p.binderRanges else p
  { p with
    binders := []
    ownsBinders := false
    data := .null
    length := 0
    avail := 0
    free := false
    base := 0
    pos := 0 }

def reserve (len : ℤ) (malloc : Bool) (p : Storage) : ℤ × Storage :=
  if p.data ≠ .null ∧ p.avail ≥ len then (0, p.reset)
  else
    let p := p.doFree
    if len ≤ 32 then (0, { p with data := .inline, avail := len, free := false })
    else if malloc then (0, { p with data := .outside len, avail := len, free := true })
    else (noMemory, { p with length := noMemory, avail := noMemory, free := false })

def alloc (len : ℤ) (malloc : Bool) (p : Storage) : Bool × Storage :=
  let (result, p) := p.reserve len malloc
  (p.data ≠ .null, { p with length := if result = 0 then len else result })

/-- The references that the parcel takes before it frees someone's block. -/
def ownBinders (p : Storage) : Storage :=
  if p.free && !p.ownsBinders && !p.binders.isEmpty then { p.binderRanges with ownsBinders := true }
  else p

/-- `SParcel::ReAlloc`, and whether its result is not `NULL`. -/
def reAlloc (len : ℤ) (malloc : Bool) (p : Storage) : Bool × Storage :=
  if p.length < 0 then (false, p)
  else if len > p.avail then
    if len ≤ 32 then
      (p.data ≠ .null,
        { p with avail := len, pos := if len < p.pos then len else p.pos, length := len })
    else if malloc then
      let q := (p.touch 0 p.length).ownBinders
      let q := { q with free := true, data := .outside len, avail := len }
      let q := q.touch 0 p.length
      (true, { q with pos := if len < q.pos then len else q.pos, length := len })
    else (false, p)
  else if len < p.avail then
    (p.data ≠ .null, { p with length := len, pos := if len < p.pos then len else p.pos })
  else (p.data ≠ .null, p)

/-- What the writing operations ask `ReAlloc` for. -/
def grown (p : Storage) (need : ℤ) : ℤ :=
  if need > (ssize (p.avail * 3)).tdiv 2 then need else (ssize (p.avail * 3)).tdiv 2

def setPosition (pos : ℤ) (p : Storage) : Option Storage :=
  if pos < p.base ∨ pos > p.base + p.length then none else some { p with pos := ssize (pos - p.base) }

def setLength (len : ℤ) (malloc : Bool) (p : Storage) : ℤ × Storage :=
  let len := if len < 0 then 0 else len
  let (found, q) := if len > p.avail then p.reAlloc len malloc else (true, p)
  if found then (0, { q with length := len, pos := if q.pos > len then len else q.pos })
  else (noMemory, q)

def finishWrite (amt : ℤ) (p : Storage) : ℤ × Storage :=
  let pos := ssize (p.pos + amt)
  (amt, { p with pos := pos, length := if pos > p.length then pos else p.length })

@[simp] theorem finishWrite_pos (p : Storage) (amt : ℤ) :
    (p.finishWrite amt).2.pos = ssize (p.pos + amt) := rfl
@[simp] theorem finishWrite_avail (p : Storage) (amt : ℤ) :
    (p.finishWrite amt).2.avail = p.avail := rfl
@[simp] theorem finishWrite_data (p : Storage) (amt : ℤ) :
    (p.finishWrite amt).2.data = p.data := rfl

theorem le_finishWrite_length (p : Storage) (amt : ℤ) :
    p.length ≤ (p.finishWrite amt).2.length := by
  unfold finishWrite
  dsimp only
  split <;> omega

/-- The second half of `SParcel::Write`, after the bytes that went over old ones. -/
def writeRest (total amount : ℤ) (malloc : Bool) (p : Storage) : ℤ × Storage :=
  let need := ssize (amount + p.pos)
  let (found, q) := if need > p.avail then p.reAlloc (p.grown need) malloc else (true, p)
  let amount := if found then amount else size (q.avail - q.pos)
  if !found && amount = 0 then (noMemory, q)
  else
    let q := { q with length := p.length }
    -- the position and the length move as in `finish_write`
    let q := ((q.touch q.pos amount).finishWrite amount).2
    let total := size (total + amount)
    (if total > 0 then ssize total else if q.length < 0 then q.length else 0, q)

def write (amount : ℤ) (malloc : Bool) (p : Storage) : ℤ × Storage :=
  if ssize (p.pos + amount) ≤ p.avail then (p.touch p.pos amount).finishWrite (ssize amount)
  else if p.pos < p.length then
    let total := p.length - p.pos
    writeRest total (size (amount - total)) malloc { p.touch p.pos total with pos := p.length }
  else if p.length < 0 then (p.length, p)
  else writeRest 0 amount malloc p

/-- `SParcel::WriteInPlace`. The bytes that it hands out are written. -/
def writeInPlace (amount : ℤ) (malloc : Bool) (p : Storage) : Bool × Storage :=
  let (found, q) :=
    if ssize (p.pos + amount) > p.avail then p.reAlloc (p.grown (ssize (p.pos + amount))) malloc
    else (true, p)
  if found then
    let q := if ssize (p.pos + amount) > p.avail then { q with length := p.length } else q
    (true, ((q.touch q.pos amount).finishWrite (ssize amount)).2)
  else (false, q)

def writePadded (amount : BitVec 32) (malloc malloc' : Bool) (p : Storage) : ℤ × Storage :=
  let padded : ℤ := valueDataAlign amount.toNat
  if ssize (p.pos + padded) ≤ p.avail then
    let p := p.touch p.pos amount.toNat
    let p := if padded ≠ amount.toNat then p.touch (p.pos + padded - 8) 8 else p
    p.finishWrite (ssize padded)
  else
    let (written, p) := p.write amount.toNat malloc
    if written = amount.toInt then
      if padded ≠ amount.toNat then
        let (written, p) := p.write (size (padded - amount.toNat)) malloc'
        (if written = ssize (padded - amount.toNat) then ssize padded
          else if written < 0 then written else -1, p)
      else (written, p)
    else (if written < 0 then written else -1, p)

/-- `SParcel::WriteBinder`. `added` says whether `m_binders` has room for one more. -/
def writeBinder (binder : BitVec 32) (malloc added : Bool) (p : Storage) : ℤ × Storage :=
  let need := ssize (p.pos + 16)
  let (found, p) := if need > p.avail then p.reAlloc (p.grown need) malloc else (true, p)
  if found then
    let p := p.touch p.pos 16
    if binder = 0 then p.finishWrite 16
    else
      let p := if !p.ownsBinders && !p.binders.isEmpty then p.binderRanges else p
      let p := { p with ownsBinders := true }
      if added then { p with binders := p.binders ++ [p.pos] }.finishWrite 16 else (noMemory, p)
  else (noMemory, p)

/-- The second half of `SParcel::Read`, after the bytes that were there. There is nothing to
refill the block from. -/
def readRest (total amount : ℤ) (p : Storage) : ℤ × Storage :=
  if ssize amount ≥ p.avail then (total, p)
  else
    let amount := if 0 < ssize amount then 0 else amount
    let p := { p with length := 0, base := p.base + p.pos }
    (ssize (total + amount), { p.touch 0 amount with pos := ssize amount })

def read (amount : ℤ) (p : Storage) : ℤ × Storage :=
  if ssize (p.pos + amount) ≤ p.length then
    (ssize amount, { p.touch p.pos amount with pos := ssize (p.pos + amount) })
  else if p.pos < p.length then
    let total := p.length - p.pos
    readRest total (size (amount - total)) { p.touch p.pos total with pos := p.length }
  else if p.length < 0 then (p.length, p)
  else readRest 0 amount p

/-- `SParcel::ReadInPlace`. The bytes that it hands out are read. -/
def readInPlace (amount : ℤ) (p : Storage) : Bool × Storage :=
  if ssize (p.pos + amount) ≤ p.length then
    (true, { p.touch p.pos amount with pos := ssize (p.pos + amount) })
  else (false, p)

/-- `SParcel::Drain`. Its loop ends at once, with an empty block. -/
def drain (amount : ℤ) (p : Storage) : ℤ × Storage :=
  if ssize (p.pos + amount) ≤ p.length then (ssize amount, { p with pos := ssize (p.pos + amount) })
  else if p.length < 0 then (p.length, p)
  else
    let sofar := p.length - p.pos
    if sofar < ssize amount then (sofar, { p with base := p.base + p.length, length := 0, pos := 0 })
    else (ssize amount, { p with pos := ssize (sofar - amount) })

/-! ### Making parcels -/

/-- The parcels that the constructors make: `SParcel(bufferSize)`, and `SParcel(data, len, free)`
of bytes that are someone's. -/
inductive Start where
  | buffer (bufferSize : BitVec 32) (malloc : Bool)
  | reference (len : BitVec 31) (free : Bool)

/-- Nothing, as `do_free` leaves it. -/
def empty : Storage := ⟨.null, false, 0, 0, 0, 0, [], false, []⟩

/-- The constructors. -/
def Start.storage : Start → Storage
  | buffer bufferSize malloc =>
    let bufferSize := if bufferSize.toInt < 0 then 32 else bufferSize.toInt
    if bufferSize > 0 then (empty.reserve bufferSize malloc).2 else empty
  | reference len free => ⟨.outside len.toNat, free, len.toNat, len.toNat, 0, 0, [], false, []⟩

end Storage

/-! ### Calls -/

/-- A call of one parcel. -/
inductive StorageCall where
  | write (amount : BitVec 32) (malloc : Bool)
  | writePadded (amount : BitVec 32) (malloc malloc' : Bool)
  | writeInPlace (amount : BitVec 32) (malloc : Bool)
  | writeBinder (binder : BitVec 32) (malloc added : Bool)
  | setLength (len : BitVec 32) (malloc : Bool)
  | reAlloc (len : BitVec 32) (malloc : Bool)
  | reserve (len : BitVec 32) (malloc : Bool)
  | alloc (len : BitVec 32) (malloc : Bool)
  | setPosition (pos : ℤ)
  | read (amount : BitVec 32)
  | readInPlace (amount : BitVec 32)
  | drain (amount : BitVec 32)

/-- A call of a parcel, or `Transfer` to the first of two. -/
inductive ParcelsCall (ι : Type) where
  | on (i : ι) (c : StorageCall)
  | transfer (i j : ι) (malloc : Bool)

namespace Storage

/-- The parcel after a call. -/
def call (p : Storage) : StorageCall → Option Storage
  | .write amount malloc => some (p.write amount.toNat malloc).2
  | .writePadded amount malloc malloc' => some (p.writePadded amount malloc malloc').2
  | .writeInPlace amount malloc => some (p.writeInPlace amount.toNat malloc).2
  | .writeBinder binder malloc added => some (p.writeBinder binder malloc added).2
  | .setLength len malloc => some (p.setLength len.toInt malloc).2
  | .reAlloc len malloc => some (p.reAlloc len.toInt malloc).2
  | .reserve len malloc => some (p.reserve len.toInt malloc).2
  | .alloc len malloc => some (p.alloc len.toInt malloc).2
  | .setPosition pos => p.setPosition pos
  | .read amount => some (p.read amount.toNat).2
  | .readInPlace amount => some (p.readInPlace amount.toNat).2
  | .drain amount => some (p.drain amount.toNat).2

section System

variable {ι : Type} [DecidableEq ι]

/-- `SParcel::Transfer`, of the parcel `j` to `i`. -/
def transfer (i j : ι) (malloc : Bool) (s : ι → Storage) : ι → Storage :=
  let s :=
    if (s j).data ≠ .inline then
      if (s j).free ∨ (s j).data = .null then
        let s := update s i (s i).doFree
        update s i { s i with
          data := (s j).data
          length := (s j).length
          avail := (s j).avail
          free := (s j).free }
      else
        -- `Copy(src->m_data, src->m_length)`
        let (len, block) := ((s j).length, (s j).data.size)
        let (found, p) := (s i).alloc len malloc
        let s := update s i p
        if found ∧ len > 0 then
          update s i
            { s i with ranges := (s i).ranges ++ [⟨block, 0, len⟩, ⟨(s i).data.size, 0, len⟩] }
        else s
    else
      let s := update s i (s i).doFree
      let p := { s i with data := .inline, length := (s j).length, avail := (s j).avail, free := false }
      update s i
        (if (s j).length > 0 then
          { p with ranges := p.ranges ++ [⟨32, 0, (s j).length⟩, ⟨32, 0, (s j).length⟩] }
        else p)
  let s := update s i { s i with
    base := (s j).base
    pos := (s j).pos
    ownsBinders := (s j).ownsBinders
    binders := (s j).binders }
  update s j { s j with
    data := .null
    length := 0
    avail := 0
    free := false
    base := 0
    pos := 0
    ownsBinders := false
    binders := [] }

/-- One call, with only its own ranges noted. -/
def step (s : ι → Storage) (c : ParcelsCall ι) : Option (ι → Storage) :=
  let s := fun i => { s i with ranges := [] }
  match c with
  | .on i c => (s i).call c |>.map (update s i)
  | .transfer i j malloc => some (transfer i j malloc s)

end System

end Storage

end OpenBinder
