import OpenBinder.Lib.Run
import OpenBinder.Lib.Word

/-!
# The shared heap

`HeapArea`: an area of memory that blocks are allocated from, with the chunks that are free, in
order, a hash table of the blocks that are allocated, and the pages that are mapped, as bits.
Offsets and sizes are numbers of 32 bits. What waits for a lock that it has itself, or goes outside
of its memory, is `none`.

* `Chunker.alloc`, `Chunker.free`: the first chunk that is large enough is split, and what is freed
  is joined with the chunks that it abuts.
* `alloc`, `realloc`, `free`, `reset`: what the heap is called for.
* `live`: the blocks that are allocated.
-/

namespace OpenBinder

open Lib

/-- A range of the area, free or allocated. -/
structure Chunk where
  start : ℕ
  size : ℕ
deriving DecidableEq

/-- A number of 32 bits. -/
def word (n : ℕ) : ℕ := n % 2 ^ 32

/-- A difference of numbers of 32 bits. -/
def wordSub (m n : ℕ) : ℕ := word (m + 2 ^ 32 - n)

def nonzeroNull : ℕ := 0xFFFFFFFF

/-- The mask of what is a multiple of a power of two. -/
def maskOf (n : ℕ) : ℕ := 0xFFFFFFFF ^^^ (n - 1)

/-! ### The free list -/

namespace Chunker

/-- What `m_quantum` is one less than. -/
def quantum : ℕ := 32

/-- A size, rounded up to whole quanta. -/
def quantized (size : ℕ) : ℕ := word (size + (quantum - 1)) &&& maskOf quantum

/-- `Alloc` of a size, for the best that there is not: the free list, and the start and the size of
the block. -/
def alloc (size : ℕ) : List Chunk → List Chunk × ℕ × ℕ
  | [] => ([], nonzeroNull, 0)
  | it :: rest =>
    if it.size < size then
      let r := alloc size rest
      (it :: r.1, r.2)
    else if it.size ≤ word (size + (quantum - 1)) then (rest, it.start, it.size)
    else
      (⟨word (it.start + quantized size), wordSub it.size (quantized size)⟩ :: rest, it.start,
        quantized size)

/-- `Free` in front of `p2`, where nothing abuts on the left. The second is the region. -/
def freeRight (start size : ℕ) : List Chunk → List Chunk × Chunk
  | [] => ([⟨start, size⟩], ⟨start, size⟩)
  | n :: rest =>
    if word (start + size) ≠ n.start then (⟨start, size⟩ :: n :: rest, ⟨start, size⟩)
    else
      let n := ⟨wordSub n.start size, word (n.size + size)⟩
      (n :: rest, n)

/-- `Free` behind `p1`, and in front of `p2`. -/
def freeBetween (start size : ℕ) (n : Chunk) (rest : List Chunk) : List Chunk × Chunk :=
  if word (n.start + n.size) = start then
    let n := ⟨n.start, word (n.size + size)⟩
    match rest with
    | [] => ([n], n)
    | m :: rest' =>
      if m.start = word (n.start + n.size) then
        let n := ⟨n.start, word (n.size + m.size)⟩
        (n :: rest', n)
      else (n :: rest, n)
  else
    let r := freeRight start size rest
    (n :: r.1, r.2)

/-- The walk of `Free`, to the last chunk that does not start behind. -/
def freeWalk (start size : ℕ) (p1 : Chunk) : List Chunk → List Chunk × Chunk
  | [] => freeBetween start size p1 []
  | p2 :: rest =>
    if start < p2.start then freeBetween start size p1 (p2 :: rest)
    else
      let r := freeWalk start size p2 rest
      (p1 :: r.1, r.2)

/-- `Free`: the free list, and the region that is now free. -/
def free (start size : ℕ) : List Chunk → List Chunk × Chunk
  | [] => freeRight start size []
  | p1 :: rest =>
    if start < p1.start then freeRight start size (p1 :: rest) else freeWalk start size p1 rest

def preAbuttance (addr : ℕ) : List Chunk → ℕ
  | [] => 0
  | p :: rest => if word (p.start + p.size) = addr then p.size else preAbuttance addr rest

end Chunker

/-! ### The blocks -/

namespace Hasher

def hash (address : ℕ) : ℕ :=
  let h := BitVec.ofNat 32 address
  let h := h ^^^ (h >>> 8)
  let h := h ^^^ (h >>> 16)
  let h := h ^^^ (h >>> 24)
  let r := (h &&& 7).toNat
  let h := ((h &&& 0xFF) >>> r) ||| ((h &&& 0xFF) <<< (8 - r))
  (h &&& 63).toNat

/-- The entries in 64 buckets, the newest first. -/
abbrev Table := ℕ → List Chunk

/-- All entries. -/
def Table.entries (t : Table) : List Chunk := (List.range 64).flatMap t

def insert (t : Table) (address size : ℕ) : Table :=
  Function.update t (hash address) (⟨address, size⟩ :: t (hash address))

/-- The entry of an address. -/
def has (address : ℕ) (n : Chunk) : Bool := n.start = address

def retrieve (t : Table) (address : ℕ) : Option ℕ :=
  ((t (hash address)).find? (has address)).map Chunk.size

/-- The size that `Retrieve` gave a pointer to is assigned. -/
def assign (t : Table) (address size : ℕ) : Table :=
  Function.update t (hash address)
    ((t (hash address)).replaceF fun n => if has address n then some ⟨n.start, size⟩ else none)

/-- `Remove`: the table, and the size, or zero. -/
def remove (t : Table) (address : ℕ) : Table × ℕ :=
  (Function.update t (hash address) ((t (hash address)).eraseP (has address)),
    (retrieve t address).getD 0)

end Hasher

/-! ### The pages -/

namespace PageBits

/-- The bits up to the first that is set, for a number of turns. -/
def skipZeros : ℕ → BitVec 32 → ℕ → BitVec 32 × ℕ
  | 0, newBits, start => (newBits, start)
  | n + 1, newBits, start =>
    if newBits &&& 1 = 0 then skipZeros n (newBits >>> 1) (start + 1) else (newBits, start)

/-- The bits up to the first that is not set. -/
def skipOnes : ℕ → BitVec 32 → ℕ → BitVec 32 × ℕ
  | 0, newBits, length => (newBits, length)
  | n + 1, newBits, length =>
    if newBits &&& 1 ≠ 0 then skipOnes n (newBits >>> 1) (length + 1) else (newBits, length)

/-- The bits of a run. -/
def maskOfRun (start length : ℕ) : BitVec 32 :=
  if length = 32 then ~~~0 else (((1 : BitVec 32) <<< length) - 1) <<< start

/-- Every run of bits is mapped, or unmapped. `Map` and `Unmap` do nothing and return `errNone`. -/
def runs (change : BitVec 32 → BitVec 32 → BitVec 32) :
    ℕ → BitVec 32 → ℕ → BitVec 32 → BitVec 32
  | 0, _, _, mapped => mapped
  | n + 1, newBits, start, mapped =>
    if newBits ≠ 0 then
      let z := skipZeros 32 newBits start
      let o := skipOnes 32 z.1 0
      runs change n o.1 (z.2 + o.2) (change mapped (maskOfRun z.2 o.2))
    else mapped

/-- The bits of the pages in one word of `m_mapped`. -/
def pageMask (first last : ℕ) : BitVec 32 :=
  let topMask := ~~~(((1 : BitVec 32) <<< (first % 32)) - 1)
  let bottomMask : BitVec 32 :=
    if first / 32 = last / 32 then ~~~(0 : BitVec 32) >>> (31 - last % 32) else ~~~0
  topMask &&& bottomMask

/-- The loop over the words, for a number of turns. What is not in `m_mapped` is `none`. -/
def loop (select change : BitVec 32 → BitVec 32 → BitVec 32) :
    ℕ → ℕ → ℕ → List (BitVec 32) → Option (List (BitVec 32))
  | 0, _, _, _ => none
  | n + 1, first, last, mapped =>
    if first ≤ last then
      match mapped[first / 32]? with
      | none => none
      | some w =>
        loop select change n (word (first + 32) &&& maskOf 32) last
          (mapped.set (first / 32) (runs change 32 (select (pageMask first last) w) 0 w))
    else some mapped

end PageBits

/-! ### The heap -/

/-- The size of a page: a power of two, of no less than a quantum. -/
structure PageSize where
  bits : ℕ
  le_bits : 5 ≤ bits
  bits_lt : bits < 32

/-- How many bytes a page has. -/
def PageSize.bytes (pageSize : PageSize) : ℕ := 2 ^ pageSize.bits

/-- Pages of 4096 bytes. -/
def PageSize.small : PageSize := ⟨12, by decide, by decide⟩

/-- A heap. `m_mapped` is empty where all of it is mapped. -/
structure HeapArea where
  pageSize : PageSize
  pages : ℕ
  freeList : List Chunk
  allocs : Hasher.Table
  mapped : List (BitVec 32)
  memory : ℕ → Byte
  locked : Bool

namespace HeapArea

def size (h : HeapArea) : ℕ := word (h.pages * h.pageSize.bytes)

/-- `Chunker::Reset`. -/
def wholeFree (size : ℕ) : List Chunk := if 0 < size then (Chunker.free 0 size []).1 else []

/-- A new heap. -/
def init (pageSize : PageSize) (size : ℕ) (mapped : Bool) (memory : ℕ → Byte) : HeapArea :=
  let size := if size = 0 then 8 * 1024 * 1024 else size
  let pages := word (size + pageSize.bytes - 1) / pageSize.bytes
  let size := word (pages * pageSize.bytes)
  { pageSize := pageSize
    pages := pages
    freeList := wholeFree size
    allocs := fun _ => []
    mapped := if mapped then [] else List.replicate ((size / pageSize.bytes + 31) / 32) 0
    memory := memory
    locked := false }

/-- A page that an address is in. -/
def pageOf (h : HeapArea) (ptr : ℕ) : ℕ := (ptr &&& maskOf h.pageSize.bytes) / h.pageSize.bytes

def mapRequired (h : HeapArea) (ptr size : ℕ) : Option HeapArea :=
  if h.mapped.length ≠ 0 then
    let first := h.pageOf ptr
    let last := h.pageOf (wordSub (ptr + size) 1)
    (PageBits.loop (fun pages w => pages &&& ~~~w) (fun w mask => w ||| mask) (last / 32 + 2) first
      last h.mapped).map fun mapped => { h with mapped := mapped }
  else some h

def unmapRequired (h : HeapArea) (ptr size : ℕ) : Option HeapArea :=
  if h.mapped.length ≠ 0 ∧ size ≠ 0 then
    let first := h.pageOf ptr
    let last := h.pageOf (wordSub (ptr + size) 1)
    (PageBits.loop (fun pages w => pages &&& w) (fun w mask => w &&& ~~~mask) (last / 32 + 2) first
      last h.mapped).map fun mapped => { h with mapped := mapped }
  else some h

/-- `m_heapLock.Lock()`, which waits for itself. -/
def lock (h : HeapArea) : Option HeapArea :=
  if h.locked then none else some { h with locked := true }

/-- `m_heapLock.Unlock()`. -/
def unlock (h : HeapArea) : HeapArea := { h with locked := false }

/-- `ResizeTo`: `B_UNSUPPORTED`. -/
def resizeTo (_newSize : ℕ) : ℕ := (BitVec.ofInt 32 (-95)).toNat

/-- A block is entered, and its pages are mapped. -/
def enter (h : HeapArea) (p s : ℕ) : Option (HeapArea × ℕ) :=
  (mapRequired { h with allocs := Hasher.insert h.allocs p s } p s).map fun h => (h.unlock, p)

def alloc (h : HeapArea) (size : ℕ) : Option (HeapArea × ℕ) :=
  h.lock.bind fun h =>
    let r := Chunker.alloc size h.freeList
    let h := { h with freeList := r.1 }
    if r.2.2 < size then
      let abutt := Chunker.preAbuttance h.size h.freeList
      let s := wordSub size abutt
      let p := h.size
      let s := if s % h.pageSize.bytes ≠ 0 then
          word (word (s / h.pageSize.bytes + 1) * h.pageSize.bytes)
        else s
      if resizeTo (word (s + p)) ≠ word (s + p) then some (h.unlock, nonzeroNull)
      else
        let r := Chunker.alloc size (Chunker.free p s h.freeList).1
        let h := { h with freeList := r.1 }
        if r.2.2 < size then some (h.unlock, nonzeroNull) else h.enter r.2.1 r.2.2
    else h.enter r.2.1 r.2.2

/-- The ends of the pages of a block that are free when it was freed. -/
def freedPages (h : HeapArea) (ptr size : ℕ) (region : Chunk) : ℕ × ℕ :=
  let pageSize := h.pageSize.bytes
  let right := word (ptr + size + (pageSize - 1)) &&& maskOf pageSize
  let left := ptr &&& maskOf pageSize
  let left := if left < ptr then word (left + pageSize) else left
  let right := if word (region.start + region.size) < right then wordSub right pageSize else right
  (left, right)

/-- They are unmapped. -/
def unmapFreed (h : HeapArea) (ptr size : ℕ) (region : Chunk) : Option HeapArea :=
  let pages := h.freedPages ptr size region
  if pages.1 < pages.2 then h.unmapRequired pages.1 (wordSub pages.2 pages.1) else some h

def free (h : HeapArea) (ptr : ℕ) : Option HeapArea :=
  if ptr = nonzeroNull then some h
  else
    h.lock.bind fun h =>
      let r := Hasher.remove h.allocs ptr
      let h := { h with allocs := r.1 }
      if r.2 ≠ 0 then
        let f := Chunker.free ptr r.2 h.freeList
        (unmapFreed { h with freeList := f.1 } ptr r.2 f.2).map unlock
      else some h.unlock

/-- `memmove` within the area. -/
def memmove (h : HeapArea) (dest src n : ℕ) : Option HeapArea :=
  if dest + n ≤ h.size ∧ src + n ≤ h.size then
    some { h with memory := fun i =>
      if dest ≤ i ∧ i < dest + n then h.memory (i - dest + src) else h.memory i }
  else none

/-- `Realloc`. A pointer that was not allocated has no size. -/
def realloc (h : HeapArea) (ptr newSize : ℕ) : Option (HeapArea × ℕ) :=
  if ptr = nonzeroNull then h.alloc newSize
  else
    h.lock.bind fun h =>
      (Hasher.retrieve h.allocs ptr).bind fun size =>
        if size ≠ 0 then
          let quantizedSize := Chunker.quantized newSize
          if quantizedSize = size then some (h.unlock, ptr)
          else if quantizedSize < size then
            some (unlock { h with
              freeList := (Chunker.free (word (ptr + quantizedSize)) (size - quantizedSize)
                h.freeList).1
              allocs := Hasher.assign h.allocs ptr quantizedSize }, nonzeroNull)
          else
            let r := Hasher.remove h.allocs ptr
            (alloc { h with allocs := r.1, freeList := (Chunker.free ptr size h.freeList).1 }
              newSize).bind fun w =>
                (w.1.memmove w.2 ptr r.2).map fun h => (h.unlock, w.2)
        else some (h.unlock, nonzeroNull)

def reset (h : HeapArea) : Option HeapArea :=
  h.lock.bind fun h =>
    (unmapRequired { h with freeList := wholeFree h.size, allocs := fun _ => [] } 0 h.size).map unlock

/-- The blocks that are allocated. -/
def live (h : HeapArea) : List Chunk := h.allocs.entries

/-- A call. -/
inductive Action where
  | alloc (size : BitVec 32)
  | realloc (ptr newSize : BitVec 32)
  | free (ptr : BitVec 32)
  | reset

/-- What a call leaves. -/
def step (h : HeapArea) : Action → Option HeapArea
  | .alloc size => (h.alloc size.toNat).map Prod.fst
  | .realloc ptr newSize => (h.realloc ptr.toNat newSize.toNat).map Prod.fst
  | .free ptr => h.free ptr.toNat
  | .reset => h.reset

end HeapArea

end OpenBinder
