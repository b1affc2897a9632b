import Mathlib.Data.Nat.Log
import OpenBinder.Lib.Memory
import OpenBinder.Value.TypeCode

/-!
# The data of a transaction

A transaction's data is copied into a buffer of the recipient, with its offsets behind it, and
the objects that the offsets point at are rewritten there: to nodes by
`binder_transaction_ConvertToNodes`, from nodes by `binder_transaction_ConvertFromNodes`. The
destructor goes over them once more. Addresses are relative to the start of the buffer and
wrap around.

What the processes and nodes are is left open here. `NodeOps` has the operations on them that
the three loops use, and every loop is `forEachObject` with what it does to one object.
-/

namespace OpenBinder

open Lib

def intAlign (x : BitVec 32) : BitVec 32 := (x + 3) &&& ~~~3

/-- `sizeof(struct flat_binder_object)`. -/
def flatSize : ℕ := 16

/-- What the type word of a `flat_binder_object` says it is. -/
inductive Flat where
  | handle (strong : Bool)
  | binder (strong : Bool)
  | node (strong : Bool)
  deriving DecidableEq

/-- `kPackedLargeBinderType` and the five others. -/
def Flat.type : Flat → BitVec 32
  | .binder true => packLargeType (typeCode 0x73622a#32)
  | .binder false => packLargeType (typeCode 0x77622a#32)
  | .handle true => packLargeType (typeCode 0x73682a#32)
  | .handle false => packLargeType (typeCode 0x77682a#32)
  | .node true => packLargeType (typeCode 0x736e2a#32)
  | .node false => packLargeType (typeCode 0x776e2a#32)

/-- The type of an object read from its type word. -/
def Flat.ofType (type : BitVec 32) : Option Flat :=
  [.handle true, .binder true, .node true, .handle false, .binder false, .node false].find?
    fun flat => flat.type == type

/-- A transaction made for a command of the user. -/
structure Transaction where
  dataSize : BitVec 32
  offsetsSize : BitVec 32
  dataPtr : BitVec 32
  offsetsPtr : BitVec 32
  /-- `tfRootObject` -/
  root : Bool

/-- `binder_transaction_Create`, and the user's flags. -/
def Transaction.create (dataSize data offsetsSize offsetsData : BitVec 32) (root : Bool) :
    Transaction :=
  if dataSize ≠ 0 ∧ data ≠ 0 then
    if offsetsSize ≠ 0 ∧ offsetsData ≠ 0 then ⟨dataSize, offsetsSize, data, offsetsData, root⟩
    else ⟨dataSize, 0, data, 0, root⟩
  else ⟨0, 0, 0, 0, root⟩

namespace Transaction

/-- `binder_transaction_Offsets`. -/
def offsets (t : Transaction) : BitVec 32 := intAlign t.dataSize

/-- How many offsets there are. -/
def count (t : Transaction) : ℕ := t.offsetsSize.toNat / 4

end Transaction

/-! ### Copying -/

/-- `get_order`, and zero for nothing: the size of pages as a power of two. -/
def calcOrderFromSize (size : ℕ) : ℕ := Nat.clog 2 ((size + 4095) / 4096)

/-- The order from which on the kernel has no pages to give. -/
def maxOrder : ℕ := 11

/-- `binder_proc_AllocateTransactionBuffer`: the bytes of the buffer. `available` says of
which orders there are pages and address space. -/
def allocateTransactionBuffer (available : ℕ → Bool) (size : BitVec 32) : Option ℕ :=
  let order := calcOrderFromSize size.toNat
  if order < maxOrder ∧ available order then some (2 ^ order * 4096) else none

/-- What the user has at his addresses, where he has something. -/
abbrev UserMemory := BitVec 32 → Option Byte

/-- Whether `copy_from_user` copies all of `n` bytes. -/
def Readable (user : UserMemory) (src : BitVec 32) (n : ℕ) : Prop :=
  src.toNat + n ≤ 2 ^ 32 ∧ ∀ i < n, (user (src + BitVec.ofNat 32 i)).isSome

instance (user : UserMemory) (src : BitVec 32) (n : ℕ) : Decidable (Readable user src n) :=
  inferInstanceAs (Decidable (_ ∧ _))

/-- `copy_from_user`, where it copies all. -/
def copyFromUser (user : UserMemory) (m : Memory) (dst src : BitVec 32) (n : ℕ) : Memory :=
  m.fill dst n fun i => (user (src + BitVec.ofNat 32 i)).getD 0

/-- What `binder_transaction_CopyTransactionData` finds: the module's limit, the free pages, the
user's memory, and what is in the buffer. -/
structure CopyCall where
  failSize : BitVec 32
  available : ℕ → Bool
  user : UserMemory
  memory : Memory

namespace Transaction

/-- `tSize`. -/
def size (t : Transaction) : BitVec 32 := intAlign t.dataSize + intAlign t.offsetsSize

/-- The ranges that are copied to. -/
def copies (t : Transaction) : List (BitVec 32 × ℕ) :=
  (0, t.dataSize.toNat) ::
    (if t.offsetsSize ≠ 0 then [(t.offsets, t.offsetsSize.toNat)] else [])

/-- `binder_transaction_CopyTransactionData`, where it succeeds: the bytes of the buffer and
what is in it. -/
def copyTransactionData (c : CopyCall) (t : Transaction) : Option (ℕ × Memory) :=
  if c.failSize ≤ t.size then none
  else
    match allocateTransactionBuffer c.available t.size with
    | none => none
    | some buffer =>
      if Readable c.user t.dataPtr t.dataSize.toNat then
        let m := copyFromUser c.user c.memory 0 t.dataPtr t.dataSize.toNat
        if t.offsetsSize ≠ 0 then
          if Readable c.user t.offsetsPtr t.offsetsSize.toNat then
            some (buffer, copyFromUser c.user m t.offsets t.offsetsPtr t.offsetsSize.toNat)
          else none
        else some (buffer, m)
      else none

end Transaction

/-! ### The objects -/

/-- What the loops do to the processes `P` and the nodes, which are in a state `σ`. -/
structure NodeOps (P σ : Type) where
  /-- `binder_proc_Descriptor2Node` -/
  descriptor2Node (p : P) (handle : BitVec 32) (strong : Bool) : σ → BitVec 32 × σ
  /-- `binder_proc_Ptr2Node`, with the caller's `iobuffer_t` or without one -/
  ptr2Node (p : P) (binder cookie : BitVec 32) (io strong : Bool) : σ → Option (BitVec 32) × σ
  /-- `binder_proc_SetRootObject` -/
  setRootObject (p : P) (node : BitVec 32) : σ → σ
  /-- whether `m_home` of the node is the process -/
  isHome (p : P) (node : BitVec 32) : σ → Bool
  /-- `binder_node_Ptr` -/
  nodePtr (node : BitVec 32) : σ → BitVec 32
  /-- `binder_node_Cookie` -/
  nodeCookie (node : BitVec 32) : σ → BitVec 32
  /-- `binder_proc_Node2Descriptor`, with a reference -/
  node2Descriptor (p : P) (node : BitVec 32) (strong : Bool) : σ → BitVec 32 × σ
  /-- `BND_RELEASE` of a node -/
  release (node : BitVec 32) (strong : Bool) : σ → σ
  /-- `binder_proc_UnrefDescriptor` -/
  unrefDescriptor (p : P) (handle : BitVec 32) (strong : Bool) : σ → σ
  /-- `BND_ATTEMPT_ACQUIRE` of a process -/
  attemptAcquire (p : P) : σ → Bool × σ
  /-- `BND_RELEASE` of a process -/
  releaseProc (p : P) : σ → σ

/-- A transaction in the driver, with the offsets of the objects that were looked at, latest
first. -/
structure Kernel (P σ : Type) where
  memory : Memory
  driver : σ
  /-- `team` -/
  team : Option P
  visited : List (BitVec 32)

variable {P σ : Type}

/-- A field of an object is written. -/
def Kernel.set (k : Kernel P σ) (a w : BitVec 32) : Kernel P σ :=
  { k with memory := k.memory.store a w }

/-- `n` offsets from an address on: each object is looked at, until one is refused. -/
@[grind =] def forEachObject (body : BitVec 32 → Kernel P σ → Bool × Kernel P σ) :
    ℕ → BitVec 32 → Kernel P σ → Bool × Kernel P σ
  | 0, _, k => (true, k)
  | n + 1, off, k =>
    let flat := k.memory.word off
    match body flat { k with visited := flat :: k.visited } with
    | (true, k) => forEachObject body n (off + 4) k
    | (false, k) => (false, k)

/-- `binder_transaction_ConvertToNodes`, for one object. -/
def toNode (ops : NodeOps P σ) (root : Bool) (p : P) (flat : BitVec 32) (k : Kernel P σ) :
    Bool × Kernel P σ :=
  match Flat.ofType (k.memory.word flat) with
  | some (.handle strong) =>
    let (n, driver) := ops.descriptor2Node p (k.memory.word (flat + 8)) strong k.driver
    (true, ({ k with driver := driver }.set (flat + 8) n).set flat (Flat.node strong).type)
  | some (.binder strong) =>
    match ops.ptr2Node p (k.memory.word (flat + 8)) (k.memory.word (flat + 12)) true strong k.driver with
    | (none, driver) => (false, { k with driver := driver })
    | (some n, driver) =>
      let driver := if root && strong then ops.setRootObject p n driver else driver
      (true, ({ k with driver := driver }.set (flat + 8) n).set flat (Flat.node strong).type)
  | _ => (false, k)

/-- `binder_transaction_ConvertFromNodes`, for one object. -/
def fromNode (ops : NodeOps P σ) (p : P) (flat : BitVec 32) (k : Kernel P σ) :
    Bool × Kernel P σ :=
  match Flat.ofType (k.memory.word flat) with
  | some (.node strong) =>
    let n := k.memory.word (flat + 8)
    if n = 0 then
      (true, ((k.set flat (Flat.binder strong).type).set (flat + 8) 0).set (flat + 12) 0)
    else if ops.isHome p n k.driver then
      (true, ((k.set flat (Flat.binder strong).type).set (flat + 8) (ops.nodePtr n k.driver)).set
        (flat + 12) (ops.nodeCookie n k.driver))
    else
      let (desc, driver) := ops.node2Descriptor p n strong k.driver
      (true, { (((k.set flat (Flat.handle strong).type).set (flat + 8) desc).set (flat + 12) 0) with
        driver := ops.release n strong driver })
  | _ => (false, k)

/-- `binder_transaction_dtor`, for one object; `owner` is the team if it still has strong
references. -/
def dropObject (ops : NodeOps P σ) (owner : Option P) (flat : BitVec 32) (k : Kernel P σ) :
    Bool × Kernel P σ :=
  let word := k.memory.word (flat + 8)
  match Flat.ofType (k.memory.word flat) with
  | some (.handle strong) =>
    match owner with
    | some p => (true, { k with driver := ops.unrefDescriptor p word strong k.driver })
    | none => (true, k)
  | some (.binder strong) =>
    match owner with
    | some p =>
      match ops.ptr2Node p word (k.memory.word (flat + 12)) false strong k.driver with
      | (none, driver) => (true, { k with driver := driver })
      | (some n, driver) =>
        if n = 0 then (true, { k with driver := driver })
        else (true, { k with driver := ops.release n strong (ops.release n strong driver) })
    | none => (true, k)
  | some (.node strong) =>
    if word = 0 then (true, k) else (true, { k with driver := ops.release word strong k.driver })
  | none => (true, k)

namespace Transaction

/-- `binder_transaction_ConvertToNodes`. -/
def convertToNodes (ops : NodeOps P σ) (p : P) (t : Transaction) (k : Kernel P σ) :
    Bool × Kernel P σ :=
  forEachObject (toNode ops t.root p) t.count t.offsets { k with team := some p }

/-- `binder_transaction_ConvertFromNodes`. -/
def convertFromNodes (ops : NodeOps P σ) (p : P) (t : Transaction) (k : Kernel P σ) :
    Bool × Kernel P σ :=
  forEachObject (fromNode ops p) t.count t.offsets { k with team := some p }

/-- The objects in `binder_transaction_dtor`. -/
def dtor (ops : NodeOps P σ) (t : Transaction) (k : Kernel P σ) : Kernel P σ :=
  if t.offsetsSize = 0 then k
  else
    match k.team with
    | none => (forEachObject (dropObject ops none) t.count t.offsets k).2
    | some p =>
      match ops.attemptAcquire p k.driver with
      | (false, driver) =>
        (forEachObject (dropObject ops none) t.count t.offsets { k with driver := driver }).2
      | (true, driver) =>
        let k := (forEachObject (dropObject ops (some p)) t.count t.offsets
          { k with driver := driver }).2
        { k with driver := ops.releaseProc p k.driver }

end Transaction

/-! ### What a loop keeps -/

/-- Words from an address on. -/
def wordsAt (m : Memory) (a : BitVec 32) (n : ℕ) : List (BitVec 32) :=
  (List.range n).map fun i => m.word (a + BitVec.ofNat 32 (4 * i))

theorem wordsAt_succ (m : Memory) (a : BitVec 32) (n : ℕ) :
    wordsAt m a (n + 1) = m.word a :: wordsAt m (a + 4) n := by
  unfold wordsAt
  rw [List.range_succ_eq_map, List.map_cons, List.map_map]
  congr 1
  · simp
  · apply List.map_congr_left
    intro i _
    simp only [Function.comp]
    congr 1
    rw [BitVec.add_assoc, show (4 : BitVec 32) = BitVec.ofNat 32 4 from rfl, ← BitVec.ofNat_add]
    congr 2
    omega

/-- **Only the object is written**: elsewhere the memory is as it was, and nothing more was
looked at. -/
structure Frame (flat : BitVec 32) (k k' : Kernel P σ) : Prop where
  memory : flat.toNat + flatSize ≤ 2 ^ 32 → ∀ a : BitVec 32, a.toNat + 4 ≤ 2 ^ 32 →
    (a.toNat + 4 ≤ flat.toNat ∨ flat.toNat + flatSize ≤ a.toNat) →
    k'.memory.word a = k.memory.word a
  visited : k'.visited = k.visited

theorem Frame.refl (flat : BitVec 32) (k : Kernel P σ) : Frame flat k k :=
  ⟨fun _ _ _ _ => rfl, rfl⟩

theorem Frame.trans {flat : BitVec 32} {k k' k'' : Kernel P σ} (h : Frame flat k k')
    (h' : Frame flat k' k'') : Frame flat k k'' :=
  ⟨fun hf a ha hd => (h'.memory hf a ha hd).trans (h.memory hf a ha hd),
    h'.visited.trans h.visited⟩

section

variable (flat : BitVec 32) (k : Kernel P σ)
include flat k

theorem Frame.driver (driver : σ) : Frame flat k { k with driver := driver } :=
  ⟨fun _ _ _ _ => rfl, rfl⟩

theorem Frame.set {i : ℕ} (hi : i + 4 ≤ flatSize) (w : BitVec 32) :
    Frame flat k (k.set (flat + BitVec.ofNat 32 i) w) := by
  refine ⟨fun hf a ha hd => ?_, rfl⟩
  unfold flatSize at hi hf hd
  have hoff : (flat + BitVec.ofNat 32 i).toNat = flat.toNat + i := by
    rw [BitVec.toNat_add, BitVec.toNat_ofNat]
    omega
  exact Memory.word_fill_of_disjoint _ _ ha (by omega) (by omega)

theorem Frame.setType (w : BitVec 32) : Frame flat k (k.set flat w) := by
  have h := Frame.set flat k (i := 0) (by decide) w
  rwa [BitVec.add_zero] at h

theorem Frame.setBinder (w : BitVec 32) : Frame flat k (k.set (flat + 8) w) :=
  Frame.set flat k (i := 8) (by decide) w

theorem Frame.setCookie (w : BitVec 32) : Frame flat k (k.set (flat + 12) w) :=
  Frame.set flat k (i := 12) (by decide) w

end

theorem frame_toNode (ops : NodeOps P σ) (root : Bool) (p : P) (flat : BitVec 32)
    (k : Kernel P σ) : Frame flat k (toNode ops root p flat k).2 := by
  unfold toNode
  split
  · exact ((Frame.driver _ _ _).trans (Frame.setBinder _ _ _)).trans (Frame.setType _ _ _)
  · split
    · exact Frame.driver _ _ _
    · exact ((Frame.driver _ _ _).trans (Frame.setBinder _ _ _)).trans (Frame.setType _ _ _)
  · exact Frame.refl _ _

theorem frame_fromNode (ops : NodeOps P σ) (p : P) (flat : BitVec 32) (k : Kernel P σ) :
    Frame flat k (fromNode ops p flat k).2 := by
  have hset : ∀ w w' w'' : BitVec 32,
      Frame flat k (((k.set flat w).set (flat + 8) w').set (flat + 12) w'') := fun w w' w'' =>
    ((Frame.setType _ _ _).trans (Frame.setBinder _ _ _)).trans (Frame.setCookie _ _ _)
  unfold fromNode
  split
  · dsimp only
    split
    · exact hset _ _ _
    · split
      · exact hset _ _ _
      · exact (hset _ _ _).trans (Frame.driver _ _ _)
  · exact Frame.refl _ _

theorem dropObject_spec (ops : NodeOps P σ) (owner : Option P) (flat : BitVec 32)
    (k : Kernel P σ) : (dropObject ops owner flat k).1 = true ∧
      (dropObject ops owner flat k).2.memory = k.memory ∧
      (dropObject ops owner flat k).2.visited = k.visited := by
  unfold dropObject
  dsimp only
  split
  · split <;> exact ⟨rfl, rfl, rfl⟩
  · split
    · split
      · exact ⟨rfl, rfl, rfl⟩
      · split <;> exact ⟨rfl, rfl, rfl⟩
    · exact ⟨rfl, rfl, rfl⟩
  · split <;> exact ⟨rfl, rfl, rfl⟩
  · exact ⟨rfl, rfl, rfl⟩

theorem frame_dropObject (ops : NodeOps P σ) (owner : Option P) (flat : BitVec 32)
    (k : Kernel P σ) : Frame flat k (dropObject ops owner flat k).2 := by
  obtain ⟨-, hm, hv⟩ := dropObject_spec ops owner flat k
  exact ⟨fun _ a _ _ => by rw [hm], hv⟩

end OpenBinder
