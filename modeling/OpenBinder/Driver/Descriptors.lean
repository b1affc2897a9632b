import OpenBinder.Lib.Chain
import OpenBinder.Lib.Word

/-!
# The descriptors of a process

A descriptor is a slot with a node and two counts, of the strong and the weak references that
user space has through it. The process holds one strong reference on the node for all of the
first kind, and one weak reference for all of the second. A hash table finds the slot of a node;
its chains are sorted by address.

Every operation gives the table after it and the references on nodes that it acquired and
released. Whether a strong reference on a node can still be acquired is for others to say.
-/

namespace OpenBinder

open Lib

/-- `descriptor_t`, of a slot that has a node. -/
structure Descriptor (N : Type) where
  node : N
  priRef : ℤ
  secRef : ℤ

/-- What is done to the references on nodes, in the name of the process or, for `lend`, of its
caller. -/
inductive RefOp (N : Type) where
  | acquire (n : N) (strong : Bool)
  | release (n : N) (strong : Bool)
  | lend (n : N)
  deriving DecidableEq

/-- `m_descriptors` and `m_reverseHash`. -/
structure Descriptors (N : Type) where
  slots : List (Option (Descriptor N))
  hash : ℕ → List (N × ℕ)

/-- A count of the given kind. -/
def Descriptor.count {N : Type} (d : Descriptor N) (strong : Bool) : ℤ :=
  if strong then d.priRef else d.secRef

/-- One added to a count, as an `s32`. -/
def Descriptor.add {N : Type} (d : Descriptor N) (strong : Bool) (k : ℤ) : Descriptor N :=
  if strong then { d with priRef := ssize (d.priRef + k) }
  else { d with secRef := ssize (d.secRef + k) }

namespace Descriptors

variable {N : Type} [LinearOrder N] (bucket : N → ℕ)

/-- A process without descriptors. -/
def init : Descriptors N := ⟨[], fun _ => []⟩

/-- The slot of an index, if it has a node. -/
def slot (t : Descriptors N) (i : ℕ) : Option (Descriptor N) := t.slots[i]?.join

/-- The slot of a handle, which is one more than the index. -/
def at? (t : Descriptors N) (handle : ℤ) : Option (ℕ × Descriptor N) :=
  if 1 ≤ handle then (t.slot (handle - 1).toNat).map fun d => ((handle - 1).toNat, d) else none

/-- A slot written. -/
def set (t : Descriptors N) (i : ℕ) (d : Descriptor N) : Descriptors N :=
  { t with slots := t.slots.set i (some d) }

/-- The slots with a free one, and its index; `m_descriptors` is doubled if there is none. -/
def room (t : Descriptors N) : ℕ × List (Option (Descriptor N)) :=
  match t.slots.findIdx? Option.isNone with
  | some i => (i, t.slots)
  | none =>
    let newCount := if t.slots.length * 2 = 0 then 32 else t.slots.length * 2
    (t.slots.length, t.slots ++ List.replicate (newCount - t.slots.length) none)

/-- The index of a node's slot in the hash table. -/
def find (t : Descriptors N) (n : N) : Option ℕ := chainFind n (t.hash (bucket n))

/-- A slot for a node that has none. -/
def insert (t : Descriptors N) (d : Descriptor N) : ℕ × Descriptors N :=
  let (i, slots) := t.room
  (i, ⟨slots.set i (some d),
    Function.update t.hash (bucket d.node) (chainInsert d.node i (t.hash (bucket d.node)))⟩)

/-- A slot given up. -/
def erase (t : Descriptors N) (i : ℕ) (n : N) : Descriptors N :=
  ⟨t.slots.set i none, Function.update t.hash (bucket n) (chainErase n (t.hash (bucket n)))⟩

/-- `binder_proc_Node2Descriptor`, in a live process. `attempt` says whether a strong reference
on the node can be acquired. -/
def node2Descriptor (n : N) (ref strong attempt : Bool) (t : Descriptors N) :
    ℤ × Descriptors N × List (RefOp N) :=
  match t.find bucket n with
  | some i =>
    match t.slot i with
    | none => (-1, t, [])
    | some d =>
      if !ref then (i + 1, t, [])
      else if !strong then (i + 1, t.set i (d.add false 1), [])
      else if d.priRef > 0 then (i + 1, t.set i (d.add true 1), [])
      else if attempt then (i + 1, t.set i (d.add true 1), [.acquire n true])
      else (-1, t, [])
  | none =>
    if ref && (!strong || attempt) then
      let (i, t) := t.insert bucket ⟨n, if strong then 1 else 0, if strong then 0 else 1⟩
      (i + 1, t, [.acquire n strong])
    else (-1, t, [])

/-- `binder_proc_RefDescriptor`. -/
def refDescriptor (handle : ℤ) (strong : Bool) (t : Descriptors N) :
    Bool × Descriptors N × List (RefOp N) :=
  match t.at? handle with
  | none => (false, t, [])
  | some (i, d) =>
    if d.count strong > 0 then (true, t.set i (d.add strong 1), [])
    else if !strong && d.priRef > 0 then (true, t.set i (d.add false 1), [.acquire d.node false])
    else (false, t, [])

/-- `binder_proc_UnrefDescriptor`. -/
def unrefDescriptor (handle : ℤ) (strong : Bool) (t : Descriptors N) :
    Bool × Descriptors N × List (RefOp N) :=
  match t.at? handle with
  | none => (false, t, [])
  | some (i, d) =>
    let d := d.add strong (-1)
    if d.count strong = 0 then
      if d.priRef ≤ 0 ∧ d.secRef ≤ 0 then (true, t.erase bucket i d.node, [.release d.node strong])
      else (true, t.set i d, [.release d.node strong])
    else (true, t.set i d, [])

/-- `binder_proc_AttemptRefDescriptor`, with the node it hands to its caller. -/
def attemptRefDescriptor (handle : ℤ) (attempt : Bool) (t : Descriptors N) :
    (Bool × Option N) × Descriptors N × List (RefOp N) :=
  match t.at? handle with
  | none => ((false, none), t, [])
  | some (i, d) =>
    if d.priRef > 0 then ((true, none), t.set i (d.add true 1), [])
    else if attempt then ((true, none), t.set i (d.add true 1), [.acquire d.node true])
    else ((false, some d.node), t, [.lend d.node])

/-- `binder_proc_ForceRefNode`, up to what it tells the owner of the node. -/
def forceRefNode (n : N) (t : Descriptors N) : Descriptors N × List (RefOp N) :=
  match t.at? (t.node2Descriptor bucket n false true false).1 with
  | none => (t, [])
  | some (i, d) => (t.set i (d.add true 1), if d.priRef = 0 then [.acquire n true] else [])

end Descriptors

/-! ### The references of a process -/

/-- The descriptors, and how many references the process holds on every node. -/
structure Holdings (N : Type) where
  table : Descriptors N
  held : Bool → N → ℤ

/-- The calls. -/
inductive DescriptorCall (N : Type) where
  | node2Descriptor (n : N) (ref strong attempt : Bool)
  | refDescriptor (handle : ℤ) (strong : Bool)
  | unrefDescriptor (handle : ℤ) (strong : Bool)
  | attemptRefDescriptor (handle : ℤ) (attempt : Bool)
  | forceRefNode (n : N)

namespace Holdings

variable {N : Type} [LinearOrder N] (bucket : N → ℕ)

def init : Holdings N := ⟨.init, fun _ _ => 0⟩

/-- The references after one operation on them. -/
def account (held : Bool → N → ℤ) : RefOp N → Bool → N → ℤ
  | .acquire n strong => fun k m => if k = strong ∧ m = n then held k m + 1 else held k m
  | .release n strong => fun k m => if k = strong ∧ m = n then held k m - 1 else held k m
  | .lend _ => held

/-- The table and the operations of a call. -/
def result (t : Descriptors N) : DescriptorCall N → Descriptors N × List (RefOp N)
  | .node2Descriptor n ref strong attempt => (t.node2Descriptor bucket n ref strong attempt).2
  | .refDescriptor handle strong => (t.refDescriptor handle strong).2
  | .unrefDescriptor handle strong => (t.unrefDescriptor bucket handle strong).2
  | .attemptRefDescriptor handle attempt => (t.attemptRefDescriptor handle attempt).2
  | .forceRefNode n => t.forceRefNode bucket n

/-- A call. -/
def step (s : Holdings N) (call : DescriptorCall N) : Option (Holdings N) :=
  let (t, ops) := result bucket s.table call
  some ⟨t, ops.foldl account s.held⟩

/-- **The accounting is right**: the counts of every slot are not negative and not both zero,
the process holds one reference of a kind on its node if that count is not zero and none
otherwise, no two slots have the same node, and the hash table has one entry for every slot. -/
structure Sound (s : Holdings N) : Prop where
  count : ∀ i d, s.table.slot i = some d →
    (∀ strong, 0 ≤ d.count strong) ∧ ∃ strong, d.count strong ≠ 0
  held : ∀ i d, s.table.slot i = some d →
    ∀ strong, s.held strong d.node = if 0 < d.count strong then 1 else 0
  unique : ∀ i j d e, s.table.slot i = some d → s.table.slot j = some e → d.node = e.node → i = j
  sorted : ∀ b, Sorted (s.table.hash b)
  hash : ∀ b n i, (n, i) ∈ s.table.hash b ↔
    bucket n = b ∧ ∃ d, s.table.slot i = some d ∧ d.node = n

/-- A count can be incremented. -/
def Countable (c : ℤ) : Prop := c < 2 ^ 31 - 1

/-- No count is incremented that is at its maximum, none is decremented that is zero, and
`Node2Descriptor` adds a weak reference only to others. -/
def Fits (s : Holdings N) : DescriptorCall N → Prop
  | .node2Descriptor n ref strong _ => ∀ i d, s.table.find bucket n = some i → s.table.slot i = some d →
    ref = true → Countable (d.count strong) ∧ (strong = false → 0 < d.secRef)
  | .refDescriptor handle strong => ∀ i d, s.table.at? handle = some (i, d) → Countable (d.count strong)
  | .unrefDescriptor handle strong => ∀ i d, s.table.at? handle = some (i, d) → 0 < d.count strong
  | .attemptRefDescriptor handle _ => ∀ i d, s.table.at? handle = some (i, d) → Countable d.priRef
  | .forceRefNode n => ∀ i d, s.table.find bucket n = some i → s.table.slot i = some d →
    Countable d.priRef

end Holdings

end OpenBinder
