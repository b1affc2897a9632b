import Mathlib.Data.BitVec
import OpenBinder.Catalog.Path

/-!
# Walking the namespace

A node finds its entries with `LookupEntry`, which may be any function. `Walk` takes the
first component off the path, looks it up and hands the rest of the path to the node that
was found. `*node`, where the entry goes, is passed down through every level as it is.

* `Namespace`: the nodes, what they know about their entries, and the values.
* `walk`: `BGenericNode::Walk`, and `SWalkHelper::HelperWalk` for the nodes built on it.
* `SNode.walk`: `SNode::Walk`, which calls it until the whole path is done.
-/

namespace OpenBinder.Catalog

/-- The errors of the namespace. -/
inductive Error where
  | entryNotFound
  | nameNotFound
  | entryExists
  | permissionDenied
  | unsupported
  | nameInUse
  | badValue
  | noInit
  | noMemory
  | endOfData
  | other (code : ℤ)
  deriving DecidableEq

/-- A status: `none` is `B_OK`. -/
abbrev Status := Option Error

/-- The `uint32_t` of flags of `INode`. -/
abbrev Flags := BitVec 32

namespace Flags

def createDatum : Flags := 0x0100#32
def createNode : Flags := 0x0200#32
def createMask : Flags := 0x0300#32
def requestData : Flags := 0x1000#32
def collapseNode : Flags := 0x2000#32

/-- `flags & mask`, as a condition. -/
def has (flags mask : Flags) : Bool := flags &&& mask != 0

/-- `flags&~(REQUEST_DATA|COLLAPSE_NODE)`. -/
def inner (flags : Flags) : Flags := flags &&& ~~~(requestData ||| collapseNode)

end Flags

/-- What `LookupEntry` does: it gives `B_OK` and the entry, or an error, and then it may have
written something to `*node` all the same. -/
inductive Lookup (V : Type) where
  | found (entry : V)
  | failed (err : Error) (left : Option V)

/-- The status of a lookup. -/
def Lookup.err {V : Type} : Lookup V → Status
  | found _ => none
  | failed err _ => some err

/-- What `*node` holds after a lookup, `node` before it. -/
def Lookup.value {V : Type} (node : V) : Lookup V → V
  | found entry => entry
  | failed _ left => left.getD node

/-- What `CreateNode` and `CreateDatum` do: the state after, the name (it is an in/out
argument) and the new object or an error. -/
structure Made (σ V : Type) where
  state : σ
  name : SString
  outcome : Except Error V

/-- Which of the two walks a node has. -/
inductive Walker where
  | generic
  | helper
  deriving DecidableEq

/-- The nodes of a namespace, over the state `σ` their entries are in. -/
structure Namespace (σ N V : Type) where
  undefined : V
  isDefined : V → Bool
  /-- `interface_cast<INode>` of a value. -/
  asNode : V → Option N
  asNode_undefined : asNode undefined = none
  /-- `SValue::Binder(node->AsBinder())`. -/
  binder : N → V
  /-- `operator[]` with a string. -/
  item : V → SString → V
  /-- `RemoteBinder() != NULL`. -/
  isRemote : N → Bool
  walker : N → Walker
  attributes : N → Option N
  lookupEntry : σ → N → SString → Flags → Lookup V
  createNode : σ → N → SString → Made σ V
  createDatum : σ → N → SString → Flags → Made σ V

/-- What a walk ends with: the state, the status, the path it leaves and what `*node` then
holds. -/
structure Walked (σ V : Type) where
  state : σ
  err : Status
  path : SString
  node : V

variable {σ N V : Type} (ns : Namespace σ N V)

namespace Namespace

/-- The flags a component is looked up with: `BGenericNode` asks for data at the leaf only,
the helper everywhere. -/
def lookupFlags (n : N) (atLeaf : Bool) (flags : Flags) : Flags :=
  match ns.walker n with
  | .generic => if atLeaf then flags else flags.inner
  | .helper => flags

/-- The flags of the second lookup, when a node could not be created. -/
def againFlags (n : N) (flags : Flags) : Flags :=
  match ns.walker n with
  | .generic => flags.inner
  | .helper => flags

/-- After `CreateDatum` or `CreateNode`: the new object, or the entry somebody else
created, or the error. -/
def created (n : N) (made : Made σ V) (flags : Flags) (node : V) : Walked σ V :=
  match made.outcome with
  | .ok entry => ⟨made.state, none, [], entry⟩
  | .error .entryExists =>
    let found := ns.lookupEntry made.state n made.name flags
    ⟨made.state, found.err, [], found.value node⟩
  | .error err => ⟨made.state, some err, [], node⟩

/-- The entry did not exist and there are `CREATE` flags. -/
def create (s : σ) (n : N) (name : SString) (atLeaf : Bool) (flags : Flags) (node : V) :
    Walked σ V :=
  if flags.has Flags.createDatum && atLeaf then
    ns.created n (ns.createDatum s n name flags) flags node
  else
    ns.created n (ns.createNode s n name) (ns.againFlags n flags) node

/-- One component that is no attribute: it is looked up, and created if that is asked for.
The path of the result is not used. -/
def component (s : σ) (n : N) (name : SString) (atLeaf : Bool) (flags : Flags) (node : V) :
    Walked σ V :=
  let found := ns.lookupEntry s n name (ns.lookupFlags n atLeaf flags)
  if found.err = some .entryNotFound && flags.has Flags.createMask then
    ns.create s n name atLeaf flags (found.value node)
  else
    ⟨s, found.err, [], found.value node⟩

/-- **`Walk`** of a node, `*node` holding `node`. -/
def walk (s : σ) (n : N) (path : SString) (flags : Flags) (node : V) : Walked σ V :=
  -- a component that begins with a colon is walked in the attributes of the node
  let here : Walked σ V :=
    if _hcolon : path.pathRemoveRoot.1.head? = some ':' then
      match ns.attributes n with
      | none => ⟨s, some .entryNotFound, [], node⟩
      | some attrs =>
        if path.pathRemoveRoot.1.length = 1 then ⟨s, none, [], ns.binder attrs⟩
        else walk s attrs path.pathRemoveRoot.1.tail flags node
    else
      ns.component s n path.pathRemoveRoot.1 path.pathRemoveRoot.2.isEmpty flags node
  -- whatever the status is, the rest of the path goes on from what `*node` holds
  if _hrest : path.pathRemoveRoot.2 ≠ [] then
    match ns.asNode here.node with
    | none => ⟨here.state, some .entryNotFound, path.pathRemoveRoot.2, here.node⟩
    | some next =>
      if ns.isRemote next then ⟨here.state, here.err, path.pathRemoveRoot.2, here.node⟩
      else walk here.state next path.pathRemoveRoot.2 flags here.node
  else ⟨here.state, here.err, [], here.node⟩
termination_by path.length
decreasing_by
  · have h1 := path.length_pathRemoveRoot_fst
    have h2 : path.pathRemoveRoot.1 ≠ [] := by
      intro h; rw [h] at _hcolon; cases _hcolon
    have h3 := List.length_pos_of_ne_nil h2
    rw [List.length_tail]
    omega
  · have h1 := path.length_pathRemoveRoot
    have h2 := List.length_pos_of_ne_nil _hrest
    omega

theorem length_walk (flags : Flags) (path : SString) : ∀ (s : σ) (n : N) (node : V),
    (ns.walk s n path flags node).path.length ≤ path.length - 1 := by
  induction hl : path.length using Nat.strong_induction_on generalizing path with
  | _ l ih =>
    intro s n node
    have hlen := path.length_pathRemoveRoot
    rw [walk]
    by_cases hrest : path.pathRemoveRoot.2 ≠ []
    · have hpos := List.length_pos_of_ne_nil hrest
      simp only [dif_pos hrest]
      split
      · dsimp only; omega
      · split
        · dsimp only; omega
        · have := ih path.pathRemoveRoot.2.length (by omega) path.pathRemoveRoot.2 rfl
          exact (this ..).trans (by omega)
    · simp only [dif_neg hrest, List.length_nil]
      exact Nat.zero_le _

end Namespace

/-- An `SNode`: the node, or a value that is none. -/
structure SNode (N V : Type) where
  node : Option N
  value : V

namespace SNode

/-- The loop of `SNode::Walk`: the walk is repeated from the node it stopped at. -/
def walkPath (s : σ) (n : N) (path : SString) (flags : Flags) : Walked σ V :=
  let w := ns.walk s n path flags ns.undefined
  if _hstop : w.err ≠ none ∨ w.path = [] then
    match w.err with
    | none => w
    -- no garbage in the value of a failed walk
    | some err => { w with err := some err, node := ns.undefined }
  else
    match ns.asNode w.node with
    | none => { w with err := some .entryNotFound, node := ns.undefined }
    | some next => walkPath w.state next w.path flags
termination_by path.length
decreasing_by
  have h1 := ns.length_walk flags path s n ns.undefined
  have h2 := List.length_pos_of_ne_nil fun h => _hstop (.inr h)
  show (ns.walk s n path flags ns.undefined).path.length < _
  have h3 : 0 < (ns.walk s n path flags ns.undefined).path.length := h2
  omega

/-- **`SNode::Walk`.** -/
def walk (this : SNode N V) (s : σ) (path : SString) (flags : Flags) : Walked σ V :=
  if path = [] ∨ path = [SString.pathDelimiter] then
    match this.node with
    | some n => ⟨s, none, path, ns.binder n⟩
    | none => ⟨s, none, path, this.value⟩
  else
    match this.node with
    | some n => walkPath ns s n path flags
    | none =>
      if ns.isDefined this.value then
        let entry := ns.item this.value path
        if ns.isDefined entry then ⟨s, none, path, entry⟩
        else
          let entry := ns.item this.value path.pathRemoveRoot.1
          let rest := path.pathRemoveRoot.2
          match if rest = [] then none else ns.asNode entry with
          | some n => walkPath ns s n rest flags
          | none => ⟨s, some .entryNotFound, rest, ns.undefined⟩
      else ⟨s, some .noInit, path, ns.undefined⟩

end SNode

end OpenBinder.Catalog
