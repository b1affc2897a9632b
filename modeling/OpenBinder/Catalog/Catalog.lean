import Std
import OpenBinder.Lib.Keyed
import OpenBinder.Catalog.Walk

/-!
# Catalogs

A `BCatalog` keeps its entries in a keyed vector. An entry that is no object is handed out as
a datum that stands for it, unless the caller asks for the data.

* `World`: the catalogs there are, by number, and the meta-data of all of them.
* `World.nodes`: the namespace they make, with their attributes.
-/

namespace OpenBinder

open Lib

/-- `BCompare` of strings. -/
def SString.strcmp (a b : SString) : Ordering := a.compareLex compare b

instance : Std.TransCmp SString.strcmp := inferInstanceAs (Std.TransCmp (List.compareLex compare))

instance : Std.LawfulEqCmp SString.strcmp :=
  inferInstanceAs (Std.LawfulEqCmp (List.compareLex compare))

namespace Catalog

/-- A node: a catalog, or the attributes of a node. -/
inductive NodeId where
  | catalog (id : ℕ)
  | attributes (of : NodeId)
  deriving DecidableEq

/-- The values of the namespace, over the data `δ` that is no object. -/
inductive Value (δ : Type) where
  | undefined
  | null
  | data (value : δ)
  /-- The binder of a node. -/
  | node (id : NodeId)
  /-- The datum a catalog generates for its entry of a name. -/
  | entryDatum (id : ℕ) (name : SString)
  /-- A `BValueDatum` of its own. -/
  | valueDatum (value : Value δ)
  /-- A binder that is neither a node nor a datum. -/
  | object (id : ℕ)
  deriving DecidableEq

variable {μ δ : Type}

/-- `IsObject`; also whether `AsBinder` is not NULL. -/
def Value.isObject : Value δ → Bool
  | undefined | null | data _ => false
  | _ => true

/-- `interface_cast<INode>`. -/
def Value.asNode : Value δ → Option NodeId
  | node id => some id
  | _ => none

/-- What the catalogs use of values and of meta-data: an empty value of raw type, the
operator `[]`, `LookupMetaEntry` of a node, and `TouchLocked` of a catalog. -/
structure Data (μ δ : Type) where
  raw : δ
  item : Value δ → SString → Value δ
  lookupMetaEntry : μ → NodeId → SString → Flags → Lookup (Value δ)
  touch : μ → ℕ → μ

/-- The entries of a `BCatalog`. -/
abbrev Entries (δ : Type) := Keyed SString.strcmp (Value δ)

/-- All catalogs, by number. Those from `next` on are not created yet. -/
structure World (μ δ : Type) where
  entries : ℕ → Entries δ
  next : ℕ
  metaData : μ

namespace World

variable (d : Data μ δ) (w : World μ δ)

/-- The entries of one catalog are changed, and it is touched. -/
def store (id : ℕ) (entries : Entries δ) : World μ δ :=
  { w with entries := Function.update w.entries id entries, metaData := d.touch w.metaData id }

theorem store_entries (id : ℕ) (entries : Entries δ) (id' : ℕ) :
    (w.store d id entries).entries id' = if id' = id then entries else w.entries id' := by
  simp [store, Function.update_apply]

@[simp] theorem store_entries_self (id : ℕ) (entries : Entries δ) :
    (w.store d id entries).entries id = entries := by simp [store_entries]

/-- `has_entry_l`. -/
def hasEntry (id : ℕ) (name : SString) : Bool := (w.entries id).has name

/-- The entry as it is handed out: the value, or for data that is not asked for the datum
`DatumAtLocked`. -/
def handOut (id : ℕ) (name : SString) (entry : Value δ) (flags : Flags) : Value δ :=
  if !flags.has Flags.requestData && !entry.isObject then .entryDatum id name else entry

def lookupEntry (id : ℕ) (name : SString) (flags : Flags) : Lookup (Value δ) :=
  match (w.entries id).valueFor name with
  | some entry => .found (handOut id name entry flags)
  | none => .failed .entryNotFound none

/-- What an iterator of a catalog goes through: `EntryAtLocked` of every index. -/
def listing (id : ℕ) (flags : Flags) : List (Option SString × Value δ) :=
  (w.entries id).items.map fun p => (some p.1, handOut id p.1 p.2 flags)

/-- `interface_cast<IDatum>` and then `Value()`. -/
def datumValue : Value δ → Option (Value δ)
  | .entryDatum id name => some (((w.entries id).valueFor name).getD .undefined)
  | .valueDatum value => some value
  | _ => none

def addEntry (id : ℕ) (name : SString) (entry : Value δ) : World μ δ × Status :=
  (w.store d id ((w.entries id).add name entry), none)

def removeEntry (id : ℕ) (name : SString) : World μ δ × Status :=
  if w.hasEntry id name then (w.store d id ((w.entries id).remove name), none)
  else (w, some .entryNotFound)

def renameEntry (id : ℕ) (old_name new_name : SString) : World μ δ × Status :=
  match (w.entries id).valueFor old_name with
  | none => (w, some .entryNotFound)
  | some val =>
    if w.hasEntry id new_name then (w, some .entryExists)
    else (w.store d id (((w.entries id).remove old_name).add new_name val), none)

/-- `InstantiateNodeLocked`: a new catalog. -/
def instantiate : World μ δ :=
  { w with entries := Function.update w.entries w.next Keyed.empty, next := w.next + 1 }

def createNode (id : ℕ) (name : SString) : Made (World μ δ) (Value δ) :=
  if w.hasEntry id name then ⟨w, name, .error .entryExists⟩
  else
    let catalog := .node (.catalog w.next)
    ⟨w.instantiate.store d id ((w.instantiate.entries id).add name catalog), name, .ok catalog⟩

def createDatum (id : ℕ) (name : SString) : Made (World μ δ) (Value δ) :=
  if w.hasEntry id name then ⟨w, name, .error .entryExists⟩
  else
    ⟨w.store d id ((w.entries id).add name (.data d.raw)), name, .ok (.entryDatum id name)⟩

/-- **The namespace of the catalogs**, each with a node for its attributes, which has a node
for its own attributes in turn. The attributes create nothing. -/
def nodes : Namespace (World μ δ) NodeId (Value δ) where
  undefined := .undefined
  isDefined := fun v => match v with
    | .undefined => false
    | _ => true
  asNode := Value.asNode
  asNode_undefined := rfl
  binder := .node
  item := d.item
  isRemote := fun _ => false
  walker := fun _ => .generic
  attributes := fun n => some (.attributes n)
  lookupEntry := fun w n name flags => match n with
    | .catalog id => w.lookupEntry id name flags
    | .attributes of => d.lookupMetaEntry w.metaData of name flags
  createNode := fun w n name => match n with
    | .catalog id => w.createNode d id name
    | .attributes _ => ⟨w, name, .error .permissionDenied⟩
  createDatum := fun w n name _ => match n with
    | .catalog id => w.createDatum d id name
    | .attributes _ => ⟨w, name, .error .unsupported⟩

end World

end Catalog

end OpenBinder
