import OpenBinder.Catalog.Catalog
import OpenBinder.Catalog.Iterator

/-!
# Catalog mirrors

A `BCatalogMirror` shows another catalog, its base, with some entries hidden and with some
overlaid. Unless it is writable nothing can be changed through it.

* `walk`: `Walk`, which hands what is neither hidden nor overlaid to the base.
* `next`: `IteratorWrapper::Next`, blocks of the base with hidden and overlaid items modified.
* `perform`: every call on a mirror or its permissions.
-/

namespace OpenBinder.Catalog

open Lib

/-- A `BCatalogMirror`. `catalog` and `iterable` tell whether `m_catalog` and `m_iterable`
are not NULL; `m_node` is the catalog `base`, and they are the same object. -/
structure Mirror (δ : Type) where
  base : ℕ
  catalog : Bool
  iterable : Bool
  hidden : Keyed SString.strcmp Unit
  overlays : Keyed SString.strcmp (Value δ)
  writable : Bool

namespace Mirror

variable {μ δ : Type} (d : Data μ δ) (w : World μ δ) (m : Mirror δ)

/-- A new mirror of a catalog. -/
def init (base : ℕ) : Mirror δ := ⟨base, true, true, Keyed.empty, Keyed.empty, true⟩

def isWritable (name : SString) : Bool :=
  m.writable && !m.hidden.has name && !m.overlays.has name

def addEntry (name : SString) (entry : Value δ) : World μ δ × Status :=
  if !m.catalog then (w, some .unsupported)
  else if m.isWritable name then w.addEntry d m.base name entry
  else (w, some .permissionDenied)

def removeEntry (name : SString) : World μ δ × Status :=
  if !m.catalog then (w, some .unsupported)
  else if m.isWritable name then w.removeEntry d m.base name
  else (w, some .permissionDenied)

def renameEntry (old_name new_name : SString) : World μ δ × Status :=
  if !m.catalog then (w, some .unsupported)
  else if m.isWritable old_name && m.isWritable new_name then
    w.renameEntry d m.base old_name new_name
  else (w, some .permissionDenied)

/-- `CreateNode`; without catalog it returns NULL and does not set the error. -/
def createNode (name : SString) : World μ δ × Option (Except Error (Value δ)) :=
  if !m.catalog then (w, none)
  else if m.isWritable name then
    let made := w.createNode d m.base name
    (made.state, some made.outcome)
  else (w, some (.error .permissionDenied))

def createDatum (name : SString) : World μ δ × Option (Except Error (Value δ)) :=
  if !m.catalog then (w, none)
  else if m.isWritable name then
    let made := w.createDatum d m.base name
    (made.state, some made.outcome)
  else (w, some (.error .permissionDenied))

/-- What is handed out for an overlay: with `REQUEST_DATA` the value of a datum. -/
def overlayValue (w : World μ δ) (entry : Value δ) (flags : Flags) : Value δ :=
  if flags.has Flags.requestData then (w.datumValue entry).getD entry else entry

/-- `Walk`, `*node` holding `node`. -/
def walk (path : SString) (flags : Flags) (node : Value δ) : Walked (World μ δ) (Value δ) :=
  let name := path.pathRemoveRoot.1
  let rest := path.pathRemoveRoot.2
  if m.hidden.has name then ⟨w, some .nameNotFound, rest, node⟩
  else
    match m.overlays.valueFor name with
    | some entry =>
      if rest = [] then ⟨w, none, rest, overlayValue w entry flags⟩
      else
        match entry.asNode with
        | some inode => (World.nodes d).walk w inode rest flags node
        | none => ⟨w, some .entryNotFound, rest, node⟩
    | none => (World.nodes d).walk w (.catalog m.base) path flags node

/-- `NewIterator`: an iterator of the base, if it has them. -/
def newIterator : Option IndexedIterator :=
  if m.iterable then some (.start (w.entries m.base).items.length) else none

/-- One item in `ModifyNext`: hidden ones are removed, overlaid ones replaced. -/
def modifyItem (flags : Flags) (item : Option SString × Value δ) :
    Option (Option SString × Value δ) :=
  let key := item.1.getD []
  if m.hidden.has key then none
  else
    match m.overlays.valueFor key with
    | some entry => some (item.1, overlayValue w entry flags)
    | none => some item

/-- `IteratorWrapper::Next`: blocks of the base, until one has something left in it. -/
def next (flags : Flags) (count : ℕ) (it : IndexedIterator) :
    Status × List (Option SString × Value δ) × IndexedIterator :=
  if _h : (it.next ((w.listing m.base flags)[·]?) (none, .null) count).1 = none then
    if ((it.next ((w.listing m.base flags)[·]?) (none, .null) count).2.1.filterMap
        (m.modifyItem w flags)).isEmpty then
      next flags count (it.next ((w.listing m.base flags)[·]?) (none, .null) count).2.2
    else
      (none, (it.next ((w.listing m.base flags)[·]?) (none, .null) count).2.1.filterMap
        (m.modifyItem w flags), (it.next ((w.listing m.base flags)[·]?) (none, .null) count).2.2)
  else
    (it.next ((w.listing m.base flags)[·]?) (none, .null) count)
termination_by it.count - it.position
decreasing_by
  obtain ⟨h1, h2, h3⟩ := IndexedIterator.next_position _h
  omega

def hideEntry (name : SString) : Mirror δ × Status :=
  ({ m with hidden := m.hidden.add name () }, if m.hidden.has name then some .nameInUse else none)

def showEntry (name : SString) : Mirror δ × Status :=
  if m.hidden.has name then ({ m with hidden := m.hidden.remove name }, none)
  else (m, some .badValue)

/-- `OverlayEntry`: what is no object is put into a datum. -/
def overlayEntry (location : SString) (item : Value δ) : Mirror δ × Status :=
  let store := if item.isObject then item else .valueDatum item
  ({ m with overlays := m.overlays.add location store }, none)

def restoreEntry (location : SString) : Mirror δ × Status :=
  if m.overlays.has location then ({ m with overlays := m.overlays.remove location }, none)
  else (m, some .badValue)

def setWritable (value : Bool) : Mirror δ := { m with writable := value }

/-- A call on a mirror, or on its `ICatalogPermissions`, or a change of the catalogs by
somebody else. An iterator may be in any state: the base can have changed since its creation. -/
inductive Action (μ δ : Type) where
  | walk (path : SString) (flags : Flags) (node : Value δ)
  | next (it : IndexedIterator) (flags : Flags) (count : ℕ)
  | addEntry (name : SString) (entry : Value δ)
  | removeEntry (name : SString)
  | renameEntry (old_name new_name : SString)
  | createNode (name : SString)
  | createDatum (name : SString)
  | hideEntry (name : SString)
  | showEntry (name : SString)
  | overlayEntry (location : SString) (item : Value δ)
  | restoreEntry (location : SString)
  | setWritable (value : Bool)
  | others (w : World μ δ)

/-- What a call returns. -/
inductive Result (δ : Type) where
  | status (err : Status)
  | walked (err : Status) (path : SString) (node : Value δ)
  | made (outcome : Option (Except Error (Value δ)))
  | items (err : Status) (items : List (Option SString × Value δ)) (it : IndexedIterator)

/-- The catalogs and a mirror of one of them. -/
structure State (μ δ : Type) where
  world : World μ δ
  mirror : Mirror δ

/-- The state after a call, and what it returns. -/
def perform (s : State μ δ) : Action μ δ → State μ δ × Result δ
  | .walk path flags node =>
    let r := s.mirror.walk d s.world path flags node
    (⟨r.state, s.mirror⟩, .walked r.err r.path r.node)
  | .next it flags count =>
    let r := s.mirror.next s.world flags count it
    (s, .items r.1 r.2.1 r.2.2)
  | .addEntry name entry =>
    let r := s.mirror.addEntry d s.world name entry
    (⟨r.1, s.mirror⟩, .status r.2)
  | .removeEntry name =>
    let r := s.mirror.removeEntry d s.world name
    (⟨r.1, s.mirror⟩, .status r.2)
  | .renameEntry old_name new_name =>
    let r := s.mirror.renameEntry d s.world old_name new_name
    (⟨r.1, s.mirror⟩, .status r.2)
  | .createNode name =>
    let r := s.mirror.createNode d s.world name
    (⟨r.1, s.mirror⟩, .made r.2)
  | .createDatum name =>
    let r := s.mirror.createDatum d s.world name
    (⟨r.1, s.mirror⟩, .made r.2)
  | .hideEntry name => (⟨s.world, (s.mirror.hideEntry name).1⟩, .status (s.mirror.hideEntry name).2)
  | .showEntry name => (⟨s.world, (s.mirror.showEntry name).1⟩, .status (s.mirror.showEntry name).2)
  | .overlayEntry location item =>
    (⟨s.world, (s.mirror.overlayEntry location item).1⟩,
      .status (s.mirror.overlayEntry location item).2)
  | .restoreEntry location =>
    (⟨s.world, (s.mirror.restoreEntry location).1⟩, .status (s.mirror.restoreEntry location).2)
  | .setWritable value => (⟨s.world, s.mirror.setWritable value⟩, .status none)
  | .others w => (⟨w, s.mirror⟩, .status none)

/-- A step: catalogs are not destroyed while they are in use. -/
def step (s : State μ δ) (a : Action μ δ) : Option (State μ δ) :=
  match a with
  | .others w => if s.world.next ≤ w.next then some (perform d s a).1 else none
  | _ => some (perform d s a).1

end Mirror

end OpenBinder.Catalog
