import OpenBinder.Lib.Run
import OpenBinder.Catalog.CreateLaw
import OpenBinder.Catalog.WalkLaw
import OpenBinder.Catalog.Mirror

/-!
# What a mirror protects

A mirror that is not writable refuses every call that would change its base by name. A walk
with `CREATE` flags it hands on, flags and all, and the base creates what does not exist.

* `Protects`: the base keeps its entries, and nothing is learned of a hidden name.
* `protects_iff_guarded`: a mirror protects its base in exactly the runs in which no walk
  comes to the base with a component that has to be created.
-/

namespace OpenBinder.Catalog.Mirror

open Lib

variable {μ δ : Type} {d : Data μ δ}

/-- The calls on the mirror itself, as a catalog. -/
def Action.through : Action μ δ → Prop
  | .others _ => False
  | _ => True

/-- The name that a call is about: the name it is given, or the first one of its path. -/
def Action.On : Action μ δ → SString → Prop
  | .walk path _ _, name => path.pathRemoveRoot.1 = name
  | .addEntry name' _, name => name' = name
  | .removeEntry name', name => name' = name
  | .renameEntry old_name new_name, name => old_name = name ∨ new_name = name
  | .createNode name', name => name' = name
  | .createDatum name', name => name' = name
  | _, _ => False

/-- **The protection** by one call: the base of a mirror that is not writable keeps its
entries, a call on a hidden name returns the same whatever the catalogs hold, and no iterator
gives out a hidden name. -/
structure Protects (d : Data μ δ) (s : State μ δ) (a : Action μ δ) : Prop where
  keeps : s.mirror.writable = false → a.through →
    (perform d s a).1.world.entries s.mirror.base = s.world.entries s.mirror.base
  hides : ∀ name, s.mirror.hidden.has name = true → a.On name →
    ∀ w, (perform d ⟨w, s.mirror⟩ a).2 = (perform d s a).2
  skips : ∀ err items it, (perform d s a).2 = .items err items it →
    ∀ p ∈ items, ∀ name, p.1 = some name → s.mirror.hidden.has name = false

/-- Whether a walk through the mirror creates an entry in its base: it comes there with a
component that does not exist, and with `CREATE` flags. -/
def createsAt (d : Data μ δ) (w : World μ δ) (m : Mirror δ) (path : SString) (flags : Flags)
    (node : Value δ) : Bool :=
  if m.hidden.has path.pathRemoveRoot.1 then false
  else
    match m.overlays.valueFor path.pathRemoveRoot.1 with
    | some entry =>
      if path.pathRemoveRoot.2 = [] then false
      else
        match entry.asNode with
        | some inode => (World.nodes d).createsAt (.catalog m.base) w inode path.pathRemoveRoot.2
            flags node
        | none => false
    | none => (World.nodes d).createsAt (.catalog m.base) w (.catalog m.base) path flags node

/-- No walk through a mirror that is not writable creates an entry in the base. -/
def Guarded (d : Data μ δ) (s : State μ δ) (a : Action μ δ) : Prop :=
  s.mirror.writable = false → ∀ path flags node, a = .walk path flags node →
    createsAt d s.world s.mirror path flags node = false

variable {w : World μ δ} {m : Mirror δ} {name : SString} {flags : Flags}

/-- **A walk through a mirror** leaves the entries of the base alone exactly when it does not
create there. -/
theorem entries_walk (hbase : m.base < w.next) (path : SString) (flags : Flags) (node : Value δ) :
    (m.walk d w path flags node).state.entries m.base = w.entries m.base ↔
      createsAt d w m path flags node = false := by
  unfold walk createsAt
  dsimp only
  cases hhid : m.hidden.has path.pathRemoveRoot.1 with
  | true => exact iff_of_true rfl rfl
  | false =>
    cases hover : m.overlays.valueFor path.pathRemoveRoot.1 with
    | none => exact World.entries_walk hbase
    | some entry =>
      by_cases hrest : path.pathRemoveRoot.2 = []
      · simp [hrest]
      · cases hnode : entry.asNode with
        | none => simp [hrest, hnode]
        | some inode =>
          simp only [if_neg hrest, hnode, if_neg Bool.false_ne_true]
          exact World.entries_walk hbase

theorem grows_walk (w : World μ δ) (m : Mirror δ) (path : SString) (flags : Flags)
    (node : Value δ) : World.Grows w (m.walk d w path flags node).state := by
  unfold walk
  dsimp only
  split
  · exact .refl w
  · split
    · split
      · exact .refl w
      · split
        · exact World.grows_walk ..
        · exact .refl w
    · exact World.grows_walk ..

theorem isWritable_of_not_writable (h : m.writable = false) (name : SString) :
    m.isWritable name = false := by simp [isWritable, h]

theorem isWritable_of_hidden (h : m.hidden.has name = true) :
    m.isWritable name = false := by simp [isWritable, h]

/-- **What is refused** leaves the catalogs alone, and the answer does not depend on them. -/
theorem addEntry_refused (h : m.isWritable name = false) (w : World μ δ) (entry : Value δ) :
    m.addEntry d w name entry =
      (w, some (if m.catalog then .permissionDenied else .unsupported)) := by
  unfold addEntry
  cases m.catalog <;> simp [h]

theorem removeEntry_refused (h : m.isWritable name = false) (w : World μ δ) :
    m.removeEntry d w name =
      (w, some (if m.catalog then .permissionDenied else .unsupported)) := by
  unfold removeEntry
  cases m.catalog <;> simp [h]

theorem renameEntry_refused {old_name new_name : SString}
    (h : m.isWritable old_name = false ∨ m.isWritable new_name = false) (w : World μ δ) :
    m.renameEntry d w old_name new_name =
      (w, some (if m.catalog then .permissionDenied else .unsupported)) := by
  have hand : (m.isWritable old_name && m.isWritable new_name) = false := by
    rcases h with h | h <;> simp [h]
  unfold renameEntry
  cases m.catalog <;> simp [hand]

theorem createNode_refused (h : m.isWritable name = false) (w : World μ δ) : m.createNode d w name =
      (w, if m.catalog then some (.error .permissionDenied) else none) := by
  unfold createNode
  cases m.catalog <;> simp [h]

theorem createDatum_refused (h : m.isWritable name = false) (w : World μ δ) :
    m.createDatum d w name =
      (w, if m.catalog then some (.error .permissionDenied) else none) := by
  unfold createDatum
  cases m.catalog <;> simp [h]

theorem walk_hidden {path : SString} (h : m.hidden.has path.pathRemoveRoot.1 = true) (w : World μ δ)
    (flags : Flags) (node : Value δ) : m.walk d w path flags node =
      ⟨w, some .nameNotFound, path.pathRemoveRoot.2, node⟩ := by
  simp [walk, h]

section

variable {item item' : Option SString × Value δ} (h : m.modifyItem w flags item = some item')
include h

theorem modifyItem_fst : item'.1 = item.1 := by
  unfold modifyItem at h
  dsimp only at h
  split at h
  · cases h
  · split at h <;> · obtain rfl := Option.some.inj h; rfl

theorem modifyItem_not_hidden
 (hname : item'.1 = some name) : m.hidden.has name = false := by
  have hkey := modifyItem_fst h
  unfold modifyItem at h
  dsimp only at h
  split at h
  · cases h
  · rename_i hhid
    rw [← hkey, hname] at hhid
    exact Bool.eq_false_iff.2 hhid

end

theorem next_not_hidden {count : ℕ} {it : IndexedIterator} :
    ∀ p ∈ (m.next w flags count it).2.1, ∀ name, p.1 = some name →
      m.hidden.has name = false := by
  fun_induction next w m flags count it with
  | case1 it _ _ ih => exact ih
  | case2 it =>
    intro p hp name hname
    obtain ⟨item, -, hitem⟩ := List.mem_filterMap.1 hp
    exact modifyItem_not_hidden hitem hname
  | case3 it hend =>
    intro p hp
    -- a call that fails gives no items
    have hnil : (it.next ((w.listing m.base flags)[·]?) (none, .null) count).2.1 = [] := by
      unfold IndexedIterator.next at hend ⊢
      dsimp only at hend ⊢
      split at hend
      · rename_i hempty; exact List.isEmpty_iff.1 hempty
      · exact absurd rfl hend
    rw [hnil] at hp
    cases hp

/-- One call protects the base exactly if it is guarded. -/
theorem protects_iff {s : State μ δ} (hbase : s.mirror.base < s.world.next) (a : Action μ δ) :
    Protects d s a ↔ Guarded d s a := by
  constructor
  · rintro h hw path flags node rfl
    exact (entries_walk hbase path flags node).1 (h.keeps hw trivial)
  · intro h
    cases a with
    | walk path flags node =>
      refine ⟨fun hw _ => (entries_walk hbase ..).2 (h hw path flags node rfl), ?_, ?_⟩
      · rintro name hn rfl w
        simp only [perform, walk_hidden hn]
      · intro err items it he
        cases he
    | next it flags count =>
      refine ⟨fun _ _ => rfl, fun _ _ h => h.elim, ?_⟩
      intro err items it' he
      injection he with _ hitems
      exact hitems ▸ next_not_hidden
    | addEntry name entry =>
      refine ⟨fun hw _ => ?_, ?_, fun _ _ _ he => by cases he⟩
      · simp only [perform, addEntry_refused (isWritable_of_not_writable hw name)]
      · rintro name hn rfl w
        simp only [perform, addEntry_refused (isWritable_of_hidden hn)]
    | removeEntry name =>
      refine ⟨fun hw _ => ?_, ?_, fun _ _ _ he => by cases he⟩
      · simp only [perform, removeEntry_refused (isWritable_of_not_writable hw name)]
      · rintro name hn rfl w
        simp only [perform, removeEntry_refused (isWritable_of_hidden hn)]
    | renameEntry old_name new_name =>
      refine ⟨fun hw _ => ?_, ?_, fun _ _ _ he => by cases he⟩
      · simp only [perform, renameEntry_refused (.inl (isWritable_of_not_writable hw old_name))]
      · rintro name hn (rfl | rfl) w
        · simp only [perform, renameEntry_refused (.inl (isWritable_of_hidden hn))]
        · simp only [perform, renameEntry_refused (.inr (isWritable_of_hidden hn))]
    | createNode name =>
      refine ⟨fun hw _ => ?_, ?_, fun _ _ _ he => by cases he⟩
      · simp only [perform, createNode_refused (isWritable_of_not_writable hw name)]
      · rintro name hn rfl w
        simp only [perform, createNode_refused (isWritable_of_hidden hn)]
    | createDatum name =>
      refine ⟨fun hw _ => ?_, ?_, fun _ _ _ he => by cases he⟩
      · simp only [perform, createDatum_refused (isWritable_of_not_writable hw name)]
      · rintro name hn rfl w
        simp only [perform, createDatum_refused (isWritable_of_hidden hn)]
    | others w =>
      exact ⟨fun _ h => h.elim, fun _ _ h => h.elim, fun _ _ _ he => by cases he⟩
    | hideEntry _ | showEntry _ | overlayEntry _ _ | restoreEntry _ | setWritable _ =>
      exact ⟨fun _ _ => rfl, fun _ _ h => h.elim, fun _ _ _ he => by cases he⟩

theorem perform_fixed (s : State μ δ) (a : Action μ δ) :
    (perform d s a).1.mirror.base = s.mirror.base ∧
      (perform d s a).1.mirror.iterable = s.mirror.iterable := by
  cases a with
  | showEntry name =>
    show (s.mirror.showEntry name).1.base = _ ∧ (s.mirror.showEntry name).1.iterable = _
    unfold showEntry
    split <;> exact ⟨rfl, rfl⟩
  | restoreEntry location =>
    show (s.mirror.restoreEntry location).1.base = _ ∧
      (s.mirror.restoreEntry location).1.iterable = _
    unfold restoreEntry
    split <;> exact ⟨rfl, rfl⟩
  | _ => exact ⟨rfl, rfl⟩

theorem perform_next (s : State μ δ) {a : Action μ δ} (ha : a.through) :
    s.world.next ≤ (perform d s a).1.world.next := by
  cases a with
  | walk path flags node => exact (grows_walk ..).next
  | addEntry name entry =>
    show _ ≤ (s.mirror.addEntry d s.world name entry).1.next
    unfold addEntry
    split
    · exact le_rfl
    · split <;> exact le_rfl
  | removeEntry name =>
    show _ ≤ (s.mirror.removeEntry d s.world name).1.next
    unfold removeEntry World.removeEntry
    split
    · exact le_rfl
    · split
      · split <;> exact le_rfl
      · exact le_rfl
  | renameEntry old_name new_name =>
    show _ ≤ (s.mirror.renameEntry d s.world old_name new_name).1.next
    unfold renameEntry World.renameEntry
    split
    · exact le_rfl
    · split
      · split
        · exact le_rfl
        · split <;> exact le_rfl
      · exact le_rfl
  | createNode name =>
    show _ ≤ (s.mirror.createNode d s.world name).1.next
    unfold createNode
    split
    · exact le_rfl
    · split
      · exact (World.grows_createNode (d := d) s.world (.catalog s.mirror.base) name).next
      · exact le_rfl
  | createDatum name =>
    show _ ≤ (s.mirror.createDatum d s.world name).1.next
    unfold createDatum
    split
    · exact le_rfl
    · split
      · exact (World.grows_createDatum (d := d) s.world (.catalog s.mirror.base) name 0).next
      · exact le_rfl
  | others w => exact ha.elim
  | next _ _ _ | hideEntry _ | showEntry _ | overlayEntry _ _ | restoreEntry _ | setWritable _ =>
    exact le_rfl

theorem base_lt {s s' : State μ δ} {a : Action μ δ} (h : s.mirror.base < s.world.next)
    (hs : step d s a = some s') : s'.mirror.base < s'.world.next := by
  cases a with
  | others w =>
    obtain ⟨hle, hs⟩ := Option.ite_none_right_eq_some.1 hs
    obtain ⟨⟩ := hs
    exact lt_of_lt_of_le h hle
  | _ =>
    obtain ⟨⟩ := hs
    rw [(perform_fixed s _).1]
    exact lt_of_lt_of_le h (perform_next s trivial)

/-- **When a mirror protects its base**: every call of a run does if and only if no walk
through a mirror that is not writable creates an entry in the base. -/
theorem protects_iff_guarded (d : Data μ δ) (s : State μ δ)
    (hbase : s.mirror.base < s.world.next) (as : List (Action μ δ)) :
    AllSteps (step d) (Protects d) s as ↔ AllSteps (step d) (Guarded d) s as :=
  allSteps_congr (fun _ a h => protects_iff h a) (fun _ _ _ => base_lt) as s hbase

/-- A single name that is neither hidden nor overlaid is created in the base if it is asked
for and does not exist. -/
theorem createsAt_name (hname : name.Single) (hhidden : m.hidden.has name = false)
    (hover : m.overlays.valueFor name = none) (flags : Flags) (node : Value δ) :
    createsAt d w m name flags node =
      (flags.has Flags.createMask && !(w.entries m.base).has name) := by
  simp [createsAt, SString.pathRemoveRoot_name hname.no_delimiter, hhidden, hover,
    World.createsAt_name w m.base hname]

/-- A catalog without entries, and a mirror of it that is not writable. -/
def readOnly : State Unit ℕ :=
  ⟨⟨fun _ => Keyed.empty, 1, ()⟩, (init 0).setWritable false⟩

/-- Looking up and being refused is guarded. -/
theorem protects_readOnly : AllSteps (step SNode.treeData) (Protects SNode.treeData) readOnly
    [.hideEntry ['s'], .walk ['s'] Flags.createNode .undefined, .addEntry ['n'] (.data 1),
      .walk ['n'] 0 .undefined] := by
  apply (protects_iff_guarded SNode.treeData readOnly Nat.zero_lt_one _).2
  refine AllSteps.cons rfl (fun _ _ _ _ h => by cases h) ?_
  refine AllSteps.cons rfl (fun _ _ _ _ h => by cases h; rfl) ?_
  refine AllSteps.cons rfl (fun _ _ _ _ h => by cases h) ?_
  refine AllSteps.cons rfl ?_ trivial
  rintro - path flags node h
  cases h
  exact createsAt_name ⟨by decide, by decide⟩ rfl rfl ..

/-- Through the same mirror a walk with `CREATE_NODE` creates an entry in the base. -/
theorem not_protects_readOnly : ¬ AllSteps (step SNode.treeData) (Protects SNode.treeData) readOnly
    [.walk ['n'] Flags.createNode .undefined] := by
  intro h
  have hguard := (protects_iff Nat.zero_lt_one _).1 (h _ rfl).1 rfl _ _ _ rfl
  rw [createsAt_name ⟨by decide, by decide⟩ rfl rfl] at hguard
  exact absurd hguard (by decide)

end OpenBinder.Catalog.Mirror
