import OpenBinder.Catalog.WalkLaw
import OpenBinder.Text.PathParts

/-!
# Operations on the parent of a leaf

`SNode::AddEntry`, `RemoveEntry` and `RenameEntry` take a path. `FindLeaf` walks what is in front of
the last name and leaves that name; it does not leave the node that it came to.

* `actsOnParent_iff`: when the operation is done where the path leads.
-/

namespace OpenBinder.Catalog

open Lib SString

variable {σ N V : Type}

/-- The loop of `FindLeaf`: the state, `*node`, `*pathName` and the status. -/
def findLeafLoop (ns : Namespace σ N V) (s : σ) (n : N) (path pathName : SString) :
    σ × Option N × SString × Status :=
  let w := ns.walk s n path 0 ns.undefined
  if _hstop : w.err ≠ none ∨ w.path = [] then (w.state, some n, pathLeaf pathName, w.err)
  else
    match ns.asNode w.node with
    | none => (w.state, none, pathName, some .entryNotFound)
    | some next => findLeafLoop ns w.state next w.path pathName
termination_by path.length
decreasing_by
  have hlen := ns.length_walk 0 path s n ns.undefined
  have hpos : 0 < (ns.walk s n path 0 ns.undefined).path.length :=
    List.length_pos_of_ne_nil fun h => _hstop (.inr h)
  show (ns.walk s n path 0 ns.undefined).path.length < _
  omega

/-- `FindLeaf`. -/
def findLeaf (ns : Namespace σ N V) (s : σ) (n : N) (pathName : SString) :
    σ × Option N × SString × Status :=
  findLeafLoop ns s n (pathGetParent pathName).2 pathName

namespace World

variable {μ δ : Type} (d : Data μ δ) (w : World μ δ)

/-- What the operations of an `SNode` of a catalog have in common: `m_catalog` and `m_node` are the
catalog. -/
def onLeaf (this : ℕ) (name : SString) (op : World μ δ → ℕ → SString → World μ δ × Status) :
    World μ δ × Status :=
  if pathDelimiter ∉ name then op w this name
  else
    match findLeaf (nodes d) w (.catalog this) name with
    | (w, _, _, some err) => (w, some err)
    | (w, _, path, none) => op w this path

/-- `SNode::AddEntry`. -/
def nodeAddEntry (this : ℕ) (name : SString) (entry : Value δ) : World μ δ × Status :=
  w.onLeaf d this name fun w id name => w.addEntry d id name entry

/-- `SNode::RemoveEntry`. -/
def nodeRemoveEntry (this : ℕ) (name : SString) : World μ δ × Status :=
  w.onLeaf d this name fun w id name => w.removeEntry d id name

/-- `SNode::RenameEntry`. -/
def nodeRenameEntry (this : ℕ) (name rename : SString) : World μ δ × Status :=
  if pathDelimiter ∉ name then w.renameEntry d this name rename
  else if (pathGetParent name).2 ≠ (pathGetParent rename).2 then (w, some .unsupported)
  else w.onLeaf d this name fun w id name => w.renameEntry d id name (pathLeaf rename)

/-- An operation on an entry. -/
inductive Operation (δ : Type) where
  | add (entry : Value δ)
  | remove
  | rename (name : SString)

/-- The operation on a name of a catalog. -/
def Operation.perform (id : ℕ) (name : SString) : Operation δ → World μ δ × Status
  | add entry => w.addEntry d id name entry
  | remove => w.removeEntry d id name
  | rename new => w.renameEntry d id name new

/-- The operation of an `SNode` on a path. The new name is in the same directory. -/
def Operation.onPath (this : ℕ) (dir leaf : SString) : Operation δ → World μ δ × Status
  | add entry => w.nodeAddEntry d this (dir ++ delimiterString ++ leaf) entry
  | remove => w.nodeRemoveEntry d this (dir ++ delimiterString ++ leaf)
  | rename new =>
    w.nodeRenameEntry d this (dir ++ delimiterString ++ leaf) (dir ++ delimiterString ++ new)

/-- The names of an operation are single names. -/
def Operation.HasName : Operation δ → Prop
  | rename new => pathDelimiter ∉ new
  | _ => True

/-- What `FindLeaf` leaves of the names. -/
def Operation.cut : Operation δ → Operation δ
  | rename new => rename (upToZero new)
  | op => op

/-- The directories lead to a catalog. -/
def ResolvesTo (this : ℕ) (dirs : List SString) (c : ℕ) : Prop :=
  (nodes d).Resolves w 0 (.catalog this) dirs (.node (.catalog c))

/-- **The operation is done where the path leads**: on the catalog that its directories lead to;
where they do not lead to one it fails and changes nothing. -/
def ActsOnParent (this : ℕ) (dirs : List SString) (leaf : SString) (op : Operation δ) : Prop :=
  let r := op.onPath d w this (ofNames dirs) leaf
  (∀ c, w.ResolvesTo d this dirs c → r = op.perform d w c leaf) ∧
    ((∀ c, ¬ w.ResolvesTo d this dirs c) → r.1 = w ∧ r.2 ≠ none)

/-- A catalog refuses the operation. -/
def Operation.Refused (id : ℕ) (name : SString) : Operation δ → Prop
  | add _ => False
  | remove => w.hasEntry id name = false
  | rename new => w.hasEntry id name = true → w.hasEntry id new = true

/-- Of two catalogs, both refuse the operation for the same reason, or both have the entry that is
added. -/
def Operation.Idle (r : ℕ) (name' : SString) (c : ℕ) (name : SString) : Operation δ → Prop
  | add entry => (w.entries r).valueFor name' = some entry ∧
      (w.entries c).valueFor name = some entry ∧ d.touch w.metaData r = d.touch w.metaData c
  | remove => w.hasEntry r name' = false ∧ w.hasEntry c name = false
  | rename new => w.hasEntry r name' = w.hasEntry c name ∧ (w.hasEntry c name = true →
      w.hasEntry r (upToZero new) = true ∧ w.hasEntry c new = true)

variable {d w} {this r c : ℕ} {dirs : List SString} {leaf name name' : SString} {op : Operation δ}

theorem add_eq_self {t : Entries δ} {entry : Value δ} :
    t.add name entry = t ↔ t.valueFor name = some entry := by
  constructor
  · intro h
    rw [← h, Keyed.valueFor_add, if_pos rfl]
  · intro h
    obtain ⟨i, hi⟩ := List.mem_iff_getElem?.1 (Keyed.valueFor_eq_some.1 h)
    have hfind := Keyed.find_eq hi
    obtain ⟨hlt, hget⟩ := List.getElem?_eq_some_iff.1 hi
    obtain ⟨items, sorted⟩ := t
    simp only [Keyed.add, hfind, dite_true, Keyed.mk.injEq]
    rw [← hget, List.set_getElem_self]

theorem store_eq_store (hrc : r ≠ c) {t t' : Entries δ} : w.store d r t = w.store d c t' ↔
    t = w.entries r ∧ t' = w.entries c ∧ d.touch w.metaData r = d.touch w.metaData c := by
  constructor
  · intro h
    have hentries := fun id => congrFun (congrArg World.entries h) id
    refine ⟨?_, ?_, congrArg World.metaData h⟩
    · have hr := hentries r
      rwa [store_entries_self, store_entries, if_neg hrc] at hr
    · have hc := hentries c
      rw [store_entries_self, store_entries, if_neg (Ne.symm hrc)] at hc
      exact hc.symm
  · rintro ⟨rfl, rfl, htouch⟩
    simp [store, htouch]

theorem remove_ne_self {t : Entries δ} (h : t.has name = true) : t.remove name ≠ t := by
  intro heq
  obtain ⟨v, hv⟩ := Keyed.has_iff.1 h
  rw [← heq, Keyed.valueFor_remove, if_pos rfl] at hv
  cases hv

theorem rename_ne_self {t : Entries δ} {val : Value δ} {new : SString}
    (h : t.valueFor name = some val) (hnew : ¬ t.has new = true) :
    (t.remove name).add new val ≠ t := by
  intro heq
  have hne : name ≠ new := by
    rintro rfl
    exact hnew (Keyed.has_iff.2 ⟨val, h⟩)
  rw [← heq, Keyed.valueFor_add, if_neg hne, Keyed.valueFor_remove, if_pos rfl] at h
  cases h

/-- **Two catalogs do the same** exactly if both refuse, or both have the entry already. -/
theorem Operation.perform_eq_iff (hrc : r ≠ c) :
    op.cut.perform d w r name' = op.perform d w c name ↔ op.Idle d w r name' c name := by
  cases op with
  | add entry =>
    show (w.store d r _, none) = (w.store d c _, none) ↔ _
    rw [Prod.mk.injEq, eq_self, and_true, store_eq_store hrc, add_eq_self, add_eq_self]
    rfl
  | remove =>
    show w.removeEntry d r name' = w.removeEntry d c name ↔ _ ∧ _
    unfold removeEntry
    cases hr : w.hasEntry r name' with
    | false =>
      cases hc : w.hasEntry c name with
      | false => simp
      | true => simp
    | true =>
      cases hc : w.hasEntry c name with
      | false => simp
      | true => simpa [store_eq_store hrc] using fun h => absurd h (remove_ne_self hr)
  | rename new =>
    show w.renameEntry d r name' (upToZero new) = w.renameEntry d c name new ↔ _ ∧ (_ → _)
    unfold renameEntry
    cases hr : (w.entries r).valueFor name' with
    | none =>
      have hr' : w.hasEntry r name' = false := Keyed.has_eq_false.2 hr
      cases hc : (w.entries c).valueFor name with
      | none =>
        have hc' : w.hasEntry c name = false := Keyed.has_eq_false.2 hc
        simp [hr', hc']
      | some val =>
        have hc' : w.hasEntry c name = true := Keyed.has_iff.2 ⟨val, hc⟩
        rw [hr', hc']
        dsimp only
        split <;> simp
    | some val =>
      have hr' : w.hasEntry r name' = true := Keyed.has_iff.2 ⟨val, hr⟩
      cases hc : (w.entries c).valueFor name with
      | none =>
        have hc' : w.hasEntry c name = false := Keyed.has_eq_false.2 hc
        rw [hr', hc']
        dsimp only
        split <;> simp
      | some val' =>
        have hc' : w.hasEntry c name = true := Keyed.has_iff.2 ⟨val', hc⟩
        rw [hr', hc']
        dsimp only
        split
        · split <;> simp [*]
        · split
          · simp [*]
          · rename_i hnew _
            simpa [store_eq_store hrc, hnew] using fun h => absurd h (rename_ne_self hr hnew)

/-- A catalog that refuses an operation is left as it is. -/
theorem Operation.refused_iff : (op.perform d w c name).1 = w ∧ (op.perform d w c name).2 ≠ none ↔
    op.Refused w c name := by
  cases op with
  | add entry => exact ⟨fun h => h.2 rfl, False.elim⟩
  | remove =>
    show (w.removeEntry d c name).1 = w ∧ _ ↔ w.hasEntry c name = false
    unfold perform removeEntry
    cases w.hasEntry c name <;> simp
  | rename new =>
    show (w.renameEntry d c name new).1 = w ∧ _ ↔ (w.hasEntry c name = true → _)
    unfold perform renameEntry
    cases hc : (w.entries c).valueFor name with
    | none =>
      have hc' : w.hasEntry c name = false := Keyed.has_eq_false.2 hc
      simp [hc']
    | some val =>
      have hc' : w.hasEntry c name = true := Keyed.has_iff.2 ⟨val, hc⟩
      dsimp only
      split <;> simp [*]

section

variable (hne : dirs ≠ []) (hdirs : ∀ n ∈ dirs, Plain n) (hleaf : pathDelimiter ∉ leaf)

include hne hdirs hleaf

/-- **`FindLeaf`** succeeds where the walk leads somewhere, and leaves the last name. -/
theorem findLeaf_spec :
    (∀ out v, (nodes d).LeadsTo w 0 (.catalog this) .undefined dirs out v →
      findLeaf (nodes d) w (.catalog this) (ofNames dirs ++ delimiterString ++ leaf) =
        (w, some (.catalog this), upToZero leaf, none)) ∧
    ((∀ out v, ¬ (nodes d).LeadsTo w 0 (.catalog this) .undefined dirs out v) →
      ∃ err, findLeaf (nodes d) w (.catalog this) (ofNames dirs ++ delimiterString ++ leaf) =
        (w, some (.catalog this), upToZero leaf, some err)) := by
  have hflags : Flags.has 0 Flags.createMask = false := by decide
  obtain ⟨hleads, hno⟩ := @Namespace.walk_names _ _ _ (nodes d) w 0 _ (fun _ => rfl) hflags hne hdirs
    (.catalog this) (nodes d).undefined
  unfold findLeaf
  rw [pathGetParent_eq (ofNames_ne_nil hne hdirs) hleaf, findLeafLoop]
  dsimp only
  constructor
  · intro out v h
    simp only [hleads out v h, or_true, dite_true, pathLeaf_eq hleaf]
  · intro h
    obtain ⟨herr, hstate⟩ := hno h
    obtain ⟨err, heq⟩ := Option.ne_none_iff_exists'.1 herr
    rw [dif_pos (.inl herr), hstate, heq, pathLeaf_eq hleaf]
    exact ⟨err, rfl⟩

theorem onPath_eq (hop : op.HasName) : op.onPath d w this (ofNames dirs) leaf =
    w.onLeaf d this (ofNames dirs ++ delimiterString ++ leaf) fun w id name =>
      op.cut.perform d w id name := by
  cases op with
  | add entry => rfl
  | remove => rfl
  | rename new =>
    have hparents : ¬ (pathGetParent (ofNames dirs ++ delimiterString ++ leaf)).2 ≠
        (pathGetParent (ofNames dirs ++ delimiterString ++ new)).2 := by
      rw [pathGetParent_eq (ofNames_ne_nil hne hdirs) hleaf,
        pathGetParent_eq (ofNames_ne_nil hne hdirs) hop]
      exact not_not.2 rfl
    show nodeRenameEntry d w this _ _ = _
    rw [nodeRenameEntry, if_neg (not_not.2 (by simp [delimiterString])), if_neg hparents,
      pathLeaf_eq hop]
    rfl

/-- What an operation on a path does: what it does on the catalog it is called on. -/
theorem onPath_spec (hop : op.HasName) :
    (∀ out v, (nodes d).LeadsTo w 0 (.catalog this) .undefined dirs out v →
      op.onPath d w this (ofNames dirs) leaf = op.cut.perform d w this (upToZero leaf)) ∧
    ((∀ out v, ¬ (nodes d).LeadsTo w 0 (.catalog this) .undefined dirs out v) →
      (op.onPath d w this (ofNames dirs) leaf).1 = w ∧
        (op.onPath d w this (ofNames dirs) leaf).2 ≠ none) := by
  obtain ⟨hleads, hno⟩ := @findLeaf_spec _ _ d w this _ _ hne hdirs hleaf
  rw [onPath_eq hne hdirs hleaf hop, onLeaf, if_neg (not_not.2 (by simp [delimiterString]))]
  constructor
  · intro out v h
    rw [hleads out v h]
  · intro h
    obtain ⟨err, heq⟩ := hno h
    rw [heq]
    exact ⟨rfl, Option.some_ne_none err⟩

/-- **When an operation is done where its path leads.** In a tree the directories do not lead back
to the catalog. -/
theorem actsOnParent_iff (hop : op.HasName) (htree : ∀ c, w.ResolvesTo d this dirs c → this ≠ c) :
    ActsOnParent d w this dirs leaf op ↔
      ∀ out v, (nodes d).LeadsTo w 0 (.catalog this) .undefined dirs out v →
        (∀ c, out = [] → v = .node (.catalog c) → op.Idle d w this (upToZero leaf) c leaf) ∧
        ((out = [] → ∀ c, v ≠ .node (.catalog c)) → op.cut.Refused w this (upToZero leaf)) := by
  obtain ⟨hleads, hno⟩ := @onPath_spec _ _ d w this _ _ _ hne hdirs hleaf hop
  constructor
  · rintro ⟨hc, hfails⟩ out v h
    rw [hleads out v h] at hc hfails
    refine ⟨?_, fun hnot => Operation.refused_iff.1 (hfails fun c hres => ?_)⟩
    · rintro c rfl rfl
      have hres := Namespace.leadsTo_nil_iff.1 h
      exact (Operation.perform_eq_iff (htree c hres)).1 (hc c hres)
    · obtain ⟨rfl, rfl⟩ := h.unique (Namespace.leadsTo_nil_iff.2 hres)
      exact hnot rfl c rfl
  · intro hall
    refine ⟨fun c hres => ?_, fun hnot => ?_⟩
    · have h : (nodes d).LeadsTo w 0 (.catalog this) .undefined dirs [] (.node (.catalog c)) :=
        Namespace.leadsTo_nil_iff.2 hres
      rw [hleads _ _ h]
      exact (Operation.perform_eq_iff (htree c hres)).2 ((hall _ _ h).1 c rfl rfl)
    · by_cases hlead : ∃ out v, (nodes d).LeadsTo w 0 (.catalog this) .undefined dirs out v
      · obtain ⟨out, v, h⟩ := hlead
        rw [hleads out v h]
        refine Operation.refused_iff.2 ((hall out v h).2 ?_)
        rintro rfl c rfl
        exact hnot c (Namespace.leadsTo_nil_iff.1 h)
      · exact hno fun out v h => hlead ⟨out, v, h⟩

end

/-- The directory `a` of the tree. -/
theorem tree_leads : (nodes SNode.treeData).LeadsTo SNode.tree 0 (.catalog 0) .undefined [['a']] []
    (.node (.catalog 1)) :=
  .leaf SNode.tree_a

/-- Nothing is removed from `a` by way of its parent, which has no `x` either. -/
theorem actsOnParent_tree :
    ActsOnParent SNode.treeData SNode.tree 0 [['a']] ['x'] .remove := by
  have hop : (Operation.remove : Operation ℕ).HasName := trivial
  refine (actsOnParent_iff (by decide) (SNode.tree_plain (by simp)) (by decide) hop
    fun c hres => ?_).2 fun out v h => ?_
  · have heq := (tree_leads.unique (Namespace.leadsTo_nil_iff.2 hres)).2
    injection heq with heq
    injection heq with heq
    omega
  · obtain ⟨rfl, rfl⟩ := tree_leads.unique h
    refine ⟨?_, fun hnot => (hnot rfl 1 rfl).elim⟩
    rintro c - heq
    injection heq with heq
    injection heq with heq
    subst heq
    exact ⟨rfl, rfl⟩

/-- An entry `a/x` is added to the parent of `a`, under the name `x`. -/
theorem not_actsOnParent_tree :
    ¬ ActsOnParent SNode.treeData SNode.tree 0 [['a']] ['x'] (.add (.data 1)) := by
  rintro ⟨hc, -⟩
  have hop : (Operation.add (.data 1) : Operation ℕ).HasName := trivial
  have h := hc 1 (Namespace.leadsTo_nil_iff.1 tree_leads)
  rw [(onPath_spec (by decide) (SNode.tree_plain (by simp)) (by decide) hop).1 _ _ tree_leads] at h
  obtain ⟨hroot, -⟩ := (Operation.perform_eq_iff (by decide)).1 h
  exact absurd hroot (by decide)

end World

end OpenBinder.Catalog
