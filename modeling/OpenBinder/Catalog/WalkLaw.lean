import OpenBinder.Catalog.Catalog

/-!
# What a walk finds

`Resolves` says what a path means: every component is an entry of the node the one before it
names. A lookup that fails does not stop the walk, though: it goes on from what `*node`
still holds, so that a component is left out. `LeadsTo` says where that goes.

* `walk_names`: a walk finds exactly what its path leads to.
* `WalksRight`: the walk resolves its path component by component.
-/

namespace OpenBinder.Catalog

open List

variable {σ N V : Type} {ns : Namespace σ N V} {s : σ} {flags : Flags}

namespace Namespace

/-- **Component by component**: the entry that a path of names names in a node. -/
inductive Resolves (ns : Namespace σ N V) (s : σ) (flags : Flags) : N → List SString → V → Prop
  | leaf {n name v} (found : ns.lookupEntry s n name (ns.lookupFlags n true flags) = .found v) :
      Resolves ns s flags n [name] v
  | inner {n name names entry next v}
      (found : ns.lookupEntry s n name (ns.lookupFlags n false flags) = .found entry)
      (node : ns.asNode entry = some next) (more : names ≠ [])
      (rest : Resolves ns s flags next names v) : Resolves ns s flags n (name :: names) v

/-- **With components left out**: where a path leads from a node, `*node` holding a value,
when a component that is not the last and that does not exist is left out as long as `*node`
holds a node then. The second list is what is left out. -/
inductive LeadsTo (ns : Namespace σ N V) (s : σ) (flags : Flags) :
    N → V → List SString → List SString → V → Prop
  | leaf {n held name v}
      (found : ns.lookupEntry s n name (ns.lookupFlags n true flags) = .found v) :
      LeadsTo ns s flags n held [name] [] v
  | inner {n held name names entry next out v}
      (found : ns.lookupEntry s n name (ns.lookupFlags n false flags) = .found entry)
      (node : ns.asNode entry = some next) (more : names ≠ [])
      (rest : LeadsTo ns s flags next entry names out v) :
      LeadsTo ns s flags n held (name :: names) out v
  | missing {n held name names err left next out v}
      (failed : ns.lookupEntry s n name (ns.lookupFlags n false flags) = .failed err left)
      (node : ns.asNode (left.getD held) = some next) (more : names ≠ [])
      (rest : LeadsTo ns s flags next (left.getD held) names out v) :
      LeadsTo ns s flags n held (name :: names) (name :: out) v

variable {names : List SString}

theorem leadsTo_nil_iff {n : N} {held : V} {v : V} :
    ns.LeadsTo s flags n held names [] v ↔ ns.Resolves s flags n names v := by
  constructor
  · intro h
    generalize hout : ([] : List SString) = out at h
    induction h with
    | leaf found => exact .leaf found
    | inner found node more _ ih => exact .inner found node more (ih hout)
    | missing => cases hout
  · intro h
    induction h generalizing held with
    | leaf found => exact .leaf found
    | inner found node more _ ih => exact .inner found node more ih

theorem LeadsTo.unique {n : N} {held : V} {out out' : List SString} {v v' : V}
    (h : ns.LeadsTo s flags n held names out v) (h' : ns.LeadsTo s flags n held names out' v') :
    out = out' ∧ v = v' := by
  induction h generalizing out' with
  | leaf found =>
    cases h' with
    | leaf found' =>
      rw [found] at found'
      injection found' with he
      exact ⟨rfl, he⟩
    | inner _ _ more => exact absurd rfl more
    | missing _ _ more => exact absurd rfl more
  | inner found node more _ ih =>
    cases h' with
    | leaf => exact absurd rfl more
    | inner found' node' _ rest' =>
      rw [found] at found'
      injection found' with he
      subst he
      obtain ⟨⟩ := node.symm.trans node'
      exact ih rest'
    | missing failed =>
      rw [found] at failed
      cases failed
  | missing failed node more _ ih =>
    cases h' with
    | leaf => exact absurd rfl more
    | inner found' =>
      rw [failed] at found'
      cases found'
    | missing failed' node' _ rest' =>
      rw [failed] at failed'
      injection failed' with he hl
      subst hl
      obtain ⟨⟩ := node.symm.trans node'
      obtain ⟨rfl, rfl⟩ := ih rest'
      exact ⟨rfl, rfl⟩

theorem component_eq (hflags : flags.has Flags.createMask = false) (n : N) (name : SString)
    (atLeaf : Bool) (held : V) :
    ns.component s n name atLeaf flags held =
      ⟨s, (ns.lookupEntry s n name (ns.lookupFlags n atLeaf flags)).err, [],
        (ns.lookupEntry s n name (ns.lookupFlags n atLeaf flags)).value held⟩ := by
  simp [component, hflags]

section

variable (hlocal : ∀ n, ns.isRemote n = false) (hflags : flags.has Flags.createMask = false)
include hlocal hflags

theorem walk_cons {name : SString} (hname : name.Plain) (hnames : ∀ n ∈ names, SString.Plain n)
    (n : N) (held : V) :
    ns.walk s n (SString.ofNames (name :: names)) flags held =
      if names = [] then
        ⟨s, (ns.lookupEntry s n name (ns.lookupFlags n true flags)).err, [],
          (ns.lookupEntry s n name (ns.lookupFlags n true flags)).value held⟩
      else
        match ns.asNode
            ((ns.lookupEntry s n name (ns.lookupFlags n false flags)).value held) with
        | none => ⟨s, some .entryNotFound, SString.ofNames names,
            (ns.lookupEntry s n name (ns.lookupFlags n false flags)).value held⟩
        | some next => ns.walk s next (SString.ofNames names) flags
            ((ns.lookupEntry s n name (ns.lookupFlags n false flags)).value held) := by
  rw [walk]
  simp only [SString.pathRemoveRoot_ofNames hname, dif_neg hname.no_colon, component_eq hflags]
  by_cases hnil : names = []
  · subst hnil
    rfl
  · have hne := SString.ofNames_ne_nil hnil hnames
    have hleaf : (SString.ofNames names).isEmpty = false := by
      cases h : SString.ofNames names with
      | nil => exact absurd h hne
      | cons => rfl
    simp only [if_neg hnil, dif_pos hne, hleaf, hlocal]
    rfl

/-- **A walk finds what its path leads to**: over local nodes, along plain names and without
`CREATE` flags it changes nothing, and gives `B_OK` and a value if and only if the path leads
to the value, and then the whole path is done. -/
theorem walk_names (hne : names ≠ []) (hplain : ∀ n ∈ names, SString.Plain n) (n : N) (held : V) :
    (∀ out v, ns.LeadsTo s flags n held names out v →
        ns.walk s n (SString.ofNames names) flags held = ⟨s, none, [], v⟩) ∧
      ((∀ out v, ¬ ns.LeadsTo s flags n held names out v) →
        (ns.walk s n (SString.ofNames names) flags held).err ≠ none ∧
          (ns.walk s n (SString.ofNames names) flags held).state = s) := by
  induction names generalizing n held with
  | nil => exact absurd rfl hne
  | cons name names ih =>
    have hname := hplain name (mem_cons_self ..)
    have hnames : ∀ n ∈ names, SString.Plain n := fun n hn => hplain n (mem_cons_of_mem _ hn)
    rw [walk_cons hlocal hflags hname hnames]
    by_cases hnil : names = []
    · subst hnil
      rw [if_pos rfl]
      constructor
      · intro out v h
        cases h with
        | leaf found => rw [found]; rfl
        | inner _ _ more => exact absurd rfl more
        | missing _ _ more => exact absurd rfl more
      · intro hno
        refine ⟨?_, rfl⟩
        cases hl : ns.lookupEntry s n name (ns.lookupFlags n true flags) with
        | found v => exact absurd (.leaf hl) (hno [] v)
        | failed err left => exact Option.some_ne_none err
    · rw [if_neg hnil]
      have hrec := ih hnil hnames
      cases hl : ns.lookupEntry s n name (ns.lookupFlags n false flags) with
      | found entry =>
        cases hnode : ns.asNode entry with
        | none =>
          simp only [Lookup.value, hnode]
          refine ⟨fun out v h => ?_, fun _ => ⟨Option.some_ne_none _, trivial⟩⟩
          cases h with
          | leaf => exact absurd rfl hnil
          | inner found node =>
            rw [hl] at found
            injection found with he
            rw [← he, hnode] at node
            cases node
          | missing failed => rw [hl] at failed; cases failed
        | some next =>
          simp only [Lookup.value, hnode]
          constructor
          · intro out v h
            cases h with
            | leaf => exact absurd rfl hnil
            | inner found node _ rest =>
              rw [hl] at found
              injection found with he
              subst he
              obtain ⟨⟩ := hnode.symm.trans node
              exact (hrec next entry).1 out v rest
            | missing failed => rw [hl] at failed; cases failed
          · intro hno
            exact (hrec next entry).2 fun out v h => hno out v (.inner hl hnode hnil h)
      | failed err left =>
        cases hnode : ns.asNode (left.getD held) with
        | none =>
          simp only [Lookup.value, hnode]
          refine ⟨fun out v h => ?_, fun _ => ⟨Option.some_ne_none _, trivial⟩⟩
          cases h with
          | leaf => exact absurd rfl hnil
          | inner found => rw [hl] at found; cases found
          | missing failed node =>
            rw [hl] at failed
            injection failed with _ hleft
            rw [← hleft, hnode] at node
            cases node
        | some next =>
          simp only [Lookup.value, hnode]
          constructor
          · intro out v h
            cases h with
            | leaf => exact absurd rfl hnil
            | inner found => rw [hl] at found; cases found
            | missing failed node _ rest =>
              rw [hl] at failed
              injection failed with _ hleft
              subst hleft
              obtain ⟨⟩ := hnode.symm.trans node
              exact (hrec next _).1 _ v rest
          · intro hno
            exact (hrec next _).2 fun out v h => hno _ v (.missing hl hnode hnil h)

end

end Namespace

namespace SNode

variable {names : List SString}

theorem ofNames_not_root (hne : names ≠ []) (hplain : ∀ n ∈ names, SString.Plain n) :
    ¬ (SString.ofNames names = [] ∨ SString.ofNames names = [SString.pathDelimiter]) := by
  rintro (h | h)
  · exact SString.ofNames_ne_nil hne hplain h
  · obtain ⟨name, names, rfl⟩ := exists_cons_of_ne_nil hne
    have hname := hplain name (mem_cons_self ..)
    have h1 : SString.pathRemoveRoot (SString.ofNames (name :: names)) = (name, _) :=
      SString.pathRemoveRoot_ofNames hname
    rw [h] at h1
    exact hname.ne_nil (congrArg Prod.fst h1).symm

/-- **The walk resolves its path**: it gives `B_OK` and the last entry's value when every
component is an entry of the node before it, and otherwise an error and no value. -/
def WalksRight (ns : Namespace σ N V) (s : σ) (flags : Flags) (n : N) (value : V)
    (names : List SString) : Prop :=
  let w := walk ns ⟨some n, value⟩ s (SString.ofNames names) flags
  (∀ v, ns.Resolves s flags n names v → w.err = none ∧ w.node = v) ∧
    ((¬ ∃ v, ns.Resolves s flags n names v) → w.err ≠ none ∧ w.node = ns.undefined)

theorem walk_of_leadsTo (value : V) (hlocal : ∀ n, ns.isRemote n = false)
    (hflags : flags.has Flags.createMask = false) (hne : names ≠ [])
    (hplain : ∀ n ∈ names, SString.Plain n) {n : N} {out : List SString} {v : V}
    (h : ns.LeadsTo s flags n ns.undefined names out v) :
    walk ns ⟨some n, value⟩ s (SString.ofNames names) flags = ⟨s, none, [], v⟩ := by
  have hw := (ns.walk_names hlocal hflags hne hplain n ns.undefined).1 out v h
  rw [walk, if_neg (ofNames_not_root hne hplain)]
  dsimp only
  rw [walkPath]
  simp only [hw, or_true, dite_true]

theorem walk_of_not_leadsTo (hlocal : ∀ n, ns.isRemote n = false)
    (hflags : flags.has Flags.createMask = false) (hne : names ≠ [])
    (hplain : ∀ n ∈ names, SString.Plain n) {n : N} {value : V}
    (h : ∀ out v, ¬ ns.LeadsTo s flags n ns.undefined names out v) :
    (walk ns ⟨some n, value⟩ s (SString.ofNames names) flags).err ≠ none ∧
      (walk ns ⟨some n, value⟩ s (SString.ofNames names) flags).node = ns.undefined := by
  obtain ⟨herr, -⟩ := (ns.walk_names hlocal hflags hne hplain n ns.undefined).2 h
  rw [walk, if_neg (ofNames_not_root hne hplain)]
  dsimp only
  rw [walkPath]
  simp only [ne_eq, herr, not_false_eq_true, true_or, dite_true]
  split
  · rename_i hnone
    exact absurd hnone herr
  · exact ⟨Option.some_ne_none _, rfl⟩

/-- **When a walk resolves its path**: if and only if no component that does not exist is
left out on the way to something. -/
theorem walksRight_iff (ns : Namespace σ N V) (hlocal : ∀ n, ns.isRemote n = false) (s : σ)
    (flags : Flags) (hflags : flags.has Flags.createMask = false) (n : N) (value : V)
    (names : List SString) (hne : names ≠ []) (hplain : ∀ n ∈ names, SString.Plain n) :
    WalksRight ns s flags n value names ↔
      ∀ out v, ns.LeadsTo s flags n ns.undefined names out v → out = [] := by
  constructor
  · rintro ⟨-, herror⟩ out v h
    have hw := walk_of_leadsTo value hlocal hflags hne hplain h
    by_cases hres : ∃ v, ns.Resolves s flags n names v
    · obtain ⟨v', hv'⟩ := hres
      exact (h.unique (Namespace.leadsTo_nil_iff.2 hv')).1
    · have := (herror hres).1
      rw [hw] at this
      exact absurd rfl this
  · intro hnone
    refine ⟨fun v hv => ?_, fun hno => ?_⟩
    · have hw := walk_of_leadsTo value hlocal hflags hne hplain
        (Namespace.leadsTo_nil_iff.2 hv)
      rw [hw]
      exact ⟨rfl, rfl⟩
    · refine walk_of_not_leadsTo hlocal hflags hne hplain fun out v h => hno ⟨v, ?_⟩
      obtain rfl := hnone out v h
      exact Namespace.leadsTo_nil_iff.1 h

/-- The catalogs of a small tree use neither `[]` nor meta-data. -/
def treeData : Data Unit ℕ where
  raw := 0
  item := fun _ _ => .undefined
  lookupMetaEntry := fun _ _ _ _ => .failed .entryNotFound none
  touch := fun _ _ => ()

/-- A tree to walk in: the catalog 0 with an entry `a`, a catalog with an entry `b`. -/
def tree : World Unit ℕ :=
  ((World.createNode treeData ⟨fun _ => Lib.Keyed.empty, 1, ()⟩ 0 ['a']).state.addEntry treeData
    1 ['b'] (.data 7)).1

theorem tree_a : (World.nodes treeData).lookupEntry tree (.catalog 0) ['a'] 0 =
    .found (.node (.catalog 1)) := rfl

theorem tree_x : (World.nodes treeData).lookupEntry tree (.catalog 1) ['x'] 0 =
    .failed .entryNotFound none := rfl

theorem tree_b : (World.nodes treeData).lookupEntry tree (.catalog 1) ['b'] 0 =
    .found (.entryDatum 1 ['b']) := rfl

theorem tree_plain (h : names ⊆ [['a'], ['b'], ['x']]) :
    ∀ n ∈ names, SString.Plain n := by
  intro n hn
  have hmem := h hn
  simp only [mem_cons, not_mem_nil, or_false] at hmem
  obtain rfl | rfl | rfl := hmem <;> exact ⟨by decide, by decide, by decide⟩

theorem walksRight_tree : WalksRight (World.nodes treeData) tree 0 (.catalog 0) .undefined
    [['a'], ['b']] := by
  apply (walksRight_iff (World.nodes treeData) (fun _ => rfl) tree 0 rfl (.catalog 0) .undefined
    [['a'], ['b']] (cons_ne_nil _ _) (tree_plain (by simp))).2
  intro out v h
  exact (h.unique (.inner tree_a rfl (cons_ne_nil _ _) (.leaf tree_b))).1

/-- There is no `x` in the node `a`, and the walk of `a/x/b` gives the entry of `a/b`. -/
theorem not_walksRight_tree : ¬ WalksRight (World.nodes treeData) tree 0 (.catalog 0) .undefined
    [['a'], ['x'], ['b']] := by
  have hlead : (World.nodes treeData).LeadsTo tree 0 (.catalog 0) .undefined
      [['a'], ['x'], ['b']] [['x']] (.entryDatum 1 ['b']) :=
    .inner tree_a rfl (cons_ne_nil _ _)
      (.missing tree_x rfl (cons_ne_nil _ _) (.leaf tree_b))
  have hw := walk_of_leadsTo .undefined (fun _ => rfl) rfl (cons_ne_nil _ _)
    (tree_plain (by simp)) hlead
  rintro ⟨-, herror⟩
  have hno : ¬ ∃ v, (World.nodes treeData).Resolves tree 0 (.catalog 0) [['a'], ['x'], ['b']] v := by
    rintro ⟨v, hv⟩
    have := (hlead.unique (Namespace.leadsTo_nil_iff.2 hv)).1
    cases this
  have := (herror hno).1
  rw [hw] at this
  exact this rfl

end SNode

end OpenBinder.Catalog
