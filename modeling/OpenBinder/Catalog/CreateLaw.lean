import OpenBinder.Catalog.Catalog

/-!
# What a walk creates

With `CREATE` flags a walk creates a component that does not exist, in whatever node it has
come to. `createsAt` says that it takes this branch at a given node.

* `walk_rel`: what every creation does to the state, the walk does.
* `entries_walk`: a walk leaves the entries of a catalog alone if and only if it does not
  take the branch there.
-/

namespace OpenBinder.Catalog

open Lib

namespace Namespace

variable {σ N V : Type} (ns : Namespace σ N V)

/-- The first component of a walk: in the attributes or in the node itself. -/
def first (s : σ) (n : N) (path : SString) (flags : Flags) (node : V) : Walked σ V :=
  if path.pathRemoveRoot.1.head? = some ':' then
    match ns.attributes n with
    | none => ⟨s, some .entryNotFound, [], node⟩
    | some attrs =>
      if path.pathRemoveRoot.1.length = 1 then ⟨s, none, [], ns.binder attrs⟩
      else ns.walk s attrs path.pathRemoveRoot.1.tail flags node
  else
    ns.component s n path.pathRemoveRoot.1 path.pathRemoveRoot.2.isEmpty flags node

theorem walk_eq (s : σ) (n : N) (path : SString) (flags : Flags) (node : V) :
    ns.walk s n path flags node =
      if path.pathRemoveRoot.2 ≠ [] then
        match ns.asNode (ns.first s n path flags node).node with
        | none => ⟨(ns.first s n path flags node).state, some .entryNotFound,
            path.pathRemoveRoot.2, (ns.first s n path flags node).node⟩
        | some next =>
          if ns.isRemote next then ⟨(ns.first s n path flags node).state,
            (ns.first s n path flags node).err, path.pathRemoveRoot.2,
            (ns.first s n path flags node).node⟩
          else ns.walk (ns.first s n path flags node).state next path.pathRemoveRoot.2 flags
            (ns.first s n path flags node).node
      else ⟨(ns.first s n path flags node).state, (ns.first s n path flags node).err, [],
        (ns.first s n path flags node).node⟩ := by
  rw [walk]
  rfl

theorem length_attribute {path : SString} (h : path.pathRemoveRoot.1.head? = some ':') :
    path.pathRemoveRoot.1.tail.length < path.length := by
  have h1 := path.length_pathRemoveRoot_fst
  have h2 : path.pathRemoveRoot.1 ≠ [] := by
    intro hnil
    rw [hnil] at h
    cases h
  have h3 := List.length_pos_of_ne_nil h2
  rw [List.length_tail]
  omega

theorem length_rest {path : SString} (h : path.pathRemoveRoot.2 ≠ []) :
    path.pathRemoveRoot.2.length < path.length := by
  have h1 := path.length_pathRemoveRoot
  have h2 := List.length_pos_of_ne_nil h
  omega

/-- **Whether the walk takes the branch that creates an entry at the node `b`**: there it
looks up a component that does not exist, with `CREATE` flags. -/
def createsAt [DecidableEq N] (b : N) (s : σ) (n : N) (path : SString) (flags : Flags)
    (node : V) : Bool :=
  let here : Bool :=
    if _hcolon : path.pathRemoveRoot.1.head? = some ':' then
      match ns.attributes n with
      | none => false
      | some attrs =>
        if path.pathRemoveRoot.1.length = 1 then false
        else createsAt b s attrs path.pathRemoveRoot.1.tail flags node
    else
      decide (n = b) && flags.has Flags.createMask &&
        decide ((ns.lookupEntry s n path.pathRemoveRoot.1
          (ns.lookupFlags n path.pathRemoveRoot.2.isEmpty flags)).err = some .entryNotFound)
  here ||
    if _hrest : path.pathRemoveRoot.2 ≠ [] then
      match ns.asNode (ns.first s n path flags node).node with
      | none => false
      | some next =>
        if ns.isRemote next then false
        else createsAt b (ns.first s n path flags node).state next path.pathRemoveRoot.2 flags
          (ns.first s n path flags node).node
    else false
termination_by path.length
decreasing_by
  · exact length_attribute _hcolon
  · exact length_rest _hrest

theorem state_component {R : σ → σ → Prop} (hrefl : ∀ s, R s s)
    (hnode : ∀ s n name, R s (ns.createNode s n name).state)
    (hdatum : ∀ s n name flags, R s (ns.createDatum s n name flags).state)
    (s : σ) (n : N) (name : SString) (atLeaf : Bool) (flags : Flags) (node : V) :
    R s (ns.component s n name atLeaf flags node).state := by
  have hcreated : ∀ (made : Made σ V) flags node, (ns.created n made flags node).state = made.state := by
    intro made flags node
    unfold created
    split <;> rfl
  unfold component
  dsimp only
  split
  · unfold create
    split
    · rw [hcreated]; exact hdatum ..
    · rw [hcreated]; exact hnode ..
  · exact hrefl s

/-- **What every creation does to the state, a walk does**, if it can be done repeatedly. -/
theorem walk_rel {R : σ → σ → Prop} (hrefl : ∀ s, R s s)
    (htrans : ∀ {s s' s''}, R s s' → R s' s'' → R s s'')
    (hnode : ∀ s n name, R s (ns.createNode s n name).state)
    (hdatum : ∀ s n name flags, R s (ns.createDatum s n name flags).state)
    (flags : Flags) (path : SString) : ∀ (s : σ) (n : N) (node : V),
      R s (ns.walk s n path flags node).state := by
  induction hl : path.length using Nat.strong_induction_on generalizing path with
  | _ l ih =>
    intro s n node
    have hfirst : R s (ns.first s n path flags node).state := by
      unfold first
      split
      · rename_i hcolon
        split
        · exact hrefl s
        · split
          · exact hrefl s
          · exact ih _ (hl ▸ length_attribute hcolon) _ rfl ..
      · exact ns.state_component hrefl hnode hdatum ..
    rw [walk_eq]
    split
    · rename_i hrest
      split
      · exact hfirst
      · split
        · exact hfirst
        · exact htrans hfirst (ih _ (hl ▸ length_rest hrest) _ rfl ..)
    · exact hfirst

end Namespace

namespace World

variable {μ δ : Type} {d : Data μ δ}

/-- Catalogs are only created, and entries only added. -/
structure Grows (w w' : World μ δ) : Prop where
  next : w.next ≤ w'.next
  has : ∀ b < w.next, ∀ name, (w.entries b).has name = true → (w'.entries b).has name = true

theorem Grows.refl (w : World μ δ) : Grows w w := ⟨le_rfl, fun _ _ _ h => h⟩

variable {w : World μ δ} {name : SString} {b : ℕ} {n : NodeId} {flags : Flags} {node : Value δ}

theorem Grows.trans {w' w'' : World μ δ} (h : Grows w w') (h' : Grows w' w'') : Grows w w'' where
  next := h.next.trans h'.next
  has := fun b hb name hn => h'.has b (lt_of_lt_of_le hb h.next) name (h.has b hb name hn)

theorem has_add {t : Entries δ} {name' : SString} {v : Value δ} :
    (t.add name v).has name' = true ↔ name' = name ∨ t.has name' = true := by
  rw [Keyed.has_iff, Keyed.has_iff, Keyed.valueFor_add]
  split
  · rename_i h
    exact ⟨fun _ => .inl h, fun _ => ⟨v, rfl⟩⟩
  · rename_i h
    exact ⟨.inr, fun h' => h'.resolve_left h⟩

theorem instantiate_entries (w : World μ δ) (hb : b < w.next) :
    w.instantiate.entries b = w.entries b := by
  have hne : b ≠ w.next := by omega
  simp [instantiate, hne]

theorem grows_store (w : World μ δ) (id : ℕ) (name : SString) (v : Value δ) :
    Grows w (w.store d id ((w.entries id).add name v)) where
  next := le_rfl
  has := by
    intro b _ name' h
    rw [store_entries]
    split
    · rename_i hb
      exact has_add.2 (.inr (hb ▸ h))
    · exact h

theorem grows_instantiate (w : World μ δ) : Grows w w.instantiate where
  next := Nat.le_succ _
  has := fun b hb name h => by rw [instantiate_entries w hb]; exact h

theorem grows_createNode (w : World μ δ) (n : NodeId) (name : SString) :
    Grows w ((nodes d).createNode w n name).state := by
  cases n with
  | attributes of => exact .refl w
  | catalog id =>
    show Grows w (w.createNode d id name).state
    unfold createNode
    split
    · exact .refl w
    · exact (grows_instantiate w).trans (grows_store ..)

theorem grows_createDatum (w : World μ δ) (n : NodeId) (name : SString) (flags : Flags) :
    Grows w ((nodes d).createDatum w n name flags).state := by
  cases n with
  | attributes of => exact .refl w
  | catalog id =>
    show Grows w (w.createDatum d id name).state
    unfold createDatum
    split
    · exact .refl w
    · exact grows_store ..

theorem grows_walk (w : World μ δ) (n : NodeId) (path : SString) (flags : Flags)
    (node : Value δ) : Grows w ((nodes d).walk w n path flags node).state :=
  (nodes d).walk_rel Grows.refl Grows.trans (fun w n name => grows_createNode w n name)
    (fun w n name flags => grows_createDatum w n name flags) flags path w n node

theorem createNode_frame (w : World μ δ) (hb : b < w.next) (hn : n ≠ .catalog b) (name : SString) :
    ((nodes d).createNode w n name).state.entries b = w.entries b := by
  cases n with
  | attributes of => rfl
  | catalog id =>
    have hid : b ≠ id := fun h => hn (h ▸ rfl)
    show (w.createNode d id name).state.entries b = _
    unfold createNode
    split
    · rfl
    · dsimp only
      rw [store_entries, if_neg hid, instantiate_entries w hb]

theorem createDatum_frame (w : World μ δ) (hn : n ≠ .catalog b) (name : SString) (flags : Flags) :
    ((nodes d).createDatum w n name flags).state.entries b = w.entries b := by
  cases n with
  | attributes of => rfl
  | catalog id =>
    have hid : b ≠ id := fun h => hn (h ▸ rfl)
    show (w.createDatum d id name).state.entries b = _
    unfold createDatum
    split
    · rfl
    · dsimp only
      rw [store_entries, if_neg hid]

theorem createNode_has (w : World μ δ) (b : ℕ) (name : SString) :
    (((nodes d).createNode w (.catalog b) name).state.entries b).has name = true := by
  show ((w.createNode d b name).state.entries b).has name = true
  unfold createNode
  split
  · rename_i h; exact h
  · dsimp only
    rw [store_entries_self]
    exact has_add.2 (.inl rfl)

theorem createDatum_has (w : World μ δ) (b : ℕ) (name : SString) (flags : Flags) :
    (((nodes d).createDatum w (.catalog b) name flags).state.entries b).has name = true := by
  show ((w.createDatum d b name).state.entries b).has name = true
  unfold createDatum
  split
  · rename_i h; exact h
  · dsimp only
    rw [store_entries_self]
    exact has_add.2 (.inl rfl)

theorem state_created (n : NodeId) (made : Made (World μ δ) (Value δ)) (flags : Flags)
    (node : Value δ) : ((nodes d).created n made flags node).state = made.state := by
  unfold Namespace.created
  split <;> rfl

theorem lookup_notFound (w : World μ δ) (b : ℕ) (name : SString) (flags : Flags) :
    ((nodes d).lookupEntry w (.catalog b) name flags).err = some .entryNotFound ↔
      (w.entries b).has name = false := by
  show (w.lookupEntry b name flags).err = _ ↔ _
  rw [Keyed.has_eq_false]
  unfold lookupEntry
  cases (w.entries b).valueFor name with
  | none => simp [Lookup.err]
  | some v => simp [Lookup.err]

/-- The branch is taken for this component. -/
abbrev CreatesHere (d : Data μ δ) (b : ℕ) (w : World μ δ) (n : NodeId) (name : SString)
    (atLeaf : Bool) (flags : Flags) : Prop :=
  n = .catalog b ∧ flags.has Flags.createMask = true ∧
    ((nodes d).lookupEntry w n name ((nodes d).lookupFlags n atLeaf flags)).err =
      some .entryNotFound

theorem component_creates {atLeaf : Bool}
 (h : CreatesHere d b w n name atLeaf flags) :
    (w.entries b).has name = false ∧
      (((nodes d).component w n name atLeaf flags node).state.entries b).has name = true := by
  obtain ⟨rfl, hmask, hmiss⟩ := h
  refine ⟨(lookup_notFound ..).1 hmiss, ?_⟩
  rw [Namespace.component]
  simp only [hmiss, hmask, decide_true, Bool.and_self, if_true]
  unfold Namespace.create
  split
  · rw [state_created]; exact createDatum_has ..
  · rw [state_created]; exact createNode_has ..

/-- A component that does not take the branch leaves the entries of the catalog alone. -/
theorem component_frame (hb : b < w.next) {atLeaf : Bool}
    (h : ¬ CreatesHere d b w n name atLeaf flags) :
    ((nodes d).component w n name atLeaf flags node).state.entries b = w.entries b := by
  rw [Namespace.component]
  split
  · rename_i hcond
    rw [Bool.and_eq_true, decide_eq_true_eq] at hcond
    have hn : n ≠ .catalog b := fun hn => h ⟨hn, hcond.2, hcond.1⟩
    unfold Namespace.create
    split
    · rw [state_created]; exact createDatum_frame w hn ..
    · rw [state_created]; exact createNode_frame w hb hn ..
  · rfl

/-- What a part of a walk does to a catalog, `creates` telling whether it creates there. -/
structure Creation (b : ℕ) (w w' : World μ δ) (creates : Bool) : Prop where
  keeps : creates = false → w'.entries b = w.entries b
  adds : creates = true →
    ∃ name, (w.entries b).has name = false ∧ (w'.entries b).has name = true

theorem Creation.refl (b : ℕ) (w : World μ δ) : Creation b w w false :=
  ⟨fun _ => rfl, fun h => absurd h Bool.false_ne_true⟩

theorem Creation.trans {w' w'' : World μ δ} {c c' : Bool} (hb : b < w'.next) (h : Creation b w w' c)
    (h' : Creation b w' w'' c') (hg : Grows w' w'') :
    Creation b w w'' (c || c') where
  keeps := by
    intro hc
    rw [Bool.or_eq_false_iff] at hc
    rw [h'.keeps hc.2, h.keeps hc.1]
  adds := by
    intro hc
    cases hcc : c with
    | true =>
      obtain ⟨name, h1, h2⟩ := h.adds hcc
      exact ⟨name, h1, hg.has b hb name h2⟩
    | false =>
      rw [hcc, Bool.false_or] at hc
      obtain ⟨name, h1, h2⟩ := h'.adds hc
      rw [h.keeps hcc] at h1
      exact ⟨name, h1, h2⟩

/-- **What a walk creates in a catalog**: it leaves the entries of a catalog alone when it
does not take the branch that creates there; otherwise it adds a name. -/
theorem creation_walk (path : SString) : ∀ {w : World μ δ} {n : NodeId} {node : Value δ}
    , b < w.next →
      Creation b w ((nodes d).walk w n path flags node).state
        ((nodes d).createsAt (.catalog b) w n path flags node) := by
  induction hl : path.length using Nat.strong_induction_on generalizing path with
  | _ l ih =>
    intro w n node hb
    rw [Namespace.walk_eq, Namespace.createsAt]
    have hgrow : Grows w ((nodes d).first w n path flags node).state := by
      unfold Namespace.first
      split
      · split
        · exact .refl w
        · split
          · exact .refl w
          · exact grows_walk ..
      · exact (nodes d).state_component Grows.refl (fun w n name => grows_createNode w n name)
          (fun w n name flags => grows_createDatum w n name flags) ..
    -- the first component, and then the rest of the path from what was found
    have hb' : b < ((nodes d).first w n path flags node).state.next :=
      lt_of_lt_of_le hb hgrow.next
    refine Creation.trans hb' ?_ ?_ ?_
    · unfold Namespace.first
      split
      · rename_i hcolon
        split
        · exact .refl b w
        · split
          · exact .refl b w
          · exact ih _ (hl ▸ Namespace.length_attribute hcolon) _ rfl hb
      · constructor
        · intro hc
          apply component_frame hb
          rintro ⟨h1, h2, h3⟩
          rw [h3] at hc
          simp [h1, h2] at hc
        · intro hc
          simp only [Bool.and_eq_true, decide_eq_true_eq] at hc
          exact ⟨_, component_creates ⟨hc.1.1, hc.1.2, hc.2⟩⟩
    · split
      · rename_i hrest
        split
        · exact .refl ..
        · split
          · exact .refl ..
          · exact ih _ (hl ▸ Namespace.length_rest hrest) _ rfl hb'
      · exact .refl ..
    · split
      · split
        · exact .refl _
        · split
          · exact .refl _
          · exact grows_walk ..
      · exact .refl _

theorem entries_walk {path : SString}
 (hb : b < w.next) :
    ((nodes d).walk w n path flags node).state.entries b = w.entries b ↔
      (nodes d).createsAt (.catalog b) w n path flags node = false := by
  have h : Creation b w ((nodes d).walk w n path flags node).state _ := creation_walk path hb
  refine ⟨fun he => ?_, h.keeps⟩
  rw [Bool.eq_false_iff]
  intro hc
  obtain ⟨name, h1, h2⟩ := h.adds hc
  rw [he, h1] at h2
  exact Bool.false_ne_true h2

/-- At a catalog a single name is created if it is asked for and does not exist. -/
theorem createsAt_name (w : World μ δ) (b : ℕ) (hname : name.Single) (flags : Flags)
    (node : Value δ) : (nodes d).createsAt (.catalog b) w (.catalog b) name flags node =
      (flags.has Flags.createMask && !(w.entries b).has name) := by
  rw [Namespace.createsAt]
  simp only [SString.pathRemoveRoot_name hname.no_delimiter, dif_neg hname.no_colon, ne_eq, not_true_eq_false,
    dite_false, Bool.or_false, decide_true, Bool.true_and]
  congr 1
  rw [Bool.eq_iff_iff, decide_eq_true_eq, lookup_notFound, Bool.not_eq_true']

end World

end OpenBinder.Catalog
