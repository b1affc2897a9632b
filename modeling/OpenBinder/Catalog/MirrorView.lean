import OpenBinder.Catalog.MirrorLaw

/-!
# The two views of a mirror

A mirror is looked at in two ways: names are walked, and its iterators are run to the end.
The walk knows every overlay, an iterator only modifies what the base gives it.

* `drain_eq`: a full iteration, in blocks of any sizes, is the base with each item modified.
* `sameView_iff`: the two views are the same exactly if every overlay that is not hidden is
  of a name the base has.
-/

namespace OpenBinder.Catalog.Mirror

open Lib List

variable {μ δ : Type} {d : Data μ δ}

/-- A full iteration: blocks of the given sizes, until there is no more. It is `none` when so
many calls do not come to the end. -/
def drain (w : World μ δ) (m : Mirror δ) (flags : Flags) (sizes : ℕ → ℕ) :
    ℕ → ℕ → IndexedIterator → Option (List (Option SString × Value δ))
  | 0, _, _ => none
  | calls + 1, i, it =>
    match m.next w flags (sizes i) it with
    | (none, items, it) => (drain w m flags sizes calls (i + 1) it).map (items ++ ·)
    | (some _, _, _) => some []

/-- An iterator over a catalog that has not changed since. -/
structure Fresh (l : List (Option SString × Value δ)) (it : IndexedIterator) : Prop where
  order : it.order = []
  count : it.count = l.length
  position : it.position ≤ l.length

theorem Fresh.next {l : List (Option SString × Value δ)} {it : IndexedIterator} (h : Fresh l it)
    (null : Option SString × Value δ) (count : ℕ) :
    Fresh l (it.next (l[·]?) null count).2.2 ∧
      l.drop it.position = (it.next (l[·]?) null count).2.1 ++
        l.drop (it.next (l[·]?) null count).2.2.position := by
  rw [IndexedIterator.next_spec null count h.order h.count h.position]
  refine ⟨⟨h.order, h.count, min_le_right ..⟩, ?_⟩
  have hdrop : l.drop (min (it.position + IndexedIterator.limit count) l.length) =
      (l.drop it.position).drop (IndexedIterator.limit count) := by
    rw [drop_drop]
    rcases Nat.le_total (it.position + IndexedIterator.limit count) l.length with hle | hle
    · rw [min_eq_left hle]
    · rw [min_eq_right hle, drop_eq_nil_of_le le_rfl, drop_eq_nil_of_le hle]
  rw [hdrop, take_append_drop]

variable {w : World μ δ} {m : Mirror δ} {flags : Flags} {name : SString} {v : Value δ}

/-- **A call of `Next`** gives what is next of the modified items, or there is nothing left. -/
theorem next_fresh (count : ℕ) {it : IndexedIterator} (h : Fresh (w.listing m.base flags) it) :
    (∃ items it', m.next w flags count it = (none, items, it') ∧
      Fresh (w.listing m.base flags) it' ∧ it.position < it'.position ∧
        ((w.listing m.base flags).drop it.position).filterMap (m.modifyItem w flags) =
          items ++ ((w.listing m.base flags).drop it'.position).filterMap (m.modifyItem w flags)) ∨
      ∃ err items it', m.next w flags count it = (some err, items, it') ∧
        ((w.listing m.base flags).drop it.position).filterMap (m.modifyItem w flags) = [] := by
  fun_induction Mirror.next w m flags count it with
  | case1 it hok hempty ih =>
    obtain ⟨hfresh, hdrop⟩ := h.next (none, .null) count
    obtain ⟨-, -, hlt⟩ := IndexedIterator.next_position hok
    -- the whole block was hidden
    have hsame : ((w.listing m.base flags).drop it.position).filterMap (m.modifyItem w flags) =
        ((w.listing m.base flags).drop (it.next ((w.listing m.base flags)[·]?) (none, .null)
          count).2.2.position).filterMap (m.modifyItem w flags) := by
      rw [hdrop, filterMap_append, isEmpty_iff.1 hempty, nil_append]
    rcases ih hfresh with ⟨items, it', he, hf, hpos, hitems⟩ | ⟨err, items, it', he, hnil⟩
    · exact .inl ⟨items, it', he, hf, hlt.trans hpos, hsame.trans hitems⟩
    · exact .inr ⟨err, items, it', he, hsame.trans hnil⟩
  | case2 it hok _ =>
    obtain ⟨hfresh, hdrop⟩ := h.next (none, .null) count
    obtain ⟨-, -, hlt⟩ := IndexedIterator.next_position hok
    refine .inl ⟨_, _, rfl, hfresh, hlt, ?_⟩
    rw [hdrop, filterMap_append]
  | case3 it hend =>
    right
    rw [IndexedIterator.next_spec _ count h.order h.count h.position] at hend ⊢
    split at hend
    · rename_i hnil
      rw [if_pos hnil]
      exact ⟨_, _, _, rfl, by rw [hnil]; rfl⟩
    · exact absurd rfl hend

/-- **A full iteration** gives every item of the base from the position on, modified; it comes
to the end in as many calls as there are items, and one more. -/
theorem drain_eq {sizes : ℕ → ℕ} (calls : ℕ) :
    ∀ (i : ℕ) {it : IndexedIterator}, Fresh (w.listing m.base flags) it →
      (w.listing m.base flags).length - it.position < calls →
        drain w m flags sizes calls i it =
          some (((w.listing m.base flags).drop it.position).filterMap (m.modifyItem w flags)) := by
  induction calls with
  | zero => intro i it _ hlt; exact absurd hlt (Nat.not_lt_zero _)
  | succ calls ih =>
    intro i it h hlt
    rw [drain]
    rcases next_fresh (sizes i) h with ⟨items, it', he, hf, hp, hitems⟩ |
      ⟨err, items, it', he, hnil⟩
    · have hp' := hf.position
      rw [he, hitems]
      dsimp only
      rw [ih (i + 1) hf (by omega), Option.map_some]
    · rw [he, hnil]

/-- What a mirror shows for an entry of the base, or of an overlay. -/
def shown (w : World μ δ) (m : Mirror δ) (name : SString) (flags : Flags) : Option (Value δ) :=
  if m.hidden.has name then none
  else
    match m.overlays.valueFor name with
    | some entry => some (overlayValue w entry flags)
    | none => ((w.entries m.base).valueFor name).map fun v => World.handOut m.base name v flags

theorem walk_base {b : ℕ} (hname : name.Single) (hflags : flags.has Flags.createMask = false)
    (node v : Value δ) :
    (((World.nodes d).walk w (.catalog b) name flags node).err = none ∧
        ((World.nodes d).walk w (.catalog b) name flags node).node = v) ↔
      ((w.entries b).valueFor name).map (fun v => World.handOut b name v flags) = some v := by
  have hfirst : (World.nodes d).first w (.catalog b) name flags node =
      ⟨w, (w.lookupEntry b name flags).err, [], (w.lookupEntry b name flags).value node⟩ := by
    simp only [Namespace.first, SString.pathRemoveRoot_name hname.no_delimiter,
      if_neg hname.no_colon, Namespace.component_eq hflags]
    rfl
  rw [Namespace.walk_eq, SString.pathRemoveRoot_name hname.no_delimiter, if_neg (not_not.2 rfl),
    hfirst]
  unfold World.lookupEntry
  cases (w.entries b).valueFor name with
  | none => simp [Lookup.err]
  | some x => simp [Lookup.err, Lookup.value]

theorem walk_name (hname : name.Single)
 (hflags : flags.has Flags.createMask = false) (node v : Value δ) :
    ((m.walk d w name flags node).err = none ∧ (m.walk d w name flags node).node = v) ↔
      m.shown w name flags = some v := by
  unfold walk shown
  dsimp only
  rw [SString.pathRemoveRoot_name hname.no_delimiter]
  cases m.hidden.has name with
  | true => simp
  | false =>
    cases m.overlays.valueFor name with
    | some entry => simp
    | none => exact walk_base hname hflags node v

theorem modifyItem_eq
 (h : (w.entries m.base).valueFor name = some v) :
    m.modifyItem w flags (some name, World.handOut m.base name v flags) =
      (m.shown w name flags).map fun x => (some name, x) := by
  unfold modifyItem shown
  dsimp only [Option.getD_some]
  cases m.hidden.has name with
  | true => rfl
  | false =>
    cases m.overlays.valueFor name with
    | some entry => rfl
    | none => rw [h]; rfl

theorem mem_items :
    (some name, v) ∈ (w.listing m.base flags).filterMap (m.modifyItem w flags) ↔
      (w.entries m.base).has name = true ∧ m.shown w name flags = some v := by
  rw [mem_filterMap, Keyed.has_iff]
  constructor
  · rintro ⟨item, hmem, hitem⟩
    obtain ⟨⟨n, x⟩, hp, rfl⟩ := mem_map.1 hmem
    have hx := Keyed.valueFor_eq_some.2 hp
    rw [modifyItem_eq hx] at hitem
    obtain ⟨y, hy, hpair⟩ := Option.map_eq_some_iff.1 hitem
    injection hpair with hn hv
    obtain ⟨⟩ := hn
    exact ⟨⟨x, hx⟩, hv ▸ hy⟩
  · rintro ⟨⟨x, hx⟩, hv⟩
    refine ⟨(some name, World.handOut m.base name x flags), ?_, ?_⟩
    · exact mem_map.2 ⟨(name, x), Keyed.valueFor_eq_some.1 hx, rfl⟩
    · rw [modifyItem_eq hx, hv, Option.map_some]

theorem nodup_items (w : World μ δ) (m : Mirror δ) (flags : Flags) :
    (((w.listing m.base flags).filterMap (m.modifyItem w flags)).map Prod.fst).Nodup := by
  have hkeys : ((w.listing m.base flags).map Prod.fst).Nodup := by
    have h := (w.entries m.base).nodup_keys.map (Option.some_injective _)
    rw [map_map] at h
    rw [World.listing, map_map]
    exact h
  have hsub : ∀ l : List (Option SString × Value δ),
      ((l.filterMap (m.modifyItem w flags)).map Prod.fst).Sublist (l.map Prod.fst) := by
    intro l
    induction l with
    | nil => exact List.Sublist.refl _
    | cons item l ih =>
      cases h : m.modifyItem w flags item with
      | none =>
        rw [filterMap_cons_none h]
        exact ih.cons _
      | some item' =>
        have hfst : item'.1 = item.1 := modifyItem_fst h
        rw [filterMap_cons_some h, map_cons, map_cons, hfst]
        exact ih.cons_cons _
  exact hkeys.sublist (hsub _)

/-- A full iteration of a mirror by a new iterator, in blocks of the given sizes. -/
def iteration (w : World μ δ) (m : Mirror δ) (flags : Flags) (sizes : ℕ → ℕ) :
    Option (List (Option SString × Value δ)) :=
  (m.newIterator w).bind fun it => drain w m flags sizes (it.count + 1) 0 it

/-- The mirror shows the base's own view of a name: a walk that begins with it is that of the
base, and an iterator leaves its item as it is. -/
structure ShowsBase (d : Data μ δ) (w : World μ δ) (m : Mirror δ) (name : SString) : Prop where
  walk : ∀ path flags node, path.pathRemoveRoot.1 = name →
    m.walk d w path flags node = (World.nodes d).walk w (.catalog m.base) path flags node
  item : ∀ flags v, m.modifyItem w flags (some name, v) = some (some name, v)

/-- **One catalog in both views**: a full iteration, in blocks of any sizes, gives each name
once, and a single name with a value exactly if walking the name succeeds with the value. A
restored or shown name is that of the base again. -/
structure SameView (d : Data μ δ) (s : State μ δ) : Prop where
  iterates : ∀ flags : Flags, flags.has Flags.createMask = false → ∀ sizes, ∃ items,
    iteration s.world s.mirror flags sizes = some items ∧ (items.map Prod.fst).Nodup ∧
      ∀ name : SString, name.Single → ∀ v node, (some name, v) ∈ items ↔
        (s.mirror.walk d s.world name flags node).err = none ∧
          (s.mirror.walk d s.world name flags node).node = v
  restores : ∀ name, s.mirror.hidden.has name = false →
    ShowsBase d s.world (s.mirror.restoreEntry name).1 name
  shows : ∀ name, s.mirror.overlays.has name = false →
    ShowsBase d s.world (s.mirror.showEntry name).1 name

/-- Every overlay of a single name that is not hidden is of a name the base has. -/
def OverlaysShown (s : State μ δ) : Prop :=
  ∀ name : SString, name.Single → s.mirror.hidden.has name = false →
    s.mirror.overlays.has name = true → (s.world.entries s.mirror.base).has name = true

theorem iteration_eq (h : m.iterable = true) (flags : Flags) (sizes : ℕ → ℕ) :
    iteration w m flags sizes =
      some ((w.listing m.base flags).filterMap (m.modifyItem w flags)) := by
  have hlen : (w.listing m.base flags).length = (w.entries m.base).items.length :=
    length_map ..
  have hfresh : Fresh (w.listing m.base flags)
      (IndexedIterator.start (w.entries m.base).items.length) :=
    ⟨rfl, hlen.symm, Nat.zero_le _⟩
  rw [iteration, newIterator, if_pos h, Option.bind_some, drain_eq _ 0 hfresh]
  · rfl
  · rw [hlen]
    exact lt_of_le_of_lt (Nat.sub_le ..) (Nat.lt_succ_self _)

theorem showsBase_of (hhidden : m.hidden.has name = false) (hover : m.overlays.valueFor name = none)
    :
    ShowsBase d w m name where
  walk := by
    rintro path flags node rfl
    simp [walk, hhidden, hover]
  item := by
    intro flags v
    simp [modifyItem, hhidden, hover]

theorem restoreEntry_showsBase (h : m.hidden.has name = false) :
    ShowsBase d w (m.restoreEntry name).1 name := by
  unfold restoreEntry
  split
  · exact showsBase_of h (by rw [Keyed.valueFor_remove, if_pos rfl])
  · rename_i hover
    exact showsBase_of h (Keyed.has_eq_false.1 (Bool.eq_false_iff.2 hover))

theorem showEntry_showsBase (h : m.overlays.has name = false) :
    ShowsBase d w (m.showEntry name).1 name := by
  have hover := Keyed.has_eq_false.1 h
  unfold showEntry
  split
  · refine showsBase_of (Keyed.has_eq_false.2 ?_) hover
    rw [Keyed.valueFor_remove, if_pos rfl]
  · rename_i hhidden
    exact showsBase_of (Bool.eq_false_iff.2 hhidden) hover

theorem shown_overlay (flags : Flags) (hhidden : m.hidden.has name = false)
    (hover : m.overlays.has name = true) :
    ∃ v, m.shown w name flags = some v := by
  obtain ⟨entry, hentry⟩ := Keyed.has_iff.1 hover
  exact ⟨overlayValue w entry flags, by simp [shown, hhidden, hentry]⟩

theorem has_of_shown
 (h : m.shown w name flags = some v) :
    (w.entries m.base).has name = true ∨
      m.hidden.has name = false ∧ m.overlays.has name = true := by
  unfold shown at h
  split at h
  · cases h
  · rename_i hhidden
    split at h
    · rename_i entry hentry
      exact .inr ⟨Bool.eq_false_iff.2 hhidden, Keyed.has_iff.2 ⟨entry, hentry⟩⟩
    · obtain ⟨x, hx, -⟩ := Option.map_eq_some_iff.1 h
      exact .inl (Keyed.has_iff.2 ⟨x, hx⟩)

/-- **The views of one state** are the same exactly if every overlay that is shown is of a
name the base has. -/
theorem sameView_iff {s : State μ δ} (h : s.mirror.iterable = true) :
    SameView d s ↔ OverlaysShown s := by
  constructor
  · intro hview name hname hhidden hover
    obtain ⟨items, hit, -, hsame⟩ := hview.iterates 0 rfl fun _ => 0
    obtain rfl := Option.some.inj ((iteration_eq h 0 _).symm.trans hit)
    obtain ⟨v, hv⟩ := shown_overlay (w := s.world) 0 hhidden hover
    have hwalk := (walk_name (d := d) hname rfl .undefined v).2 hv
    exact (mem_items.1 ((hsame name hname v .undefined).2 hwalk)).1
  · intro hover
    refine ⟨fun flags hflags sizes => ?_, fun _ => restoreEntry_showsBase,
      fun _ => showEntry_showsBase⟩
    refine ⟨_, iteration_eq h flags sizes, nodup_items .., fun name hname v node => ?_⟩
    rw [walk_name hname hflags, mem_items]
    refine ⟨And.right, fun hv => ⟨?_, hv⟩⟩
    rcases has_of_shown hv with hbase | ⟨h1, h2⟩
    · exact hbase
    · exact hover name hname h1 h2

/-- **When the two views of a mirror agree**: in every state of a run of a new mirror, exactly
if in every state each overlay that is not hidden is of a name the base has. -/
theorem sameView_iff_overlaysShown (d : Data μ δ) (w : World μ δ) (base : ℕ)
    (as : List (Action μ δ)) :
    AllStates (step d) (SameView d) ⟨w, init base⟩ as ↔
      AllStates (step d) OverlaysShown ⟨w, init base⟩ as := by
  apply allStates_congr (I := fun s => s.mirror.iterable = true) fun s h => sameView_iff h
  · intro s a s' h hs
    have hs' : s' = (perform d s a).1 := by
      cases a with
      | others w => exact (Option.some.inj (Option.ite_none_right_eq_some.1 hs).2).symm
      | _ => exact (Option.some.inj hs).symm
    rw [hs', (perform_fixed s a).2]
    exact h
  · rfl

/-- A new mirror of a catalog without entries, and a datum over a name it does not have. -/
theorem not_sameView : ¬ AllStates (step SNode.treeData) (SameView SNode.treeData)
    ⟨⟨fun _ => Keyed.empty, 1, ()⟩, init 0⟩ [.overlayEntry ['n'] (.data 1)] := by
  intro h
  have hover := (sameView_iff rfl).1 (h.2 _ rfl)
  exact absurd (hover ['n'] ⟨by decide, by decide⟩ rfl rfl) Bool.false_ne_true

end OpenBinder.Catalog.Mirror
