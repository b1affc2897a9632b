import Mathlib.Data.List.TakeWhile
import OpenBinder.Datum.IndexedTable

/-!
# Objects that follow their rows

* `Slots.edited`: the objects of a vector after an edit, and `updateDatumIndices_eq`,
  `updateEntryIndices_eq`: when the loops give that.
* `Slots.Follows`: every object follows its row or column, and `Follows.edited`: an edit keeps it.
* `follows_of_covered`: in a run of steps that are `Covered`, every object follows its row and column.
-/

namespace OpenBinder

open Lib List

namespace Slots

variable {α : Type} {s s' : Slots α} {n n' : ℕ} {K K' : α → Prop} {e : Edit} {entry : ℕ × Slot α}
  {l front rest : List (ℕ × Slot α)}

/-- **Every object follows its row or column**, of which there are `n`: `m_index` and the key are where
that is, and those that were removed have none. -/
structure Follows (s : Slots α) (n : ℕ) (K : α → Prop) : Prop where
  sorted : s.entries.Pairwise fun a b => a.1 < b.1
  there : ∀ entry ∈ s.entries, entry.1 < n ∧ entry.2.index = some entry.1 ∧
    entry.2.place = some entry.1 ∧ K entry.2.kept
  gone : ∀ o ∈ s.removed, o.index = none ∧ o.place = none

/-- An object after an edit, if it stays. -/
def moved (e : Edit) (entry : ℕ × Slot α) : Option (ℕ × Slot α) :=
  (e.follow entry.1).map fun k => (k, { entry.2 with index := some k })

/-- An object that is removed by an edit. -/
def dropped (e : Edit) (entry : ℕ × Slot α) : Option (Slot α) :=
  if e.follow entry.1 = none then some { entry.2 with index := none } else none

/-- The objects after an edit. -/
def edited (e : Edit) (s : Slots α) : Slots α :=
  ⟨s.table.map (List.filterMap (moved e)), s.removed ++ s.entries.filterMap (dropped e)⟩

theorem moved_of_lt (hidx : entry.2.index = some entry.1) (h : entry.1 < e.index) :
    moved e entry = some entry ∧ dropped e entry = none := by
  unfold moved dropped Edit.follow
  rw [if_pos h, Option.map_some, ← hidx]
  exact ⟨rfl, if_neg (hidx ▸ nofun)⟩

theorem entries_map (f : List (ℕ × Slot α) → List (ℕ × Slot α)) (hf : f [] = [])
    (removed : List (Slot α)) : entries ⟨s.table.map f, removed⟩ = f s.entries := by
  unfold entries
  cases s.table with
  | none => exact hf.symm
  | some l => rfl

theorem Follows.edited (h : s.Follows n K) (hv : e.Valid n) :
    ((s.edited e).followed e).Follows (n + e.more - e.less) K := by
  obtain ⟨hle, -⟩ := hv
  refine ⟨?_, fun b hb => ?_, fun o ho => ?_⟩
  · rw [followed, entries_map _ rfl, pairwise_map, Slots.edited, entries_map _ rfl]
    refine h.sorted.filterMap _ fun a a' hlt b hb b' hb' => ?_
    obtain ⟨k, hk, rfl⟩ := Option.map_eq_some_iff.1 hb
    obtain ⟨k', hk', rfl⟩ := Option.map_eq_some_iff.1 hb'
    unfold Edit.follow at hk hk'
    show k < k'
    grind
  · rw [followed, entries_map _ rfl, Slots.edited, entries_map _ rfl] at hb
    obtain ⟨c, hc, rfl⟩ := mem_map.1 hb
    obtain ⟨a, ha, hm⟩ := mem_filterMap.1 hc
    obtain ⟨k, hk, rfl⟩ := Option.map_eq_some_iff.1 hm
    obtain ⟨hlt, -, hplace, hkept⟩ := h.there a ha
    refine ⟨?_, rfl, ?_, hkept⟩
    · unfold Edit.follow at hk
      grind
    · show a.2.place.bind e.follow = some k
      rw [hplace]
      exact hk
  · obtain ⟨o', ho', rfl⟩ := mem_map.1 ho
    rcases mem_append.1 ho' with ho | ho
    · obtain ⟨hindex, hplace⟩ := h.gone o' ho
      exact ⟨hindex, by rw [hplace]; rfl⟩
    · obtain ⟨a, ha, hd⟩ := mem_filterMap.1 ho
      unfold dropped at hd
      split at hd
      · rename_i hgone
        obtain ⟨⟩ := hd
        refine ⟨rfl, ?_⟩
        show a.2.place.bind e.follow = none
        rw [(h.there a ha).2.2.1]
        exact hgone
      · exact absurd hd nofun

variable {index : ℕ}

theorem le_of_mem_dropWhile (hs : l.Pairwise fun a b => a.1 < b.1)
    (hmem : entry ∈ l.dropWhile (·.1 < index)) : index ≤ entry.1 := by
  induction l with
  | nil => exact absurd hmem not_mem_nil
  | cons a l ih =>
    obtain ⟨hlt, hs⟩ := pairwise_cons.1 hs
    rw [dropWhile_cons] at hmem
    split at hmem
    · exact ih hs hmem
    · rename_i hge
      have hge : index ≤ a.1 := by simpa using hge
      rcases mem_cons.1 hmem with rfl | hmem
      · exact hge
      · exact hge.trans (hlt entry hmem).le

/-- The ceiling of an index: all in front of it are, and none of the others if one is not. -/
theorem splitAtCeil_spec (h : splitAtCeil index l = some (front, rest)) :
    l = front ++ rest ∧ (∀ entry ∈ front, entry.1 < index) ∧
      (l.dropWhile (·.1 < index) ≠ [] → rest = l.dropWhile (·.1 < index)) := by
  unfold splitAtCeil at h
  split at h
  · exact absurd h nofun
  split at h
  · rename_i hall
    obtain ⟨⟩ := h
    refine ⟨?_, fun entry hmem => ?_, fun h => absurd hall h⟩
    · rw [dropLast_eq_take, take_append_drop]
    · simpa using dropWhile_eq_nil_iff.1 hall entry ((dropLast_sublist l).subset hmem)
  · obtain ⟨⟩ := h
    exact ⟨takeWhile_append_dropWhile.symm,
      fun entry hmem => by simpa using mem_takeWhile_imp hmem, fun _ => rfl⟩

/-- A loop that gives what the edit leaves of the objects from the ceiling on. -/
theorem update_eq (hidx : ∀ entry ∈ s.entries, entry.2.index = some entry.1)
    {loop : List (ℕ × Slot α) → Option (List (ℕ × Slot α) × List (Slot α))}
    (hloop : ∀ front rest, splitAtCeil e.index s.entries = some (front, rest) →
      ∀ r, loop rest = some r → r = (rest.filterMap (moved e), rest.filterMap (dropped e)))
    (h : s.update e.index loop = some s') : s' = s.edited e := by
  obtain ⟨table, removed⟩ := s
  unfold update at h
  unfold Slots.edited
  rcases table with _ | l
  · obtain ⟨⟩ := h
    simp [entries]
  · simp only [entries, Option.getD_some] at h hidx hloop ⊢
    rcases hceil : splitAtCeil e.index l with _ | ⟨front, rest⟩
    · rw [hceil] at h
      obtain ⟨⟩ := h
      obtain rfl : l = [] := by
        unfold splitAtCeil at hceil
        grind
      simp
    · rw [hceil] at h
      obtain ⟨r, hr, h⟩ := Option.bind_eq_some_iff.1 h
      obtain rfl := hloop front rest hceil r hr
      obtain ⟨⟩ := h
      obtain ⟨rfl, hlt, -⟩ := splitAtCeil_spec hceil
      have hfront := fun entry hmem => moved_of_lt (e := e)
        (hidx entry (mem_append_left _ hmem)) (hlt entry hmem)
      rw [Option.map_some, filterMap_append, filterMap_append,
        filterMap_congr fun x hx => (hfront x hx).1, filterMap_some,
        filterMap_eq_nil_iff.2 fun x hx => (hfront x hx).2, nil_append]

theorem datumLoop_eq (hv : e.Valid n)
    (hidx : ∀ entry ∈ l, entry.1 < n ∧ entry.2.index = some entry.1) :
    datumLoop e.index e.delta l = (l.filterMap (moved e), l.filterMap (dropped e)) := by
  obtain ⟨hle, hmax⟩ := hv
  induction l with
  | nil => rfl
  | cons entry l ih =>
    obtain ⟨hlt, hself⟩ := hidx entry mem_cons_self
    rw [datumLoop, ih fun x hx => hidx x (mem_cons_of_mem _ hx)]
    have hcond : (e.delta < 0 ∧ entry.1 < size (e.index - e.delta)) ↔
        e.delta < 0 ∧ entry.1 < e.index + e.less := by
      refine and_congr_right fun hneg => ?_
      rw [size_of_lt] <;> unfold Edit.less at * <;> omega
    by_cases hfront : entry.1 < e.index
    · obtain ⟨hm, hd⟩ := moved_of_lt hself hfront
      simp only [if_pos hfront, filterMap_cons, hm, hd]
    · simp only [if_neg hfront, hcond, filterMap_cons, moved, dropped, Edit.follow]
      by_cases hin : entry.1 < e.index + e.less
      · have hneg : e.delta < 0 := by unfold Edit.less at hin; omega
        simp [hneg, hin]
      · have hshift : (size (entry.1 + e.delta)).toNat = entry.1 + e.more - e.less := by
          rw [size_of_lt] <;> unfold Edit.less Edit.more at * <;> omega
        simp [hin, shift, hshift]

theorem updateDatumIndices_eq (h : s.Follows n K) (hv : e.Valid n) :
    s.updateDatumIndices e.index e.delta = s.edited e := by
  have hsome : ∃ s', (s.update e.index fun l => some (datumLoop e.index e.delta l)) = some s' := by
    unfold update
    split
    · exact ⟨_, rfl⟩
    · split
      · exact ⟨_, rfl⟩
      · exact ⟨_, rfl⟩
  obtain ⟨s', hs'⟩ := hsome
  rw [updateDatumIndices, hs', Option.getD_some]
  refine update_eq (fun x hx => (h.there x hx).2.1) (fun front rest hceil r hr => ?_) hs'
  obtain ⟨⟩ := hr
  refine datumLoop_eq hv fun x hx => ?_
  have hx := h.there x ((splitAtCeil_spec hceil).1 ▸ mem_append_right _ hx)
  exact ⟨hx.1, hx.2.1⟩

theorem entryLoop_eq (hv : e.Valid n) (hneg : e.delta < 0) (turns : ℕ)
    (hall : ∀ entry ∈ l, e.index ≤ entry.1 ∧ entry.1 < e.index + e.less) :
    entryLoop e.index e.delta turns l = if l.length ≤ turns then
      some (l.filterMap (moved e), l.filterMap (dropped e)) else none := by
  obtain ⟨hle, hmax⟩ := hv
  induction l generalizing turns with
  | nil =>
    simp [entryLoop]
  | cons entry l ih =>
    cases turns with
    | zero => rfl
    | succ turns =>
      obtain ⟨hge, hlt⟩ := hall entry mem_cons_self
      have hfollow : e.follow entry.1 = none := by
        rw [Edit.follow, if_neg (not_lt.2 hge), if_pos hlt]
      have hin : (entry.1 : ℤ) < size (e.index - e.delta) := by
        rw [size_of_lt] <;> unfold Edit.less at * <;> omega
      rw [entryLoop, if_pos hge, if_pos ⟨hneg, hin⟩,
        ih _ fun x hx => hall x (mem_cons_of_mem _ hx), length_cons]
      simp only [Nat.add_le_add_iff_right, filterMap_cons, moved, dropped, hfollow,
        Option.map_none, if_true]
      split <;> rfl

/-- Rows are removed, of which one has a node, and behind which none has. -/
def Clears (e : Edit) (s : Slots α) : Prop :=
  s.entries = [] ∨ e.delta < 0 ∧ (∃ entry ∈ s.entries, e.index ≤ entry.1) ∧
    ∀ entry ∈ s.entries, entry.1 < e.index + e.less

theorem updateEntryIndices_eq (h : s.Follows n K) (hv : e.Valid n) (hclears : Clears e s) :
    (∃ turns s', s.updateEntryIndices e.index e.delta turns = some s') ∧
      ∀ turns s', s.updateEntryIndices e.index e.delta turns = some s' → s' = s.edited e := by
  have hloop : ∀ front rest, splitAtCeil e.index s.entries = some (front, rest) → ∀ turns,
      entryLoop e.index e.delta turns rest = if rest.length ≤ turns then
        some (rest.filterMap (moved e), rest.filterMap (dropped e)) else none := by
    intro front rest hceil turns
    obtain ⟨heq, -, hrest⟩ := splitAtCeil_spec hceil
    rcases hclears with hnil | ⟨hneg, ⟨entry, hmem, hge⟩, hall⟩
    · rw [hnil] at hceil
      exact absurd hceil nofun
    · -- there is a node behind the index, so its ceiling is the first one
      have hne : s.entries.dropWhile (·.1 < e.index) ≠ [] := fun hnil => by
        have := dropWhile_eq_nil_iff.1 hnil entry hmem
        simp only [decide_eq_true_eq] at this
        omega
      obtain rfl := hrest hne
      exact entryLoop_eq hv hneg turns fun x hx => ⟨le_of_mem_dropWhile h.sorted hx,
        hall x ((dropWhile_suffix _).subset hx)⟩
  refine ⟨?_, fun turns s' => update_eq (fun x hx => (h.there x hx).2.1) fun front rest hceil r hr => ?_⟩
  · unfold updateEntryIndices update
    unfold entries at hloop
    split
    · exact ⟨0, _, rfl⟩
    · rename_i l heq
      rw [heq, Option.getD_some] at hloop
      split
      · exact ⟨0, _, rfl⟩
      · rename_i front rest hceil
        refine ⟨rest.length, ?_⟩
        rw [hloop front rest hceil, if_pos le_rfl]
        exact ⟨_, rfl⟩
  · rw [hloop front rest hceil] at hr
    split at hr
    · exact (Option.some.inj hr).symm
    · exact absurd hr nofun

theorem Follows.modify (h : s.Follows n K) (f : ℕ → α → α)
    (hf : ∀ key kept, K kept → K' (f key kept)) : (s.modify f).Follows n K' := by
  refine ⟨?_, fun b hb => ?_, h.gone⟩
  · rw [Slots.modify, entries_map _ rfl, pairwise_map]
    exact h.sorted
  · rw [Slots.modify, entries_map _ rfl] at hb
    obtain ⟨a, ha, rfl⟩ := mem_map.1 hb
    obtain ⟨hlt, hindex, hplace, hkept⟩ := h.there a ha
    exact ⟨hlt, hindex, hplace, hf _ _ hkept⟩

theorem Follows.drop (h : s.Follows n K) (index : ℕ) : (s.drop index).Follows n K := by
  have hentries : (s.drop index).entries = s.entries.filter (·.1 ≠ index) := by
    unfold Slots.drop entries
    grind
  have hsub : (s.drop index).entries.Sublist s.entries := hentries ▸ filter_sublist
  exact ⟨h.sorted.sublist hsub, fun b hb => h.there b (hsub.subset hb), h.gone⟩

theorem Follows.objectAt (h : s.Follows n K) {kept : α} (hlt : index < n) (hkept : K kept) :
    (s.objectAt index kept).Follows n K := by
  unfold Slots.objectAt
  split
  · exact h
  rename_i hno
  refine ⟨pairwise_append.2 ⟨h.sorted.sublist (List.takeWhile_prefix _).sublist,
    pairwise_cons.2 ⟨fun b hb => ?_, h.sorted.sublist (dropWhile_suffix _).sublist⟩,
    fun a ha b hb => ?_⟩, fun b hb => ?_, h.gone⟩
  · refine lt_of_le_of_ne (le_of_mem_dropWhile h.sorted hb) fun heq => hno ?_
    rw [any_eq_true]
    exact ⟨b, (dropWhile_suffix _).subset hb, by simpa using heq.symm⟩
  · have hlt : a.1 < index := by simpa using mem_takeWhile_imp ha
    rcases mem_cons.1 hb with rfl | hb
    · exact hlt
    · exact hlt.trans_le (le_of_mem_dropWhile h.sorted hb)
  · rcases mem_append.1 hb with hb | hb
    · exact h.there b ((List.takeWhile_prefix _).subset hb)
    · rcases mem_cons.1 hb with rfl | hb
      · exact ⟨hlt, rfl, rfl, hkept⟩
      · exact h.there b ((dropWhile_suffix _).subset hb)

end Slots

namespace BIndexedTableNode

open Slots

variable {t t' : BIndexedTableNode} {row : ℕ}

/-- **Every node follows its row, and every datum its column.** -/
def Denotes (t : BIndexedTableNode) : Prop :=
  t.nodes.Follows t.rows fun datums => datums.Follows t.columns fun _ => True

/-- What is fetched of a row: its cell for each column. -/
def Collapsed (t : BIndexedTableNode) (v : TableVirtuals) (data : Bool) (row : ℕ)
    (items : List (SValue × SValue)) : Prop :=
  items = (List.range t.columns).map fun c => (v.name c, v.cell data row c)

/-- **What a step is to do**: it ends, the objects follow after it, and a row that is fetched is whole. -/
def Does (t : BIndexedTableNode) (a : Act) : Prop :=
  t.Possible a → (∃ turns r, t.perform turns a = some r) ∧
    ∀ turns items t', t.perform turns a = some (items, t') → t'.Denotes ∧
      ∀ v data row, a = .fetch v data row → t.Collapsed v data row items

/-- The steps that do so. -/
def Covered (t : BIndexedTableNode) : Act → Prop
  | .rows e => Clears e t.nodes
  | .columns _ => t.nodes.table ≠ none
  | .fetch .. => t.rows = t.columns
  | _ => True

/-- Something holds of every step of a run. -/
def Run (Q : BIndexedTableNode → Act → Prop) : BIndexedTableNode → List Act → Prop
  | _, [] => True
  | t, a :: as => Q t a ∧ (t.Possible a → ∀ turns items t', t.perform turns a = some (items, t') →
      Run Q t' as)

theorem Denotes.nodeAt (h : t.Denotes) (hrow : row < t.rows) : (t.nodeAt row).Denotes :=
  Follows.objectAt h hrow ⟨List.Pairwise.nil, nofun, nofun⟩

theorem Denotes.modify (h : t.Denotes) (f : Slots Unit → Slots Unit)
    (hf : ∀ datums, datums.Follows t.columns (fun _ => True) →
      (f datums).Follows t.columns fun _ => True) :
    Denotes { t with nodes := t.nodes.modify fun key datums => if key = row then f datums else datums } := by
  dsimp only [Denotes]
  refine Follows.modify h _ fun key datums hk => ?_
  split
  · exact hf datums hk
  · exact hk

theorem Denotes.fetchColumns (v : TableVirtuals) (data : Bool) (row : ℕ) {l : List ℕ} (h : t.Denotes)
    (hl : ∀ c ∈ l, c < t.columns) : ∃ t' : BIndexedTableNode, t'.Denotes ∧
      fetchColumns v data row l t = some (l.map fun c => (v.name c, v.cell data row c), t') := by
  induction l generalizing t with
  | nil => exact ⟨t, h, rfl⟩
  | cons c l ih =>
    have hc := hl c mem_cons_self
    have hfetch : ∃ t₁ : BIndexedTableNode, t₁.Denotes ∧ t₁.columns = t.columns ∧
        t.fetchValueAt v data row c = some (v.cell data row c, t₁) := by
      unfold fetchValueAt TableVirtuals.cell
      rw [if_pos hc]
      split
      · exact ⟨t, h, rfl, rfl⟩
      · exact ⟨_, h.modify (·.objectAt c ()) fun datums hk => hk.objectAt hc trivial, rfl, rfl⟩
    obtain ⟨t₁, h₁, hcolumns, hfetch⟩ := hfetch
    obtain ⟨t', h', hrest⟩ := ih h₁ fun x hx => hcolumns ▸ hl x (mem_cons_of_mem _ hx)
    refine ⟨t', h', ?_⟩
    rw [BIndexedTableNode.fetchColumns, hfetch, Option.bind_eq_bind, Option.bind_some]
    simp only [hrest]
    rfl

theorem step_of_eq {a : Act} {items : List (SValue × SValue)}
    (heq : ∀ turns, t.perform turns a = some (items, t')) (h : t'.Denotes)
    (hfetch : ∀ v data row, a = .fetch v data row → t.Collapsed v data row items) :
    (∃ turns r, t.perform turns a = some r) ∧
      ∀ turns items t', t.perform turns a = some (items, t') → t'.Denotes ∧
        ∀ v data row, a = .fetch v data row → t.Collapsed v data row items := by
  refine ⟨⟨0, _, heq 0⟩, fun turns items' t'' ht'' => ?_⟩
  obtain ⟨rfl, rfl⟩ := Prod.mk.inj (Option.some.inj ((heq turns).symm.trans ht''))
  exact ⟨h, hfetch⟩

theorem Denotes.does (h : t.Denotes) {a : Act} (hc : Covered t a) : Does t a := by
  intro hp
  cases a with
  | rows e =>
    obtain ⟨⟨turns, s', hs'⟩, hall⟩ := updateEntryIndices_eq h hp hc
    refine ⟨⟨turns, _, by rw [perform, hs']; rfl⟩, fun turns items t' ht' => ⟨?_, nofun⟩⟩
    obtain ⟨s', hs', ht'⟩ := Option.bind_eq_some_iff.1 ht'
    obtain rfl := hall turns s' hs'
    obtain ⟨⟩ := ht'
    exact Follows.edited h hp
  | columns e =>
    have hsome : t.updateColumnIndices e.index e.delta =
        some (t.nodes.modify fun _ datums => datums.updateDatumIndices e.index e.delta) :=
      if_neg (by simpa [Covered] using hc)
    refine step_of_eq (fun turns => by rw [perform, hsome]; rfl) ?_ nofun
    have hupdated : (t.nodes.modify fun _ datums => datums.updateDatumIndices e.index e.delta).Follows
        t.rows fun datums => (datums.followed e).Follows (t.columns + e.more - e.less) fun _ => True :=
      Follows.modify h _ fun _ datums hk => updateDatumIndices_eq hk hp ▸ hk.edited hp
    dsimp only [Denotes]
    exact hupdated.modify _ fun _ _ hk => hk
  | fetch v data row =>
    have hstart : ∃ t₁ : BIndexedTableNode, t₁.Denotes ∧ t₁.columns = t.columns ∧
        (if data then t else t.nodeAt row) = t₁ := by
      cases data with
      | true => exact ⟨t, h, rfl, rfl⟩
      | false => exact ⟨_, h.nodeAt hp, rfl, rfl⟩
    obtain ⟨t₁, h₁, hcolumns, heq⟩ := hstart
    have hlen : t.rows = t.columns := hc
    obtain ⟨t', h', hfetch⟩ := h₁.fetchColumns v data row (l := List.range t.columns)
      fun c hc => hcolumns ▸ mem_range.1 hc
    refine step_of_eq (fun turns => by rw [perform, fetchCollapsed, heq, hlen, hfetch]) h' ?_
    rintro _ _ _ ⟨⟩
    rfl
  | node row => exact step_of_eq (fun _ => rfl) (h.nodeAt hp) nofun
  | drop row => exact step_of_eq (fun _ => rfl) (Follows.drop h row) nofun
  | dropDatum row column =>
    exact step_of_eq (fun _ => rfl) (h.modify (·.drop column) fun _ hk => hk.drop column) nofun

/-- A table of one row with a node, and of one column with a datum. -/
def oneCell : BIndexedTableNode :=
  ⟨1, 1, ⟨some [(0, ⟨some 0, some 0, ⟨some [(0, ⟨some 0, some 0, ()⟩)], []⟩⟩)], []⟩⟩

theorem entryLoop_never {α : Type} (index : ℕ) {delta : ℤ} (h : 0 ≤ delta) (turns : ℕ)
    (entry : ℕ × Slot α) (l : List (ℕ × Slot α)) :
    entryLoop index delta turns (entry :: l) = none := by
  induction turns generalizing entry with
  | zero => rfl
  | succ turns ih =>
    have hstays : ¬ (delta < 0 ∧ (entry.1 : ℤ) < size (index - delta)) := fun hneg => not_lt.2 h hneg.1
    rw [entryLoop, if_neg hstays, ih, ih, ite_self]

end BIndexedTableNode

end OpenBinder
