import OpenBinder.Parcel.Skip
import OpenBinder.Parcel.Variables
import OpenBinder.Lib.Run

/-!
# No cached size is stale

* `isExact_iff`: `isExact` is about all tables in a value.
* `framed_of_isExact`: the length of what is archived is right where the cached sizes are.
* `apply_isExact`: **what a call leaves** is exact, if its arguments are and it observes the cached
  sizes.
* `wholeOf_replace`: **an item that is edited** can be replaced when nothing is cached around it.
* `fresh_of_observes`: in a run whose calls observe the cached sizes, none is stale but around an
  item that is edited, and nowhere when that is not seen.
-/

namespace OpenBinder

open Lib List

namespace SValue

theorem tables_map (m : BValueMap SValue) : (map m).tables = m :: tablesMaps m.maps := by
  rw [tables]

theorem mem_tablesMaps {l : List Pair} {m : BValueMap SValue} :
    m ∈ tablesMaps l ↔ ∃ p ∈ l, m ∈ p.1.tables ∨ m ∈ p.2.tables := by
  induction l with
  | nil => simp [tablesMaps]
  | cons p l ih =>
    rw [tablesMaps, mem_append, mem_append, ih]
    simp only [mem_cons, exists_eq_or_imp, or_assoc]

theorem isExact_iff : ∀ v : SValue, v.isExact = true ↔ ∀ m ∈ v.tables, (map m).isExact = true := by
  intro v
  induction v using SValue.ind with
  | map m ih =>
    rw [tables_map, forall_mem_cons]
    refine ⟨fun h => ⟨h, fun m' hm' => ?_⟩, fun h => h.1⟩
    obtain ⟨p, hp, hmem⟩ := mem_tablesMaps.1 hm'
    obtain ⟨hkey, hvalue⟩ := allExact_iff.1 (isExact_map.1 h).2 p hp
    rcases hmem with hmem | hmem
    · exact (ih p hp).1.1 hkey m' hmem
    · exact (ih p hp).2.1 hvalue m' hmem
  | _ => simp [tables, isExact]

section Frame

variable {flat : BitVec 32 → BitVec 32 → BitVec 32 × BitVec 32}

theorem computeArchivedSize_of_wireSize {l : List Pair}
    (h : ∀ p ∈ l, p.1.archivedSize = (p.1.flattened flat).wireSize ∧
      p.2.archivedSize = (p.2.flattened flat).wireSize)
    (hlt : (wireMaps (flattenedMaps flat l)).length < 2 ^ 31) :
    computeArchivedSize l = (wireMaps (flattenedMaps flat l)).length := by
  induction l with
  | nil => rw [computeArchivedSize, flattenedMaps, wireMaps]; rfl
  | cons p l ih =>
    obtain ⟨key, value⟩ := p
    rw [flattenedMaps, wireMaps_cons_length] at hlt
    obtain ⟨hkey, hvalue⟩ := h _ mem_cons_self
    have hrest := ih (fun p hp => h p (mem_cons_of_mem _ hp)) (by omega)
    rw [computeArchivedSize, flattenedMaps, wireMaps_cons_length, hkey, hvalue, hrest]
    dsimp only
    rw [ssize_of_lt (by omega) (by omega)]
    push_cast
    ring

theorem mapArchivedSize_of_isExact {m : BValueMap SValue} (h : (map m).isExact = true) :
    mapArchivedSize m = computeArchivedSize m.maps := by
  unfold mapArchivedSize
  split
  · rename_i size hsize
    exact (isExact_map.1 h).1 size hsize
  · rfl

theorem archivedSize_map (m : BValueMap SValue) :
    (map m).archivedSize = ssize (16 + mapArchivedSize m) := by
  simp only [archivedSize, mapArchivedSize]

/-- **An exact size** is the number of bytes that are archived. -/
theorem archivedSize_of_isExact : ∀ v : SValue, v.isExact = true → v.isErrorFree = true →
    (v.flattened flat).wireSize < 2 ^ 31 → v.archivedSize = (v.flattened flat).wireSize := by
  have hleaf : ∀ v : SValue, (v.flattened flat).staleness = 0 → v.isErrorFree = true →
      (v.flattened flat).wireSize < 2 ^ 31 → v.archivedSize = (v.flattened flat).wireSize := by
    intro v hstale he hlt
    have hsize := archivedSize_eq _ (flattened_isErrorFree flat v he) (flattened_objects flat v) hlt
    rw [archivedSize_flattened, hstale, add_zero, ssize_of_lt (by omega) (by exact_mod_cast hlt)] at hsize
    exact hsize
  intro v
  induction v using SValue.ind with
  | small type data =>
    intro _
    apply hleaf
    rw [flattened]
    split <;> rw [staleness]
  | large type buffer =>
    intro _
    apply hleaf
    rw [flattened, staleness]
  | map m ih =>
    intro h he hlt
    rw [flattened_map, wireSize_map] at hlt ⊢
    dsimp only at hlt ⊢
    have hsum : computeArchivedSize m.maps = (wireMaps (flattenedMaps flat m.maps)).length := by
      refine computeArchivedSize_of_wireSize (fun p hp => ?_) (by omega)
      obtain ⟨hkey, hvalue⟩ := allExact_iff.1 (isExact_map.1 h).2 p hp
      obtain ⟨hek, hev⟩ := isErrorFree_map.1 he p hp
      have hle := @flattened_wireSize_le flat _ _ hp
      exact ⟨(ih p hp).1 hkey hek (by omega), (ih p hp).2 hvalue hev (by omega)⟩
    rw [archivedSize_map, mapArchivedSize_of_isExact h, hsum, ssize_of_lt (by omega) (by omega)]
    rfl

end Frame

theorem computeArchivedSize_range (l : List Pair) :
    -2 ^ 31 ≤ computeArchivedSize l ∧ computeArchivedSize l < 2 ^ 31 := by
  cases l with
  | nil => rw [computeArchivedSize]; omega
  | cons p l =>
    rw [computeArchivedSize, ssize_eq]
    omega

/-- **Exact cached sizes** make the length in the header right. -/
theorem framed_of_isExact {m : BValueMap SValue} (h : (map m).isExact = true) :
    Variables.Framed m := by
  intro flat he hlt
  have hmod := wireSize_mod _ hlt
  have hsize := archivedSize_of_isExact _ h he hlt
  rw [archivedSize_map, mapArchivedSize_of_isExact h, flattened_map, wireSize_map, ssize_eq] at hsize
  rw [flattened_map, wireSize_map] at hlt hmod
  rw [mapArchivedSize_of_isExact h]
  obtain ⟨hlow, hhigh⟩ := computeArchivedSize_range m.maps
  generalize (wireMaps (flattenedMaps flat m.maps)).length = W at *
  have hmap : computeArchivedSize m.maps = W := by
    omega
  rw [hmap, size_of_lt (by omega) (by omega), Int.toNat_natCast, valueDataAlign_of_lt (by omega),
    BitVec.toNat_ofNat]
  omega

theorem fresh_of_isExact {v : SValue} (h : v.isExact = true) : Variables.Fresh v := by
  intro m hm
  have hexact := (isExact_iff v).1 h m hm
  exact ⟨(isExact_map.1 hexact).1, framed_of_isExact hexact⟩

/-! ### What a call leaves -/

theorem computeArchivedSize_modify {f g : Pair → Pair}
    (hfg : ∀ p, (f p).1.archivedSize = (g p).1.archivedSize ∧
      (f p).2.archivedSize = (g p).2.archivedSize)
    (l : List Pair) (i : ℕ) :
    computeArchivedSize (l.modify i f) = computeArchivedSize (l.modify i g) := by
  induction l generalizing i with
  | nil => simp
  | cons p l ih =>
    cases i with
    | zero =>
      obtain ⟨hkey, hvalue⟩ := hfg p
      rw [modify_zero_cons, modify_zero_cons, computeArchivedSize, hkey, hvalue,
        computeArchivedSize]
    | succ i =>
      rw [modify_succ_cons, modify_succ_cons, computeArchivedSize, computeArchivedSize, ih]

theorem allExact_modify {f : Pair → Pair} {l : List Pair} (hl : allExact l = true)
    (hf : ∀ p, p.1.isExact = true → p.2.isExact = true →
      (f p).1.isExact = true ∧ (f p).2.isExact = true) (i : ℕ) : allExact (l.modify i f) = true := by
  apply allExact_iff.2
  intro p hp
  obtain ⟨j, hj⟩ := mem_iff_getElem?.1 hp
  rw [List.getElem?_modify] at hj
  obtain ⟨q, hq, rfl⟩ := Option.map_eq_some_iff.1 hj
  obtain ⟨hkey, hvalue⟩ := allExact_iff.1 hl q (mem_of_getElem? hq)
  split
  · exact hf q hkey hvalue
  · exact ⟨hkey, hvalue⟩

/-- **What does not change the size** of a value does not change that of one around it. -/
theorem atPath_keeps {f : SValue → SValue} (hsize : ∀ v, (f v).archivedSize = v.archivedSize)
    (hexact : ∀ v, v.isExact = true → (f v).isExact = true) :
    ∀ (path : List (ℕ × Bool)) (v : SValue), (v.atPath f path).archivedSize = v.archivedSize ∧
      (v.isExact = true → (v.atPath f path).isExact = true) := by
  intro path
  induction path with
  | nil => intro v; exact ⟨hsize v, hexact v⟩
  | cons step path ih =>
    intro v
    obtain ⟨i, inKey⟩ := step
    cases v with
    | map m =>
      have hpair : ∀ p : Pair,
          (if inKey then (atPath f path p.1, p.2) else (p.1, atPath f path p.2)).1.archivedSize =
            p.1.archivedSize ∧
          (if inKey then (atPath f path p.1, p.2) else (p.1, atPath f path p.2)).2.archivedSize =
            p.2.archivedSize := by
        intro p
        split
        · exact ⟨(ih p.1).1, rfl⟩
        · exact ⟨rfl, (ih p.2).1⟩
      have hsum := @computeArchivedSize_modify _ id hpair m.maps i
      rw [modify_id] at hsum
      rw [atPath]
      refine ⟨?_, fun h => ?_⟩
      · rw [archivedSize_map, archivedSize_map]
        unfold mapArchivedSize
        rw [hsum]
      · obtain ⟨hcached, hall⟩ := isExact_map.1 h
        refine isExact_map.2 ⟨fun size hs => ?_, allExact_modify hall (fun p hk hv => ?_) i⟩
        · dsimp only
          rw [hsum]
          exact hcached size hs
        · split
          · exact ⟨(ih p.1).2 hk, hv⟩
          · exact ⟨hk, (ih p.2).2 hv⟩
    | _ => exact ⟨rfl, id⟩

variable {values : List SValue} {this r : SValue}

/-- **What a call leaves is exact**, if what it is given is. -/
theorem apply_isExact {c : ValueCall} (hvalues : ∀ v ∈ values, v.isExact = true)
    (hthis : this.isExact = true)
    (htidy : ∀ source, c = .unarchive source → isTidyParcel source = true)
    (hsame : ∀ indices m, c = .replaceValues indices → this = map m → m.dataSize = none ∨
      computeArchivedSize (withValues values indices m.maps) = computeArchivedSize m.maps)
    (h : c.apply values this = some r) : r.isExact = true := by
  unfold ValueCall.apply at h
  split at h
  · split at h
    · rename_i hsimple
      obtain ⟨⟩ := h
      exact isExact_of_isSimple hsimple
    · cases h
  · split at h
    · rename_i hread
      obtain ⟨⟩ := h
      exact unarchive_isExact hread (htidy _ rfl)
    · cases h
  · exact initAsMap_isExact _ _ _ _ (hvalues _ (by simp)) (hvalues _ (by simp)) h
  · obtain ⟨⟩ := h
    exact hvalues _ (by simp)
  · obtain ⟨⟩ := h
    exact valueFor_isExact (hvalues _ (by simp)) (hvalues _ (by simp))
  · exact join_isExact _ _ _ hthis (hvalues _ (by simp)) h
  · exact overlay_isExact _ _ _ hthis (hvalues _ (by simp)) h
  · exact inherit_isExact _ _ _ hthis (hvalues _ (by simp)) h
  · exact correctWith_isExact _ _ _ _ hthis (hvalues _ (by simp)) h
  · exact correctWith_isExact _ _ _ _ hthis (hvalues _ (by simp)) h
  · exact joinItem_isExact hthis (hvalues _ (by simp)) (hvalues _ (by simp)) h
  · obtain ⟨⟨status, r'⟩, hremove, rfl⟩ := Option.map_eq_some_iff.1 h
    exact removeItem_isExact hthis (hvalues _ (by simp)) hremove
  · obtain ⟨⟨status, r'⟩, hrename, rfl⟩ := Option.map_eq_some_iff.1 h
    exact renameItem_isExact hthis (hvalues _ (by simp)) hrename
  · obtain ⟨⟩ := h
    refine replaceValues_isExact hthis hvalues fun m m' hm hm' hne => ?_
    subst hm
    obtain rfl : { m with maps := withValues values _ m.maps } = m' := map.inj hm'
    exact (hsame _ m rfl rfl).resolve_left hne
  · obtain ⟨⟩ := h
    exact (atPath_keeps archivedSize_sized sized_isExact _ _).2 hthis
  · obtain ⟨⟩ := h
    exact (atPath_keeps archivedSize_copy copy_isExact _ _).2 hthis
  · cases h

theorem apply_archivedSize {path : List (ℕ × Bool)}
    (h : (ValueCall.archivedSize path).apply values this = some r) :
    r.archivedSize = this.archivedSize := by
  cases values with
  | nil =>
    obtain ⟨⟩ := h
    exact (atPath_keeps archivedSize_sized sized_isExact path this).1
  | cons v values => cases h

theorem apply_clone {path : List (ℕ × Bool)} (h : (ValueCall.clone path).apply values this = some r)
    :
    r.archivedSize = this.archivedSize := by
  cases values with
  | nil =>
    obtain ⟨⟩ := h
    exact (atPath_keeps archivedSize_copy copy_isExact path this).1
  | cons v values => cases h

end SValue

open SValue

namespace Variable

/-! ### An item that is edited -/

/-- The places of the items are in the tables. -/
def Placed (around : List (BValueMap SValue × ℕ)) : Prop :=
  ∀ f ∈ around, allExact f.1.maps = true ∧ f.2 < f.1.maps.length

theorem isExact_of_wholeOf : ∀ (around : List (BValueMap SValue × ℕ)) (v : SValue), Placed around →
    (wholeOf v around).isExact = true → v.isExact = true := by
  intro around
  induction around with
  | nil => intro v _ h; exact h
  | cons f around ih =>
    intro v hplaced h
    obtain ⟨m, i⟩ := f
    have htable := ih _ (fun f hf => hplaced f (mem_cons_of_mem _ hf)) h
    have hlt := (hplaced _ mem_cons_self).2
    have hmem : (m.maps[i].1, v) ∈ m.maps.modify i fun p => (p.1, v) :=
      mem_of_getElem? (i := i) (by simp [hlt])
    exact (allExact_iff.1 (isExact_map.1 htable).2 _ hmem).2

/-- **An item can be replaced** by one of the same size, or when nothing is cached around it. -/
theorem wholeOf_replace : ∀ (around : List (BValueMap SValue × ℕ)) (v v' : SValue), Placed around →
    (wholeOf v around).isExact = true → v'.isExact = true →
      (v'.archivedSize = v.archivedSize ∨ ∀ f ∈ around, f.1.dataSize = none) →
      (wholeOf v' around).isExact = true := by
  intro around
  induction around with
  | nil => intro v v' _ _ hv' _; exact hv'
  | cons f around ih =>
    intro v v' hplaced hwhole hv' hsize
    obtain ⟨m, i⟩ := f
    have hrest : Placed around := fun f hf => hplaced f (mem_cons_of_mem _ hf)
    have hpairs : allExact (m.maps.modify i fun p => (p.1, v')) = true :=
      modify_isExact (hplaced _ mem_cons_self).1 hv' i
    have htable := isExact_of_wholeOf around _ hrest hwhole
    rw [wholeOf] at hwhole ⊢
    rcases hsize with hsize | hnone
    · have hsum : computeArchivedSize (m.maps.modify i fun p => (p.1, v')) =
          computeArchivedSize (m.maps.modify i fun p => (p.1, v)) := by
        apply computeArchivedSize_modify
        intro p
        exact ⟨rfl, hsize⟩
      refine ih _ _ hrest hwhole (isExact_map.2 ⟨fun size hs => ?_, hpairs⟩) (.inl ?_)
      · exact ((isExact_map.1 htable).1 size hs).trans hsum.symm
      · rw [archivedSize_map, archivedSize_map]
        unfold mapArchivedSize
        rw [hsum]
    · have hm := hnone _ mem_cons_self
      refine ih _ _ hrest hwhole (isExact_map.2 ⟨fun size hs => ?_, hpairs⟩)
        (.inr fun f hf => hnone f (mem_cons_of_mem _ hf))
      exact absurd (hm.symm.trans hs) (by simp)

/-- What a variable keeps in any case: the tables around an item are exact but for the item. -/
def Kept (x : Variable) : Prop := x.current.isExact = true ∧ Placed x.around

variable {x x' : Variable}

theorem beginEditItem_kept {key : SValue} (hx : x.Kept) (h : x.beginEditItem key = some x') :
    x'.Kept ∧ x'.whole = x.whole := by
  unfold beginEditItem at h
  split at h
  · obtain ⟨⟩ := h
    exact ⟨hx, rfl⟩
  · rename_i m i hbegin
    obtain ⟨cur, hcur, rfl⟩ := Option.map_eq_some_iff.1 h
    obtain ⟨⟨k, v⟩, hp, rfl⟩ := Option.map_eq_some_iff.1 hcur
    have hthis : x.current = map m := by
      unfold SValue.beginEditItem at hbegin
      split at hbegin
      · cases hbegin
      · split at hbegin
        · rename_i heq
          obtain ⟨_, -, hm⟩ := Option.map_eq_some_iff.1 hbegin
          obtain ⟨rfl, -⟩ := Prod.mk.inj hm
          exact heq
        · cases hbegin
    have hall := (isExact_map.1 (hthis ▸ hx.1)).2
    have hlt := (List.getElem?_eq_some_iff.1 hp).1
    refine ⟨⟨(allExact_iff.1 hall _ (mem_of_getElem? hp)).2, ?_⟩, ?_⟩
    · intro f hf
      rcases mem_cons.1 hf with rfl | hf
      · exact ⟨hall, hlt⟩
      · exact hx.2 f hf
    · have hsame : (m.maps.modify i fun p => (p.1, v)) = m.maps := by
        obtain ⟨hi, hget⟩ := List.getElem?_eq_some_iff.1 hp
        rw [modify_eq_set v hp, ← hget]
        exact set_getElem_self hi
      unfold whole
      rw [wholeOf, hsame, hthis]

theorem endEditItem_kept (hx : x.Kept) (h : x.endEditItem = some x') : x'.Kept ∧
    (x.whole.isExact = true → (∀ f ∈ x.around.tail, f.1.dataSize = none) →
      x'.whole.isExact = true) := by
  obtain ⟨v, around⟩ := x
  unfold endEditItem at h
  split at h
  · cases h
  · rename_i m i around' haround
    obtain rfl : around = (m, i) :: around' := haround
    obtain ⟨r, hr, rfl⟩ := Option.map_eq_some_iff.1 h
    have hplaced : Placed around' := fun f hf => hx.2 f (mem_cons_of_mem _ hf)
    have hexact := endEditItem_isExact (hx.2 _ mem_cons_self).1 hx.1 hr
    exact ⟨⟨hexact, hplaced⟩, fun hwhole hnone =>
      wholeOf_replace around' _ r hplaced hwhole hexact (.inr hnone)⟩

end Variable

namespace Variables

variable {s s' : Variables} {a : VariableAction}

theorem valuesOf_kept (hs : ∀ i, (s i).Kept) (target : ℕ) : ∀ (arguments : List ℕ)
    (values : List SValue), valuesOf s target arguments = some values →
      ∀ v ∈ values, v.isExact = true := by
  intro arguments
  induction arguments with
  | nil =>
    intro values h v hv
    obtain ⟨⟩ := h
    cases hv
  | cons j rest ih =>
    intro values h v hv
    rw [valuesOf] at h
    split at h
    · cases h
    · obtain ⟨values', hrest, rfl⟩ := Option.map_eq_some_iff.1 h
      rcases mem_cons.1 hv with rfl | hv
      · exact (hs j).1
      · exact ih values' hrest v hv

theorem result_kept {x : Variable} {values : List SValue} (hs : ∀ i, (s i).Kept)
    (hvalues : valuesOf s a.target a.arguments = some values) (hobserves : Observes s a)
    (h : result (s a.target) a.call values = some x) : x.Kept ∧
      ((s a.target).whole.isExact = true → Unseen s a → x.whole.isExact = true) := by
  obtain ⟨target, call, arguments⟩ := a
  have hx := hs target
  unfold result at h
  dsimp only at h hvalues ⊢
  split at h
  · rename_i c
    obtain ⟨v, hv, rfl⟩ := Option.map_eq_some_iff.1 h
    have hexact : v.isExact = true := by
      refine apply_isExact (valuesOf_kept hs target _ _ hvalues) hx.1 ?_ ?_ hv
      · rintro source rfl
        exact hobserves
      · rintro indices m rfl hm
        exact hobserves m values hm hvalues
    refine ⟨⟨hexact, hx.2⟩, fun hwhole hunseen => ?_⟩
    apply Variable.wholeOf_replace _ _ _ hx.2 hwhole hexact
    unfold Unseen at hunseen
    split at hunseen
    · rename_i path hc
      obtain rfl := VariableCall.call.inj hc
      exact .inl (apply_archivedSize hv)
    · rename_i path hc
      obtain rfl := VariableCall.call.inj hc
      exact .inl (apply_clone hv)
    · rename_i hc
      cases hc
    · rename_i hc
      cases hc
    · exact .inr hunseen
  · obtain ⟨hkept, hwhole⟩ := Variable.beginEditItem_kept hx h
    exact ⟨hkept, fun hexact _ => by rw [hwhole]; exact hexact⟩
  · obtain ⟨hkept, hwhole⟩ := Variable.endEditItem_kept hx h
    exact ⟨hkept, hwhole⟩
  · cases h

theorem step_kept (hs : ∀ i, (s i).Kept) (hobserves : Observes s a) (h : step s a = some s') :
    (∀ i, (s' i).Kept) ∧
      ((∀ i, (s i).whole.isExact = true) → Unseen s a → ∀ i, (s' i).whole.isExact = true) := by
  obtain ⟨values, hvalues, h⟩ := Option.bind_eq_some_iff.1 h
  obtain ⟨x, hresult, h⟩ := Option.bind_eq_some_iff.1 h
  obtain ⟨⟩ := h
  obtain ⟨hkept, hwhole⟩ := result_kept hs hvalues hobserves hresult
  refine ⟨fun i => ?_, fun hexact hunseen i => ?_⟩
  · rw [Function.update_apply]
    split
    · exact hkept
    · exact hs i
  · rw [Function.update_apply]
    split
    · exact hwhole (hexact a.target) hunseen
    · exact hexact i

theorem start_kept (i : ℕ) : (start i).Kept := ⟨rfl, fun _ hf => absurd hf not_mem_nil⟩

/-- **No cached size is stale** in a run whose calls observe the cached sizes, but in the tables
around an item while it is edited, and nowhere if what is done to the item is not seen there. -/
theorem fresh_of_observes (as : List VariableAction) :
    (AllSteps step Observes start as → AllStates step AtRest start as) ∧
      (AllSteps step (fun s a => Observes s a ∧ Unseen s a) start as →
        AllStates step Always start as) := by
  constructor
  · intro h
    have hstates := AllSteps.states (fun s a s' hs hstep ha => (step_kept hs ha hstep).1) as start
      start_kept h
    exact AllStates.imp (fun s hs i _ => fresh_of_isExact (hs i).1) as start hstates
  · intro h
    have hstates := @AllSteps.states _ _ step
      (fun s => (∀ i, (s i).Kept) ∧ ∀ i, (s i).whole.isExact = true) _
      (fun s a s' hs hstep ha =>
        have hkept := step_kept hs.1 ha.1 hstep
        ⟨hkept.1, hkept.2 hs.2 ha.2⟩) as start ⟨start_kept, fun _ => rfl⟩ h
    exact AllStates.imp (fun s hs i => fresh_of_isExact (hs.2 i)) as start hstates

/-- The size of `{1 -> 2}` is cached, and dropped when an item is edited and made a text. -/
theorem editing_fresh :
    let as : List VariableAction := [⟨1, .call (.set (int32 1)), []⟩,
      ⟨2, .call (.set (text [1, 2, 3, 4, 5])), []⟩, ⟨0, .call (.construct Flags.none), [1, 1]⟩,
      ⟨0, .call (.archivedSize []), []⟩, ⟨0, .beginEditItem, [1]⟩, ⟨0, .call .assign, [2]⟩,
      ⟨0, .endEditItem, []⟩]
    AllStates step AtRest start as ∧ AllStates step Always start (as.take 5) := by
  refine ⟨(fresh_of_observes _).1 ?_, (fresh_of_observes _).2 ?_⟩
  · exact .cons rfl trivial (.cons rfl trivial (.cons rfl trivial (.cons rfl trivial
      (.cons rfl trivial (.cons rfl trivial (.cons rfl trivial trivial))))))
  · have hnone : ∀ x : Variable, x.around = [] → ∀ f ∈ x.around, f.1.dataSize = none := by
      intro x hx f hf
      rw [hx] at hf
      cases hf
    exact .cons rfl ⟨trivial, hnone _ rfl⟩ (.cons rfl ⟨trivial, hnone _ rfl⟩
      (.cons rfl ⟨trivial, hnone _ rfl⟩ (.cons rfl ⟨trivial, trivial⟩
        (.cons rfl ⟨trivial, trivial⟩ trivial))))

/-- **`ReplaceValues` leaves a stale size**, in a variable that is at rest: that of `{1 -> 2}` when
`2` is replaced by a text. -/
theorem replacing_stale :
    let as : List VariableAction := [⟨1, .call (.set (int32 1)), []⟩,
      ⟨2, .call (.set (int32 2)), []⟩, ⟨3, .call (.set (text [1, 2, 3, 4, 5])), []⟩,
      ⟨0, .call (.construct Flags.none), [1, 2]⟩, ⟨0, .call (.archivedSize []), []⟩,
      ⟨0, .call (.replaceValues [0]), [3]⟩]
    ¬ AllStates step AtRest start as ∧ ¬ AllStates step Always start as := by
  intro as
  obtain ⟨s, hs⟩ : ∃ s, run step start as = some s := ⟨_, rfl⟩
  have hstale : (s 0).around = [] ∧ ¬ Fresh (s 0).current := by
    obtain rfl : _ = s := Option.some.inj ((rfl : run step start as = some _).symm.trans hs)
    refine ⟨rfl, fun hfresh => ?_⟩
    have hsize := (hfresh _ mem_cons_self).1 16 rfl
    exact absurd hsize (by decide +kernel)
  refine ⟨fun h => hstale.2 (h.last hs 0 hstale.1), fun h => hstale.2 ?_⟩
  have hwhole : Fresh (Variable.wholeOf (s 0).current (s 0).around) := h.last hs 0
  rw [hstale.1] at hwhole
  exact hwhole

end Variables

end OpenBinder
