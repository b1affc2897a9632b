import OpenBinder.Parcel.ArchiveLaw
import OpenBinder.Value.Inherit
import OpenBinder.Value.RemoveItem

/-!
# Cached sizes

A table keeps the size that `ArchivedSize` computed for it. A change of its pairs must drop that
size. All operations on a table do so (`addNewMap_isExact`, `removeMapAt_isExact`,
`endEditMapAt_isExact`), except that `ReplaceValues` changes the pairs behind its back.

* `isExact`: no cached size in a value is off.
* `join_isExact`, `overlay_isExact`, `inherit_isExact` and so on: **what the mutators keep exact**.
* `replaceValues_isExact`: **`ReplaceValues`** does where no size is cached, or the sum is the same.
-/

namespace OpenBinder.SValue

open Lib List Option

mutual

/-- Whether the cached size of each table in a value is the sum of the sizes of its keys and
values. -/
def isExact : SValue → Bool
  | map ⟨_, dataSize, maps⟩ =>
    dataSize.all (fun size => decide ((size : ℤ) = computeArchivedSize maps)) && allExact maps
  | _ => true

/-- The same for the keys and values of a table. -/
def allExact : List Pair → Bool
  | [] => true
  | (key, value) :: rest => isExact key && (isExact value && allExact rest)

end

variable {l : List Pair} {f : SValue → Option SValue} {s s' : InheritState}

theorem allExact_iff :
    allExact l = true ↔ ∀ p ∈ l, p.1.isExact = true ∧ p.2.isExact = true := by
  induction l with
  | nil => simp [allExact]
  | cons p l ih =>
    rw [show allExact (p :: l) = (isExact p.1 && (isExact p.2 && allExact l)) from rfl]
    simp only [Bool.and_eq_true, ih, mem_cons, forall_eq_or_imp, and_assoc]

theorem isExact_map {m : BValueMap SValue} : (map m).isExact = true ↔
    (∀ size, m.dataSize = some size → (size : ℤ) = computeArchivedSize m.maps) ∧
      allExact m.maps = true := by
  obtain ⟨avail, dataSize, maps⟩ := m
  rw [isExact, Bool.and_eq_true]
  refine and_congr_left fun _ => ?_
  cases dataSize with
  | none => simp
  | some size => simp

theorem isExact_fresh {avail : ℕ} {maps : List Pair} (h : allExact maps = true) :
    (map ⟨avail, none, maps⟩).isExact = true :=
  isExact_map.2 ⟨fun _ hs => absurd hs (by simp), h⟩

theorem isExact_of_isSimple {v : SValue} (h : v.isSimple = true) : v.isExact = true := by
  cases v with
  | map m => rw [isSimple_map] at h; cases h
  | _ => rfl

theorem items_isExact {v : SValue} (h : v.isExact = true) : allExact v.items = true := by
  by_cases hs : v.isSimple = true
  · apply allExact_iff.2
    intro p hp
    rw [items_of_isSimple hs] at hp
    split at hp
    · cases hp
    · split at hp
      · rw [mem_singleton.1 hp]
        exact ⟨rfl, h⟩
      · cases hp
  · obtain ⟨m, rfl⟩ := isSimple_eq_false.1 (by simpa using hs)
    exact (isExact_map.1 h).2

/-! ### Tables -/

variable {m m' : BValueMap SValue} {key value this r : SValue} {i : ℕ}

theorem insertIdx_isExact (hl : allExact l = true) (hk : key.isExact = true)
    (hv : value.isExact = true) (i : ℕ) : allExact (l.insertIdx i (key, value)) = true := by
  apply allExact_iff.2
  intro p hp
  rcases eq_or_mem_of_mem_insertIdx hp with rfl | hp
  · exact ⟨hk, hv⟩
  · exact allExact_iff.1 hl p hp

theorem addMapAt_isExact (hm : allExact m.maps = true) (hs : m.dataSize = none)
    (hk : key.isExact = true) (hv : value.isExact = true) (i : ℕ) :
    (map (m.addMapAt i key value)).isExact = true := by
  have hins := insertIdx_isExact hm hk hv i
  unfold BValueMap.addMapAt
  split
  · exact isExact_fresh hins
  · rw [hs]
    exact isExact_fresh hins

theorem addNewMap_isExact (hm : (map m).isExact = true) (hk : key.isExact = true)
    (hv : value.isExact = true) : (map (m.addNewMap key value)).isExact = true := by
  unfold BValueMap.addNewMap
  split
  · split
    · exact @addMapAt_isExact { m with dataSize := none } key value (isExact_map.1 hm).2 rfl hk hv _
    · exact hm
  · exact hm

theorem removeMapAt_isExact (hm : allExact m.maps = true) (h : m.removeMapAt i = some m') :
    (map m').isExact = true ∧ m'.dataSize = none := by
  have herase : allExact (m.maps.eraseIdx i) = true :=
    allExact_iff.2 fun p hp => allExact_iff.1 hm p (mem_of_mem_eraseIdx hp)
  unfold BValueMap.removeMapAt at h
  dsimp only at h
  split at h
  · split at h
    · cases h
    · obtain ⟨⟩ := h
      exact ⟨isExact_fresh herase, rfl⟩
  · obtain ⟨⟩ := h
    exact ⟨isExact_fresh herase, rfl⟩

theorem modify_isExact (hl : allExact l = true) (hv : value.isExact = true) (i : ℕ) :
    allExact (l.modify i fun p => (p.1, value)) = true := by
  apply allExact_iff.2
  intro p hp
  obtain ⟨j, hj⟩ := mem_iff_getElem?.1 hp
  rw [List.getElem?_modify] at hj
  obtain ⟨q, hq, rfl⟩ := map_eq_some_iff.1 hj
  have hmem := allExact_iff.1 hl q (mem_of_getElem? hq)
  split
  · exact ⟨hmem.1, hv⟩
  · exact hmem

theorem endEditMapAt_isExact (hm : allExact m.maps = true) (hv : value.isExact = true)
    (h : m.endEditMapAt i value = some m') : (map m').isExact = true := by
  unfold BValueMap.endEditMapAt at h
  split at h
  · obtain ⟨⟩ := h
    exact isExact_fresh (modify_isExact hm hv i)
  · exact (removeMapAt_isExact (modify_isExact hm hv i) h).1

theorem editMap_isExact (hthis : this.isExact = true) (h : this.editMap = some m) :
    (map m).isExact = true := by
  by_cases hs : this.isSimple = true
  · rw [editMap_of_isSimple hs] at h
    split at h
    · cases h
    · split at h
      · obtain ⟨⟩ := h
        exact isExact_fresh (allExact_iff.2 fun p hp => by
          rw [mem_singleton.1 hp]
          exact ⟨rfl, hthis⟩)
      · obtain ⟨⟩ := h
        exact isExact_fresh rfl
  · obtain ⟨m', rfl⟩ := isSimple_eq_false.1 (by simpa using hs)
    obtain ⟨⟩ := h
    exact hthis

theorem addItem_isExact (hthis : this.isExact = true) (hk : key.isExact = true)
    (hv : value.isExact = true) : (this.addItem key value).isExact = true := by
  unfold addItem
  split
  · rename_i m hm
    exact addNewMap_isExact (editMap_isExact hthis hm) hk hv
  · exact hthis

theorem shrinkMap_isExact (hm : (map m).isExact = true) : (shrinkMap m).isExact = true := by
  unfold shrinkMap
  split
  · rfl
  · rename_i k v hmaps
    split
    · have hall := (isExact_map.1 hm).2
      rw [hmaps] at hall
      exact (allExact_iff.1 hall (k, v) mem_cons_self).2
    · exact hm
  · exact hm

theorem endEditItem_isExact (hm : allExact m.maps = true) (hv : value.isExact = true)
    (h : endEditItem m i value = some r) : r.isExact = true := by
  obtain ⟨m', hm', h⟩ := bind_eq_some_iff.1 h
  split at h
  · obtain ⟨⟩ := h
    exact isExact_of_isSimple (by simp [error])
  · obtain ⟨⟩ := h
    exact shrinkMap_isExact (endEditMapAt_isExact hm hv hm')

/-- **Editing an item** keeps exact what the edit keeps exact. -/
theorem editAt_isExact {edit : SValue → Option SValue} (hm : (map m).isExact = true)
    (hedit : ∀ cur cur', cur.isExact = true → edit cur = some cur' → cur'.isExact = true)
    (h : editAt m i edit = some r) : r.isExact = true := by
  obtain ⟨cur, hcur, hrest⟩ := bind_eq_some_iff.1 h
  obtain ⟨cur', hcur', hend⟩ := bind_eq_some_iff.1 hrest
  obtain ⟨p, hp, rfl⟩ := map_eq_some_iff.1 hcur
  have hall := (isExact_map.1 hm).2
  have hp := (allExact_iff.1 hall p (mem_of_getElem? hp)).2
  exact endEditItem_isExact hall (hedit _ _ hp hcur') hend

theorem beginEditItem_isExact (hthis : this.isExact = true)
    (h : this.beginEditItem key = some (m, i)) : (map m).isExact = true := by
  unfold beginEditItem at h
  split at h
  · cases h
  · split at h
    · obtain ⟨_, -, hm⟩ := map_eq_some_iff.1 h
      obtain ⟨rfl, -⟩ := Prod.mk.inj hm
      exact hthis
    · cases h

/-! ### Mutators -/

variable {flags : Flags} {a b : SValue}

theorem foldlM_isExact {S : Type} {I : S → Prop} {step : S → Pair → Option S}
    (hl : allExact l = true) (hstep : ∀ p ∈ l, p.1.isExact = true → p.2.isExact = true →
      ∀ s s', I s → step s p = some s' → I s') :
    ∀ s s', I s → l.foldlM step s = some s' → I s' := by
  induction l with
  | nil =>
    intro s s' hs h
    obtain ⟨⟩ := h
    exact hs
  | cons p l ih =>
    intro s s' hs h
    have hall := allExact_iff.1 hl
    rw [foldlM_cons] at h
    obtain ⟨s₁, h₁, h⟩ := bind_eq_some_iff.1 h
    have hp := hall p mem_cons_self
    exact ih (allExact_iff.2 fun q hq => hall q (mem_cons_of_mem _ hq))
      (fun q hq => hstep q (mem_cons_of_mem _ hq)) s₁ s'
      (hstep p mem_cons_self hp.1 hp.2 s s₁ hs h₁) h

theorem joinPair_isExact (hthis : this.isExact = true) (hk : key.isExact = true)
    (hv : value.isExact = true)
    (hf : ∀ cur cur', cur.isExact = true → f cur = some cur' → cur'.isExact = true)
    (h : joinPair flags this key value f = some r) : r.isExact = true := by
  unfold joinPair at h
  split at h
  · rename_i m i hbegin
    refine editAt_isExact (beginEditItem_isExact hthis hbegin) (fun cur cur' hcur hedit => ?_) h
    split at hedit
    · obtain ⟨⟩ := hedit
      exact hv
    · exact hf cur cur' hcur hedit
  · obtain ⟨⟩ := h
    exact addItem_isExact hthis hk hv

theorem joinWith_isExact {loop : Option SValue} (ha : a.isExact = true) (hb : b.isExact = true)
    (hloop : ∀ r, loop = some r → r.isExact = true) (h : joinWith a b loop = some r) :
    r.isExact = true := by
  unfold joinWith at h
  split at h
  · obtain ⟨⟩ := h
    exact hb
  · split at h
    · exact hloop r h
    · split at h
      · obtain ⟨⟩ := h
        exact hb
      · obtain ⟨⟩ := h
        exact ha

/-- **`Join`.** -/
theorem join_isExact : ∀ b a r : SValue, a.isExact = true → b.isExact = true →
    join flags a b = some r → r.isExact = true := by
  intro b
  induction b using SValue.ind with
  | map m ih =>
    intro a r ha hb h
    obtain ⟨avail, dataSize, maps⟩ := m
    rw [join] at h
    refine joinWith_isExact ha hb (fun r hr => ?_) h
    have hloop : ∀ l : List Pair, (∀ p ∈ l, p ∈ maps) → ∀ this r, this.isExact = true →
        joinItems flags this l = some r → r.isExact = true := by
      intro l
      induction l with
      | nil =>
        intro _ this r hthis hr
        rw [joinItems] at hr
        obtain ⟨⟩ := hr
        exact hthis
      | cons p l ihl =>
        intro hsub this r hthis hr
        have hmem := hsub _ mem_cons_self
        have hp := allExact_iff.1 (isExact_map.1 hb).2 _ hmem
        rw [joinItems] at hr
        obtain ⟨this', hthis', hr⟩ := bind_eq_some_iff.1 hr
        refine ihl (fun q hq => hsub q (mem_cons_of_mem _ hq)) this' r ?_ hr
        exact joinPair_isExact hthis hp.1 hp.2
          (fun cur cur' hcur => (ih _ hmem).2 cur cur' hcur hp.2) hthis'
    exact hloop maps (fun p hp => hp) a r ha hr
  | _ =>
    intro a r ha hb h
    rw [join] at h
    · refine joinWith_isExact ha hb (fun r hr => ?_) h
      refine foldlM_isExact (I := fun v => v.isExact = true) (items_isExact hb) ?_ a r ha hr
      intro p hp hk hv s s' hs hstep
      exact joinPair_isExact hs hk hv (fun cur cur' _ hnone => by cases hnone) hstep
    · simp

theorem joinItemWith_isExact {mkMap : SValue → Option SValue}
    (hmk : ∀ made, mkMap value = some made → made.isExact = true) (hthis : this.isExact = true)
    (hk : key.isExact = true) (hv : value.isExact = true)
    (h : joinItemWith mkMap this key value flags = some r) : r.isExact = true := by
  unfold joinItemWith at h
  split at h
  · split at h
    · obtain ⟨⟩ := h
      exact hv
    split at h
    · exact join_isExact _ _ _ hthis hv h
    split at h
    · exact join_isExact _ _ _ hthis hk h
    split at h
    · obtain ⟨made, hmade, h⟩ := bind_eq_some_iff.1 h
      exact join_isExact _ _ _ hthis (hmk made hmade) h
    · exact joinPair_isExact hthis hk hv
        (fun cur cur' hcur => join_isExact value cur cur' hcur hv) h
  · obtain ⟨⟩ := h
    exact hthis

theorem initAsMapWith_isExact {flatten : Option SValue} (hk : key.isExact = true)
    (hv : value.isExact = true) (hflat : ∀ r, flatten = some r → r.isExact = true)
    (h : initAsMapWith key value flags flatten = some r) : r.isExact = true := by
  unfold initAsMapWith at h
  split at h
  · obtain ⟨⟩ := h
    exact hk
  split at h
  · obtain ⟨⟩ := h
    exact hv
  split at h
  · split at h
    · obtain ⟨⟩ := h
      exact hv
    split at h
    · obtain ⟨⟩ := h
      exact isExact_fresh (allExact_iff.2 fun p hp => by
        rw [mem_singleton.1 hp]
        exact ⟨hk, hv⟩)
    · exact hflat r h
  · obtain ⟨⟩ := h
    rfl

/-- **The constructor** `SValue(key, value, flags)`. -/
theorem initAsMap_isExact : ∀ (key : SValue) (flags : Flags) (value r : SValue),
    key.isExact = true → value.isExact = true → initAsMap flags key value = some r →
      r.isExact = true := by
  intro key
  induction key using SValue.ind with
  | map m ih =>
    intro flags value r hk hv h
    obtain ⟨avail, dataSize, maps⟩ := m
    rw [initAsMap] at h
    refine initAsMapWith_isExact hk hv (fun r hr => ?_) h
    have hloop : ∀ l : List Pair, (∀ p ∈ l, p ∈ maps) → ∀ this r, this.isExact = true →
        initItems this l value = some r → r.isExact = true := by
      intro l
      induction l with
      | nil =>
        intro _ this r hthis hr
        rw [initItems] at hr
        obtain ⟨⟩ := hr
        exact hthis
      | cons p l ihl =>
        intro hsub this r hthis hr
        have hmem := hsub _ mem_cons_self
        have hp := allExact_iff.1 (isExact_map.1 hk).2 _ hmem
        rw [initItems] at hr
        obtain ⟨made, hmade, hr⟩ := bind_eq_some_iff.1 hr
        obtain ⟨this', hthis', hr⟩ := bind_eq_some_iff.1 hr
        have hmade := (ih _ hmem).2 Flags.none value made hp.2 hv hmade
        refine ihl (fun q hq => hsub q (mem_cons_of_mem _ hq)) this' r ?_ hr
        exact joinItemWith_isExact
          (fun made' hmade' => (ih _ hmem).1 Flags.none made made' hp.1 hmade hmade')
          hthis hp.1 hmade hthis'
    exact hloop maps (fun p hp => hp) undefined r rfl hr
  | _ =>
    intro flags value r hk hv h
    rw [initAsMap] at h
    · refine initAsMapWith_isExact hk hv (fun r hr => ?_) h
      obtain ⟨⟩ := hr
      rfl
    · simp

/-- **`JoinItem`.** -/
theorem joinItem_isExact (hthis : this.isExact = true) (hk : key.isExact = true)
    (hv : value.isExact = true) (h : joinItem this key value flags = some r) : r.isExact = true :=
  joinItemWith_isExact (fun made hmade => initAsMap_isExact key flags value made hk hv hmade)
    hthis hk hv h

theorem clearSets_isExact : ∀ (n i : ℕ) (m m' : BValueMap SValue), (map m).isExact = true →
    clearSets n i m = some m' → (map m').isExact = true := by
  intro n
  induction n with
  | zero =>
    intro i m m' hm h
    obtain ⟨⟩ := h
    exact hm
  | succ n ih =>
    intro i m m' hm h
    rw [clearSets] at h
    split at h
    · split at h
      · obtain ⟨m₁, hremove, h⟩ := bind_eq_some_iff.1 h
        exact ih i m₁ m' (removeMapAt_isExact (isExact_map.1 hm).2 hremove).1 h
      · exact ih (i + 1) m m' hm h
    · cases h

theorem makeMapWithoutSets_isExact {hasMap : Bool} (hthis : this.isExact = true)
    (h : this.makeMapWithoutSets = some (r, hasMap)) : r.isExact = true := by
  cases this with
  | map m =>
    obtain ⟨m', hclear, h⟩ := map_eq_some_iff.1 h
    obtain ⟨rfl, -⟩ := Prod.mk.inj h
    exact clearSets_isExact _ _ m m' hthis hclear
  | _ =>
    obtain ⟨⟩ := h
    rfl

theorem overlayPair_isExact {s s' : OverlayState} (hs : s.this.isExact = true)
    (hk : key.isExact = true) (hv : value.isExact = true)
    (hf : ∀ cur cur', cur.isExact = true → f cur = some cur' → cur'.isExact = true)
    (h : overlayPair flags s key value f = some s') : s'.this.isExact = true := by
  unfold overlayPair at h
  split at h
  · rename_i m i hbegin
    obtain ⟨this', hthis', h⟩ := bind_eq_some_iff.1 h
    obtain ⟨⟩ := h
    refine editAt_isExact (beginEditItem_isExact hs hbegin) (fun cur cur' hcur hedit => ?_) hthis'
    split at hedit
    · obtain ⟨⟩ := hedit
      exact hv
    · exact hf cur cur' hcur hedit
  · have hadd : ∀ {this : SValue} {m : BValueMap SValue}, this.isExact = true →
        this.editMap = some m → (map (m.addNewMap key value)).isExact = true :=
      fun hthis hm => addNewMap_isExact (editMap_isExact hthis hm) hk hv
    dsimp only at h
    split at h
    · obtain ⟨⟨this', hasMap⟩, hmake, h⟩ := bind_eq_some_iff.1 h
      have hthis' := makeMapWithoutSets_isExact hs hmake
      obtain ⟨s₁, hs₁, h⟩ := bind_eq_some_iff.1 h
      obtain ⟨⟩ := hs₁
      split at h
      · rename_i hm
        obtain ⟨⟩ := h
        exact hadd hthis' hm
      · obtain ⟨⟩ := h
        exact hthis'
    · obtain ⟨s₁, hs₁, h⟩ := bind_eq_some_iff.1 h
      obtain ⟨⟩ := hs₁
      split at h
      · rename_i hm
        obtain ⟨⟩ := h
        exact hadd hs hm
      · obtain ⟨⟩ := h
        exact hs

theorem overlayWith_isExact {loop : Option SValue} (ha : a.isExact = true) (hb : b.isExact = true)
    (hloop : ∀ r, loop = some r → r.isExact = true) (h : overlayWith a b loop = some r) :
    r.isExact = true := by
  unfold overlayWith at h
  split at h
  · obtain ⟨⟩ := h
    exact hb
  · split at h
    · exact hloop r h
    · split at h
      · obtain ⟨⟩ := h
        exact hb
      · obtain ⟨⟩ := h
        exact ha

theorem overlayEnd_isExact {s : OverlayState} (hs : s.this.isExact = true)
    (h : overlayEnd s = some r) : r.isExact = true := by
  unfold overlayEnd at h
  split at h
  · split at h
    · rename_i m hm
      obtain ⟨⟩ := h
      rw [hm] at hs
      exact shrinkMap_isExact hs
    · cases h
  · obtain ⟨⟩ := h
    exact hs

/-- **`Overlay`.** -/
theorem overlay_isExact : ∀ b a r : SValue, a.isExact = true → b.isExact = true →
    overlay flags a b = some r → r.isExact = true := by
  intro b
  induction b using SValue.ind with
  | map m ih =>
    intro a r ha hb h
    obtain ⟨avail, dataSize, maps⟩ := m
    rw [overlay] at h
    refine overlayWith_isExact ha hb (fun r hr => ?_) h
    obtain ⟨s, hs, hr⟩ := bind_eq_some_iff.1 hr
    have hloop : ∀ l : List Pair, (∀ p ∈ l, p ∈ maps) → ∀ s s' : OverlayState,
        s.this.isExact = true → overlayItems flags s l = some s' → s'.this.isExact = true := by
      intro l
      induction l with
      | nil =>
        intro _ s s' hs h
        rw [overlayItems] at h
        obtain ⟨⟩ := h
        exact hs
      | cons p l ihl =>
        intro hsub s s' hs h
        have hmem := hsub _ mem_cons_self
        have hp := allExact_iff.1 (isExact_map.1 hb).2 _ hmem
        rw [overlayItems] at h
        obtain ⟨s₁, hs₁, h⟩ := bind_eq_some_iff.1 h
        refine ihl (fun q hq => hsub q (mem_cons_of_mem _ hq)) s₁ s' ?_ h
        exact overlayPair_isExact hs hp.1 hp.2
          (fun cur cur' hcur => (ih _ hmem).2 cur cur' hcur hp.2) hs₁
    exact overlayEnd_isExact (hloop maps (fun p hp => hp) ⟨a, false, false⟩ s ha hs) hr
  | _ =>
    intro a r ha hb h
    rw [overlay] at h
    · refine overlayWith_isExact ha hb (fun r hr => ?_) h
      obtain ⟨s, hs, hr⟩ := bind_eq_some_iff.1 hr
      refine overlayEnd_isExact ?_ hr
      refine foldlM_isExact (I := fun s : OverlayState => s.this.isExact = true) (items_isExact hb)
        ?_ ⟨a, false, false⟩ s ha hs
      intro p hp hk hv s s' hs hstep
      exact overlayPair_isExact hs hk hv (fun cur cur' _ hnone => by cases hnone) hstep
    · simp

theorem advance_this : ∀ (fuel : ℕ) (s s' : InheritState) (p : Pair) (cmp : Ordering),
    advance fuel s p = some (s', cmp) → s'.this = s.this := by
  intro fuel
  induction fuel with
  | zero =>
    intro s s' p cmp h
    cases h
  | succ fuel ih =>
    intro s s' p cmp h
    rw [advance] at h
    have hnext : s.next.this = s.this := by
      unfold InheritState.next
      split <;> rfl
    split at h
    · obtain ⟨⟩ := h
      rfl
    · dsimp only at h
      generalize (if s.first = true then Ordering.lt else compareMap s.item p) = c at h
      split at h
      · exact (ih _ s' p cmp h).trans hnext
      · obtain ⟨⟩ := h
        rfl

theorem inheritNew_isExact (hs : s.this.isExact = true) (hk : key.isExact = true)
    (hv : value.isExact = true) (h : inheritNew flags s key value = some s') :
    s'.this.isExact = true := by
  unfold inheritNew at h
  split at h
  · obtain ⟨s₁, hs₁, h⟩ := bind_eq_some_iff.1 h
    have hthis : s₁.this.isExact = true := by
      unfold InheritState.checkTerminals at hs₁
      split at hs₁
      · obtain ⟨terminals, -, rfl⟩ := map_eq_some_iff.1 hs₁
        exact hs
      · obtain ⟨⟩ := hs₁
        exact hs
    split at h
    · obtain ⟨this', hjoin, h⟩ := bind_eq_some_iff.1 h
      obtain ⟨⟩ := h
      exact joinItem_isExact hthis hk hv hjoin
    · obtain ⟨⟩ := h
      exact hthis
  · obtain ⟨this', hjoin, h⟩ := bind_eq_some_iff.1 h
    obtain ⟨⟩ := h
    exact joinItem_isExact hs hk hv hjoin

theorem inheritEdit_isExact (hs : s.this.isExact = true)
    (hf : ∀ cur cur', cur.isExact = true → f cur = some cur' → cur'.isExact = true)
    (h : inheritEdit s f = some s') : s'.this.isExact = true := by
  unfold inheritEdit at h
  split at h
  · rename_i m hm
    have hall := (isExact_map.1 (editMap_isExact hs hm)).2
    obtain ⟨cur, hcur, h⟩ := bind_eq_some_iff.1 h
    obtain ⟨cur', hcur', h⟩ := bind_eq_some_iff.1 h
    obtain ⟨m', hm', h⟩ := bind_eq_some_iff.1 h
    obtain ⟨⟩ := h
    obtain ⟨p, hp, rfl⟩ := map_eq_some_iff.1 hcur
    have hp := (allExact_iff.1 hall p (mem_of_getElem? hp)).2
    exact endEditMapAt_isExact hall (hf _ _ hp hcur') hm'
  · obtain ⟨⟩ := h
    exact hs

theorem inheritPair_isExact (hs : s.this.isExact = true) (hk : key.isExact = true)
    (hv : value.isExact = true)
    (hf : ∀ cur cur', cur.isExact = true → f cur = some cur' → cur'.isExact = true)
    (h : inheritPair flags s key value f = some s') : s'.this.isExact = true := by
  obtain ⟨⟨s₁, cmp⟩, hadvance, h⟩ := bind_eq_some_iff.1 h
  have hs₁ : s₁.this.isExact = true := by rw [advance_this _ s s₁ _ cmp hadvance, hs]
  dsimp only at h
  split at h
  · exact inheritNew_isExact hs₁ hk hv h
  · split at h
    · exact inheritEdit_isExact hs₁ hf h
    · obtain ⟨⟩ := h
      exact hs₁

theorem inheritWith_isExact {loop : InheritState → Option InheritState} (ha : a.isExact = true)
    (hb : b.isExact = true)
    (hloop : ∀ s s', s.this.isExact = true → loop s = some s' → s'.this.isExact = true)
    (h : inheritWith a b loop = some r) : r.isExact = true := by
  unfold inheritWith at h
  split at h
  · obtain ⟨⟩ := h
    exact hb
  · split at h
    · obtain ⟨s, hs, rfl⟩ := map_eq_some_iff.1 h
      exact hloop _ s ha hs
    · split at h
      · obtain ⟨⟩ := h
        exact hb
      · obtain ⟨⟩ := h
        exact ha

/-- **`Inherit`.** -/
theorem inherit_isExact : ∀ b a r : SValue, a.isExact = true → b.isExact = true →
    inherit flags a b = some r → r.isExact = true := by
  intro b
  induction b using SValue.ind with
  | map m ih =>
    intro a r ha hb h
    obtain ⟨avail, dataSize, maps⟩ := m
    rw [inherit] at h
    refine inheritWith_isExact ha hb ?_ h
    have hloop : ∀ l : List Pair, (∀ p ∈ l, p ∈ maps) → ∀ s s' : InheritState,
        s.this.isExact = true → inheritItems flags s l = some s' → s'.this.isExact = true := by
      intro l
      induction l with
      | nil =>
        intro _ s s' hs h
        rw [inheritItems] at h
        obtain ⟨⟩ := h
        exact hs
      | cons p l ihl =>
        intro hsub s s' hs h
        have hmem := hsub _ mem_cons_self
        have hp := allExact_iff.1 (isExact_map.1 hb).2 _ hmem
        rw [inheritItems] at h
        obtain ⟨s₁, hs₁, h⟩ := bind_eq_some_iff.1 h
        refine ihl (fun q hq => hsub q (mem_cons_of_mem _ hq)) s₁ s' ?_ h
        exact inheritPair_isExact hs hp.1 hp.2
          (fun cur cur' hcur => (ih _ hmem).2 cur cur' hcur hp.2) hs₁
    exact hloop maps fun p hp => hp
  | _ =>
    intro a r ha hb h
    rw [inherit] at h
    · refine inheritWith_isExact ha hb ?_ h
      refine foldlM_isExact (I := fun s : InheritState => s.this.isExact = true) (items_isExact hb) ?_
      intro p hp hk hv s s' hs hstep
      exact inheritPair_isExact hs hk hv (fun cur cur' _ hnone => by cases hnone) hstep
    · simp

theorem valueFor_isExact (hthis : this.isExact = true) (hk : key.isExact = true) :
    (this.valueFor key).isExact = true := by
  unfold valueFor
  split
  · exact hthis
  · split
    · rename_i m
      split
      · rename_i index hindex
        cases hp : m.maps[index]? with
        | none => rfl
        | some p =>
          exact (allExact_iff.1 (isExact_map.1 hthis).2 p (mem_of_getElem? hp)).2
      · split <;> rfl
    · split
      · exact hk
      · split
        · rfl
        · split
          · exact hthis
          · rfl

theorem terminal_isExact (half : Half) (ha : a.isExact = true) (hb : b.isExact = true) :
    (half.terminal a b).isExact = true := by
  cases half with
  | removed =>
    show (removeTerminal a b).isExact = true
    unfold removeTerminal
    split <;> split <;> first | exact ha | rfl
  | retained =>
    show (retainTerminal a b).isExact = true
    unfold retainTerminal
    split
    · split
      · exact ha
      · split
        · exact hb
        · rfl
    · split
      · exact ha
      · rfl

/-- **`Remove` and `Retain`.** -/
theorem correctWith_isExact (half : Half) : ∀ a b r : SValue, a.isExact = true →
    b.isExact = true → correctWith half flags a b = some r → r.isExact = true := by
  intro a
  induction a using SValue.ind with
  | map m ih =>
    intro b r ha hb h
    obtain ⟨avail, dataSize, maps⟩ := m
    rw [correctWith] at h
    split at h
    · obtain ⟨⟩ := h
      exact hb
    have hloop : ∀ l : List Pair, (∀ p ∈ l, p ∈ maps) → ∀ this r, this.isExact = true →
        correctItems half flags l b this = some r → r.isExact = true := by
      intro l
      induction l with
      | nil =>
        intro _ this r hthis hr
        rw [correctItems] at hr
        obtain ⟨⟩ := hr
        exact hthis
      | cons p l ihl =>
        intro hsub this r hthis hr
        have hmem := hsub _ mem_cons_self
        have hrest := ihl fun q hq => hsub q (mem_cons_of_mem _ hq)
        have hp := allExact_iff.1 (isExact_map.1 ha).2 _ hmem
        rw [correctItems] at hr
        split at hr
        · split at hr
          · obtain ⟨this', hjoin, hr⟩ := bind_eq_some_iff.1 hr
            exact hrest this' r (joinItem_isExact hthis hp.1 hp.2 hjoin) hr
          · exact hrest this r hthis hr
        · obtain ⟨part, hpart, hr⟩ := bind_eq_some_iff.1 hr
          obtain ⟨this', hjoin, hr⟩ := bind_eq_some_iff.1 hr
          have hpart := (ih _ hmem).2 _ part hp.2 (valueFor_isExact hb hp.1) hpart
          exact hrest this' r (joinItem_isExact hthis hp.1 hpart hjoin) hr
    exact hloop maps (fun p hp => hp) undefined r rfl h
  | _ =>
    intro b r ha hb h
    rw [correctWith] at h
    · split at h
      · obtain ⟨⟩ := h
        split
        · exact ha
        · exact hb
      · obtain ⟨⟩ := h
        exact terminal_isExact half ha hb
    · simp

theorem removeMap_isExact {found : Bool} (hm : (map m).isExact = true)
    (h : m.removeMap key value = some (found, m')) : (map m').isExact = true := by
  unfold BValueMap.removeMap at h
  split at h
  · split at h
    · obtain ⟨m₁, hremove, h⟩ := map_eq_some_iff.1 h
      obtain ⟨-, rfl⟩ := Prod.mk.inj h
      exact (removeMapAt_isExact (isExact_map.1 hm).2 hremove).1
    · obtain ⟨⟩ := h
      exact hm
  · obtain ⟨⟩ := h
    exact isExact_fresh rfl

/-- **`RemoveItem`.** -/
theorem removeItem_isExact {status : RemoveStatus} (hthis : this.isExact = true)
    (hv : value.isExact = true) (h : removeItem this key value = some (status, r)) :
    r.isExact = true := by
  unfold removeItem at h
  split at h
  · split at h
    · obtain ⟨⟩ := h
      rfl
    split at h
    · rename_i m
      split at h
      · obtain ⟨⟨found, m'⟩, hremove, h⟩ := bind_eq_some_iff.1 h
        have hm' := removeMap_isExact hthis hremove
        dsimp only at h
        split at h
        · obtain ⟨⟩ := h
          exact shrinkMap_isExact hm'
        · obtain ⟨⟩ := h
          exact hm'
      · split at h
        · rename_i m' i hbegin
          obtain ⟨this', hedit, h⟩ := bind_eq_some_iff.1 h
          obtain ⟨⟩ := h
          exact editAt_isExact (beginEditItem_isExact hthis hbegin)
            (fun cur cur' hcur => correctWith_isExact .removed cur value cur' hcur hv) hedit
        · obtain ⟨⟩ := h
          exact hthis
    · obtain ⟨⟩ := h
      exact hthis
  · obtain ⟨⟩ := h
    exact hthis

/-- **`RenameItem`.** -/
theorem renameItem_isExact {status : BValueMap.RenameStatus} (hthis : this.isExact = true)
    (hv : value.isExact = true) (h : renameItem this key value = some (status, r)) :
    r.isExact = true := by
  unfold renameItem at h
  split at h
  · rename_i m
    obtain ⟨⟨status', m'⟩, hrename, h⟩ := map_eq_some_iff.1 h
    obtain ⟨-, rfl⟩ := Prod.mk.inj h
    unfold BValueMap.renameMap at hrename
    split at hrename
    · split at hrename
      · obtain ⟨⟨k, x⟩, hp, hrename⟩ := bind_eq_some_iff.1 hrename
        have hp := allExact_iff.1 (isExact_map.1 hthis).2 _ (mem_of_getElem? hp)
        dsimp only at hrename
        split at hrename
        · obtain ⟨m₁, hremove, hrename⟩ := bind_eq_some_iff.1 hrename
          obtain ⟨⟩ := hrename
          obtain ⟨hm₁, hsize⟩ := removeMapAt_isExact (isExact_map.1 hthis).2 hremove
          have hadd := addMapAt_isExact (isExact_map.1 hm₁).2 hsize hv hp.2
          exact isExact_fresh (isExact_map.1 (hadd _)).2
        · obtain ⟨⟩ := hrename
          exact hthis
      · obtain ⟨⟩ := hrename
        exact hthis
    · obtain ⟨⟩ := hrename
      exact hthis
  · obtain ⟨⟩ := h
    exact hthis

/-! ### Copies, sizes and `ReplaceValues` -/

theorem archivedSize_copy : ∀ v : SValue, v.copy.archivedSize = v.archivedSize := by
  intro v
  induction v using SValue.ind with
  | map m ih =>
    obtain ⟨avail, dataSize, maps⟩ := m
    have hmaps : computeArchivedSize (copyMaps maps) = computeArchivedSize maps := by
      induction maps with
      | nil => rfl
      | cons p maps ihl =>
        obtain ⟨k, v⟩ := p
        obtain ⟨hk, hv⟩ := ih (k, v) mem_cons_self
        rw [copyMaps, computeArchivedSize, computeArchivedSize, hk, hv,
          ihl fun p hp => ih p (mem_cons_of_mem _ hp)]
    simp only [copy, archivedSize, hmaps]
  | _ => rfl

theorem computeArchivedSize_copyMaps (l : List Pair) :
    computeArchivedSize (copyMaps l) = computeArchivedSize l := by
  induction l with
  | nil => rfl
  | cons p l ih =>
    rw [copyMaps, computeArchivedSize, computeArchivedSize, archivedSize_copy, archivedSize_copy, ih]

theorem computeArchivedSize_sizedMaps (l : List Pair) :
    computeArchivedSize (sizedMaps l) = computeArchivedSize l := by
  induction l with
  | nil => rfl
  | cons p l ih =>
    rw [sizedMaps, computeArchivedSize, computeArchivedSize, archivedSize_sized, archivedSize_sized,
      ih]

/-- **Copies share their tables**, which are cloned with their sizes. -/
theorem copy_isExact : ∀ v : SValue, v.isExact = true → v.copy.isExact = true := by
  intro v
  induction v using SValue.ind with
  | map m ih =>
    intro h
    obtain ⟨avail, dataSize, maps⟩ := m
    obtain ⟨hsize, hall⟩ := isExact_map.1 h
    have hcopies : allExact (copyMaps maps) = true := by
      clear h hsize
      induction maps with
      | nil => rfl
      | cons p maps ihl =>
        obtain ⟨k, v⟩ := p
        obtain ⟨hk, hv⟩ := allExact_iff.1 hall (k, v) mem_cons_self
        obtain ⟨ihk, ihv⟩ := ih (k, v) mem_cons_self
        have hrest := ihl (fun q hq => ih q (mem_cons_of_mem _ hq))
          (allExact_iff.2 fun q hq => allExact_iff.1 hall q (mem_cons_of_mem _ hq))
        rw [copyMaps, allExact, ihk hk, ihv hv, hrest]
        rfl
    rw [copy]
    refine isExact_map.2 ⟨fun size hs => ?_, hcopies⟩
    rw [computeArchivedSize_copyMaps]
    exact hsize size hs
  | _ =>
    intro _
    rfl

/-- **`ArchivedSize`** caches the sizes of the tables. -/
theorem sized_isExact : ∀ v : SValue, v.isExact = true → v.sized.isExact = true := by
  intro v
  induction v using SValue.ind with
  | map m ih =>
    intro h
    obtain ⟨avail, dataSize, maps⟩ := m
    obtain ⟨hsize, hall⟩ := isExact_map.1 h
    cases dataSize with
    | some size =>
      rw [sized]
      exact h
    | none =>
      have hsized : allExact (sizedMaps maps) = true := by
        clear h hsize
        induction maps with
        | nil => rfl
        | cons p maps ihl =>
          obtain ⟨k, v⟩ := p
          obtain ⟨hk, hv⟩ := allExact_iff.1 hall (k, v) mem_cons_self
          obtain ⟨ihk, ihv⟩ := ih (k, v) mem_cons_self
          have hrest := ihl (fun q hq => ih q (mem_cons_of_mem _ hq))
            (allExact_iff.2 fun q hq => allExact_iff.1 hall q (mem_cons_of_mem _ hq))
          rw [sizedMaps, allExact, ihk hk, ihv hv, hrest]
          rfl
      rw [sized]
      refine isExact_map.2 ⟨fun size hs => ?_, hsized⟩
      rw [computeArchivedSize_sizedMaps]
      split at hs
      · rename_i hnonneg
        obtain ⟨⟩ := hs
        exact Int.toNat_of_nonneg hnonneg
      · cases hs
  | _ =>
    intro _
    rfl

theorem replaced_isExact {newValues : List SValue} (hnew : ∀ v ∈ newValues, v.isExact = true)
    (indices : List ℕ) (hl : allExact l = true) :
    allExact ((newValues.zip indices).foldl (fun maps p => maps.modify p.2 fun q => (q.1, p.1)) l) =
      true := by
  induction newValues generalizing indices l with
  | nil => exact hl
  | cons v newValues ih =>
    cases indices with
    | nil => exact hl
    | cons i indices =>
      exact ih (fun w hw => hnew w (mem_cons_of_mem _ hw)) indices
        (modify_isExact hl (hnew v mem_cons_self) i)

/-- **`ReplaceValues`** keeps the cached size of the table. -/
theorem replaceValues_isExact {newValues : List SValue} {indices : List ℕ}
    (hthis : this.isExact = true) (hnew : ∀ v ∈ newValues, v.isExact = true)
    (hsize : ∀ m m', this = map m → this.replaceValues newValues indices = map m' →
      m.dataSize ≠ none → computeArchivedSize m'.maps = computeArchivedSize m.maps) :
    (this.replaceValues newValues indices).isExact = true := by
  cases this with
  | map m =>
    obtain ⟨hcached, hall⟩ := isExact_map.1 hthis
    refine isExact_map.2 ⟨fun size hs => ?_, replaced_isExact hnew indices hall⟩
    rw [hsize m _ rfl rfl (by rw [show m.dataSize = some size from hs]; simp)]
    exact hcached size hs
  | _ => exact hthis

end OpenBinder.SValue
