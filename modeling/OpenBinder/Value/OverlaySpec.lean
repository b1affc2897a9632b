import OpenBinder.Value.Overlay
import OpenBinder.Value.Laws

/-!
# What Overlay does, and when it goes wrong

`overlayOk` is the condition on the two values under which `Overlay` runs
through: no block of pairs is compacted around a pair that is not the first while set
items are removed, and a value with set items does not end in a key the other has too.

* `overlay_spec`: then the set part is replaced and the entries are put over the
  entries.
* `overlay_none`: otherwise `Overlay` follows a null pointer or reads a destroyed pair.
-/

namespace OpenBinder.SValue

open Lib List

/-- The value that `BeginEditItem` gives, if any. -/
def entryFor (this key : SValue) : Option SValue :=
  (this.beginEditItem key).bind fun mi => mi.1.beginEditMapAt mi.2

/-- Whether `make_map_without_sets` runs through. -/
def canClear : SValue → Bool
  | map m => setsClear m
  | _ => true

/-- Whether the set items can be removed once the keys in front of the first set item
of `l` are in the table. -/
def clearsOk : SValue → List Pair → Bool
  | _, [] => true
  | this, (key, value) :: rest =>
    if key.isWild then canClear this
    else clearsOk (this.addItem key value) rest

/-- Whether the last pair of `l` has a key of the value. -/
def endsInEdit (this : SValue) (l : List Pair) : Bool :=
  match l.getLast? with
  | some p => (this.beginEditItem p.1).isSome
  | none => false

mutual

/-- When `Overlay` runs through. -/
def overlayOk : SValue → SValue → Bool
  | this, map ⟨_, _, maps⟩ =>
    !this.isSpecified ||
      (entriesOk this maps && clearsOk this maps && !(hasSets maps && endsInEdit this maps))
  | this, v => v.isFinal || !(this.isSpecified && this.isMap) || clearsOk this v.items

/-- The same for the values under the keys that the value has already. -/
def entriesOk : SValue → List Pair → Bool
  | _, [] => true
  | this, (key, value) :: rest =>
    (match this.entryFor key with
      | some cur => overlayOk cur value
      | none => true) && entriesOk this rest

end

/-- A value in the middle of the loop, with no error in it. -/
structure Live (v : SValue) : Prop where
  part : Partial v
  wild : v.isWild = false
  errorFree : v.isErrorFree = true

variable {v this key a b : SValue} {m : BValueMap SValue} {l : List Pair} {flags : Flags}

theorem Live.error (h : Live v) : v.isError = false := isError_of_isErrorFree h.errorFree

theorem Live.items (h : Live v) : Items v.items := h.part.items h.wild

theorem Live.map (hi : Items m.maps)
    (hf : ∀ p ∈ m.maps, p.1.isErrorFree = true ∧ p.2.isErrorFree = true) : Live (map m) :=
  ⟨hi, isWild_map m, isErrorFree_map.2 hf⟩

/-- A pair that can be added: that of a normalised, error-free map. -/
structure Good (p : Pair) : Prop where
  normal : p.1.isNormal = true ∧ p.2.isNormal = true
  proper : isProper p = true
  errorFree : p.1.isErrorFree = true ∧ p.2.isErrorFree = true

theorem beginEditItem_entry (h : Live this) (hk : key.isWild = false) :
    (this.beginEditItem key = none ∧ ∀ x, ¬ Entry this.items key.code x) ∨
      ∃ m i k cur, this = SValue.map m ∧ this.beginEditItem key = some (m, i) ∧
        m.maps[i]? = some (k, cur) ∧ k.isWild = false ∧ k.code = key.code ∧
        Entry this.items key.code cur ∧ this.entryFor key = some cur := by
  cases hb : this.beginEditItem key with
  | none =>
    refine .inl ⟨rfl, fun x hx => ?_⟩
    have := beginEditItem_none h.part hk hb x
    rw [slot_key hk, ← entry_slot] at this
    exact this ⟨x, hx⟩
  | some mi =>
    obtain ⟨m, i⟩ := mi
    obtain ⟨rfl, -, k, cur, hi, hkw, hc⟩ := beginEditItem_some h.part hb
    refine .inr ⟨m, i, k, cur, rfl, rfl, hi, hkw, hc, ⟨k, mem_of_getElem? hi, hkw, hc⟩, ?_⟩
    simp [entryFor, hb, BValueMap.beginEditMapAt, hi]

theorem beginEditItem_isSome (h : Live this) :
    (this.beginEditItem key).isSome = true ↔ key.isWild = false ∧ ∃ x, Entry this.items key.code x := by
  cases hk : key.isWild with
  | true => simp [beginEditItem, hk]
  | false =>
    rcases beginEditItem_entry h hk with ⟨hb, hno⟩ | ⟨m, i, k, cur, -, hb, -, -, -, he, -⟩
    · simp [hb, hno]
    · simp only [hb, Option.isSome_some, true_iff, true_and]
      exact ⟨cur, he⟩

/-! ## The shape of a table -/

/-- Two tables with the same slots in blocks of one capacity. -/
def SameShape (a b : SValue) : Prop :=
  ∃ m m', a = map m ∧ b = map m' ∧ Items m.maps ∧ Items m'.maps ∧ m.avail = m'.avail ∧
    m.maps.map slot = m'.maps.map slot

theorem isWild_of_slot {p q : Pair} (h : slot p = slot q) : p.1.isWild = q.1.isWild := by
  rcases slot_eq_iff.1 h with ⟨h1, h2, -⟩ | ⟨h1, h2, -⟩ <;> simp [h1, h2]

theorem hasSets_slot : ∀ {l l' : List Pair}, l.map slot = l'.map slot → hasSets l = hasSets l'
  | [], [], _ => rfl
  | p :: l, q :: l', h => by
    simp only [map_cons, List.cons.injEq] at h
    rw [hasSets_cons, hasSets_cons, isWild_of_slot h.1, hasSets_slot h.2]

theorem keyedItems_slot : ∀ {l l' : List Pair}, l.map slot = l'.map slot →
    (keyedItems l).length = (keyedItems l').length
  | [], [], _ => rfl
  | p :: l, q :: l', h => by
    simp only [map_cons, List.cons.injEq] at h
    have hw := isWild_of_slot h.1
    have ih := keyedItems_slot h.2
    cases hp : p.1.isWild with
    | true => rw [keyedItems_wild hp, keyedItems_wild (hw ▸ hp), ih]
    | false => rw [keyedItems_key hp, keyedItems_key (hw ▸ hp)]; simp [ih]

theorem takeWhile_slot : ∀ {l l' : List Pair}, l.map slot = l'.map slot →
    (l.takeWhile fun p => p.1.isWild).length = (l'.takeWhile fun p => p.1.isWild).length ∧
      (l.dropWhile fun p => p.1.isWild).map slot = (l'.dropWhile fun p => p.1.isWild).map slot
  | [], [], _ => ⟨rfl, rfl⟩
  | p :: l, q :: l', h => by
    simp only [map_cons, List.cons.injEq] at h
    have hw := isWild_of_slot h.1
    have ih := takeWhile_slot h.2
    cases hp : p.1.isWild with
    | true =>
      simp only [takeWhile_cons, dropWhile_cons, hp, hw ▸ hp, if_true, length_cons, ih,
        and_self]
    | false =>
      simp only [takeWhile_cons, dropWhile_cons, hp, hw ▸ hp, Bool.false_eq_true, if_false,
        map_cons, h, and_self]

theorem setsClear_shape {m' : BValueMap SValue} (ha : m.avail = m'.avail)
    (hs : m.maps.map slot = m'.maps.map slot) : setsClear m = setsClear m' := by
  obtain ⟨h1, h2⟩ := takeWhile_slot hs
  have hlen : m.countMaps = m'.countMaps := by
    simpa [BValueMap.countMaps] using congrArg List.length hs
  simp only [setsClear, h1, hasSets_slot h2, keyedItems_slot h2, ha, hlen]

theorem search_shape {l' : List Pair} (hs : l.map slot = l'.map slot) (t : List ℤ) :
    search cmpCode slot l t = search cmpCode slot l' t := by
  have hlen : l.length = l'.length := by simpa using congrArg List.length hs
  unfold search
  rw [hlen]
  congr 1
  funext i
  have hi : l[i]?.map slot = l'[i]?.map slot := by
    rw [← List.getElem?_map, ← List.getElem?_map, hs]
  unfold verdict
  cases h : l[i]? <;> cases h' : l'[i]? <;> simp [h, h'] at hi ⊢
  rw [hi]

theorem addItem_map (m : BValueMap SValue) (key value : SValue) :
    addItem (map m) key value = map (m.addNewMap key value) := rfl

theorem addItem_shape {value : SValue} (h : SameShape a b)
    (hn : key.isNormal = true ∧ value.isNormal = true) (hp : isProper (key, value) = true) :
    SameShape (addItem a key value) (addItem b key value) := by
  obtain ⟨m, m', rfl, rfl, hi, hi', ha, hs⟩ := h
  have hnew : ∀ {m : BValueMap SValue}, Items m.maps → Items (m.addNewMap key value).maps := by
    intro m hi
    have hpart : Partial (map m) := hi
    obtain ⟨m1, hm1, hi1, -⟩ := addItem_spec hpart (isError_map m) (isWild_map m) hn hp
    rw [addItem_map] at hm1
    cases hm1
    exact hi1
  refine ⟨_, _, rfl, rfl, hnew hi, hnew hi', ?_⟩
  have hsearch := BValueMap.getIndexOf_eq_search hi.keyed (keyed_of_isProper hp)
  have hsearch' := BValueMap.getIndexOf_eq_search hi'.keyed (keyed_of_isProper hp)
  rw [search_shape hs] at hsearch
  have hlen : m.countMaps = m'.countMaps := by
    simpa [BValueMap.countMaps] using congrArg List.length hs
  unfold BValueMap.addNewMap
  split
  · rw [hsearch, ← hsearch']
    split
    · refine ⟨?_, ?_⟩
      · rw [BValueMap.addMapAt_avail, BValueMap.addMapAt_avail]
        have hcount : ∀ avail, (⟨avail, none, m.maps⟩ : BValueMap SValue).countMaps =
            m'.countMaps := fun _ => hlen
        have hcount' : ∀ avail, (⟨avail, none, m'.maps⟩ : BValueMap SValue).countMaps =
            m'.countMaps := fun _ => rfl
        simp only [hcount, hcount', ha]
      · rw [BValueMap.addMapAt_maps, BValueMap.addMapAt_maps]
        rw [map_insertIdx, map_insertIdx, hs]
    · exact ⟨ha, hs⟩
  · exact ⟨ha, hs⟩

theorem clearsOk_shape (h : SameShape a b) :
    ∀ {l : List Pair}, (∀ p ∈ l, Good p) → clearsOk a l = clearsOk b l := by
  intro l
  induction l generalizing a b with
  | nil => intro _; rfl
  | cons p l ih =>
    intro hl
    have hp := hl _ mem_cons_self
    have ih := ih (addItem_shape h hp.normal hp.proper) fun q hq => hl q (mem_cons_of_mem _ hq)
    obtain ⟨m, m', rfl, rfl, -, -, ha, hs⟩ := h
    simp only [clearsOk, canClear, ih, setsClear_shape ha hs]

/-! ## The loop -/

/-- The entries after putting those of `from` over those of `this`. -/
def EntryOver (flags : Flags) (this from' : List Pair) (c : List ℤ) (x : SValue) : Prop :=
  (∃ y z, Entry this c y ∧ Entry from' c z ∧ overlay flags y z = some x) ∨
    (Entry this c x ∧ ∀ z, ¬ Entry from' c z) ∨ (Entry from' c x ∧ ∀ y, ¬ Entry this c y)

/-- The set part after putting that of `from` over that of `this`, if it has one. -/
def SetOver (cleared : Bool) (this from' : List Pair) (t : List ℤ) : Prop :=
  if hasSets from' then SetItem from' t ∨ (cleared = true ∧ SetItem this t) else SetItem this t

/-- What the loop of `Overlay` over the pairs `l` promises. -/
structure Laid (flags : Flags) (s : OverlayState) (l : List Pair) (s' : OverlayState) : Prop where
  live : Live s'.this
  cleared : s'.setCleared = (s.setCleared || hasSets l)
  hasMap : s'.hasMap = if l = [] then s.hasMap else !endsInEdit s.this l
  isMap : l ≠ [] ∨ s.this.isSimple = false → s'.this.isSimple = false
  set : ∀ t, SetItem s'.this.items t ↔ SetOver s.setCleared s.this.items l t
  entry : ∀ c x, Entry s'.this.items c x ↔ EntryOver flags s.this.items l c x
  keys : ∀ c, (∃ x, Entry s'.this.items c x) ↔ (∃ x, Entry s.this.items c x) ∨ ∃ x, Entry l c x

theorem Laid.nil {s : OverlayState} (h : Live s.this) : Laid flags s [] s where
  live := h
  cleared := by simp
  hasMap := by simp
  isMap := by simp
  set := by simp [SetOver]
  entry := by simp [EntryOver]
  keys := by simp

/-- A key is among the first pairs or among the rest, not both. -/
theorem Laid.cons {flags : Flags} {s s' s'' : OverlayState} {p : Pair} {l : List Pair}
    (hs : Live s.this) (ht : Items (p :: l)) (h : Laid flags s [p] s') (h' : Laid flags s' l s'') :
    Laid flags s (p :: l) s'' := by
  obtain ⟨k, v⟩ := p
  have hfresh : k.isWild = false → ∀ z, ¬ Entry l k.code z := by
    rintro hk z ⟨k', hp, hk', hc⟩
    have hlt := (pairwise_cons.1 ht.table).1 _ hp
    rw [slot_key hk, slot_key hk', hc] at hlt
    exact cmp_irrefl _ hlt
  have hentry : ∀ c x, (k.isWild = true ∨ k.code ≠ c) →
      (Entry s'.this.items c x ↔ Entry s.this.items c x) := by
    intro c x hc
    have hno : ∀ z, ¬ Entry [(k, v)] c z := by
      intro z hz
      rcases entry_cons.1 hz with ⟨hk, hc', -⟩ | hz
      · rcases hc with hc | hc
        · rw [hk] at hc; cases hc
        · exact hc hc'
      · exact not_entry_nil _ _ hz
    rw [h.entry, EntryOver]
    simp [hno]
  refine ⟨h'.live, ?_, ?_, ?_, fun t => ?_, fun c x => ?_, fun c => ?_⟩
  · rw [h'.cleared, h.cleared]; simp [Bool.or_assoc]
  · rw [h'.hasMap]
    by_cases hl : l = []
    · subst hl
      rw [h.hasMap]; simp
    · rw [if_neg hl, if_neg (by simp)]
      congr 1
      -- the last pair has a key of its own, so the first round did not touch it
      obtain ⟨q, hq⟩ : ∃ q, l.getLast? = some q := by
        cases hq : l.getLast? with
        | none => exact absurd (List.getLast?_eq_none_iff.1 hq) hl
        | some q => exact ⟨q, rfl⟩
      have hq' : ((k, v) :: l).getLast? = some q := by
        rw [List.getLast?_cons, hq]; rfl
      unfold endsInEdit
      simp only [hq, hq']
      rw [Bool.eq_iff_iff, beginEditItem_isSome h.live, beginEditItem_isSome hs]
      refine and_congr_right fun hqw => exists_congr fun x => hentry _ _ ?_
      by_contra hc
      rw [not_or, not_not] at hc
      exact hfresh (by simpa using hc.1) q.2 ⟨q.1, mem_of_getLast? hq, hqw, hc.2.symm⟩
  · intro _
    exact h'.isMap (.inr (h.isMap (.inl (by simp))))
  · rw [h'.set, SetOver, SetOver, hasSets_cons]
    have hcl := h.cleared
    have hset := h.set t
    rw [SetOver] at hset
    cases hk : k.isWild with
    | true =>
      simp only [hasSets_cons, hk, hasSets_nil, Bool.or_false, Bool.or_true, if_true] at hcl hset
      simp only [Bool.true_or, if_true, setItem_cons, hk, true_and, not_setItem_nil, or_false] at hset ⊢
      rw [hset, hcl]
      cases hl : hasSets l with
      | true => simp only [if_true, true_and]; rw [or_left_comm, or_assoc]
      | false =>
        have hno : ¬ SetItem l t := by
          rintro ⟨k', v', hp, hk', -⟩
          have := any_eq_false.1 hl _ hp
          exact this hk'
        simp [hno]
    | false =>
      simp only [hasSets_cons, hk, hasSets_nil, Bool.or_false, Bool.false_eq_true, if_false] at hcl hset
      simp only [Bool.false_or, setItem_cons, hk, Bool.false_eq_true, false_and, false_or]
      rw [hset, hcl]
  · rw [h'.entry]
    by_cases hc : k.isWild = true ∨ k.code ≠ c
    · have hcons : ∀ z, Entry ((k, v) :: l) c z ↔ Entry l c z := by
        intro z
        rw [entry_cons]
        constructor
        · rintro (⟨hk, hkc, -⟩ | hz)
          · rcases hc with hc | hc
            · rw [hk] at hc; cases hc
            · exact absurd hkc hc
          · exact hz
        · exact .inr
      simp only [EntryOver, hentry c _ hc, hcons]
    · rw [not_or, not_not] at hc
      obtain ⟨hk, rfl⟩ := hc
      have hk : k.isWild = false := by simpa using hk
      have hno := hfresh hk
      have hone : ∀ z, Entry ((k, v) :: l) k.code z ↔ Entry [(k, v)] k.code z := by
        intro z; simp [hno]
      have hx : EntryOver flags s'.this.items l k.code x ↔ Entry s'.this.items k.code x := by
        simp [EntryOver, hno]
      rw [hx, h.entry]
      simp only [EntryOver, hone]
  · rw [h'.keys, h.keys, or_assoc]
    simp only [entry_cons, not_entry_nil, or_false, exists_or]

theorem setItem_keyedItems (t : List ℤ) : ¬ SetItem (keyedItems l) t := by
  rintro ⟨k, v, hp, hk, -⟩
  have := (mem_keyedItems.1 hp).2
  rw [hk] at this
  cases this

theorem entry_keyedItems (c : List ℤ) (x : SValue) :
    Entry (keyedItems l) c x ↔ Entry l c x := by
  constructor
  · rintro ⟨k, hp, hk, hc⟩
    exact ⟨k, (mem_keyedItems.1 hp).1, hk, hc⟩
  · rintro ⟨k, hp, hk, hc⟩
    exact ⟨k, mem_keyedItems.2 ⟨hp, hk⟩, hk, hc⟩

/-- **`make_map_without_sets`** leaves the keyed items. -/
theorem makeMapWithoutSets_spec (h : Live v) :
    (canClear v = false → makeMapWithoutSets v = none) ∧
      (canClear v = true → ∃ v' b, makeMapWithoutSets v = some (v', b) ∧ Live v' ∧
        v'.items = keyedItems v.items) := by
  by_cases hs : v.isSimple = true
  · have hu : makeMapWithoutSets v = some (undefined, false) := by
      cases v with
      | map m => simp at hs
      | _ => rfl
    have hc : canClear v = true := by
      cases v with
      | map m => simp at hs
      | _ => rfl
    refine ⟨fun h' => (by rw [hc] at h'; cases h'), fun _ => ⟨_, _, hu, ?_, ?_⟩⟩
    · exact ⟨trivial, by decide, by decide⟩
    · have hitems : SValue.undefined.items = [] := rfl
      rw [hitems, eq_comm, eq_nil_iff_forall_not_mem]
      intro p hp
      obtain ⟨hp, hw⟩ := mem_keyedItems.1 hp
      rw [items_wild_key hs p hp] at hw
      cases hw
  · obtain ⟨m, rfl⟩ := isSimple_eq_false.1 (by simpa using hs)
    have hspec := clearSets_spec m.maps m rfl
    refine ⟨fun hc => ?_, fun hc => ?_⟩
    · simp only [canClear] at hc
      rw [hc] at hspec
      have : clearSets m.countMaps 0 m = none := by
        simpa [BValueMap.countMaps] using hspec
      simp [makeMapWithoutSets, this]
    · simp only [canClear] at hc
      rw [hc, if_pos rfl] at hspec
      obtain ⟨m', hm', hmaps⟩ := Option.map_eq_some_iff.1 hspec
      have hm' : clearSets m.countMaps 0 m = some m' := hm'
      refine ⟨map m', hasSets m.maps, by simp [makeMapWithoutSets, hm'], ?_, hmaps⟩
      have hi : Items m.maps := h.part
      have hsub : ∀ p ∈ m'.maps, p ∈ m.maps := by
        intro p hp
        rw [hmaps] at hp
        exact (mem_keyedItems.1 hp).1
      refine Live.map ⟨fun p hp => hi.normal p (hsub p hp), fun p hp => hi.proper p (hsub p hp), ?_⟩
        fun p hp => isErrorFree_map.1 h.errorFree p (hsub p hp)
      rw [hmaps]
      exact hi.sorted.sublist filter_sublist

theorem addItem_live {value : SValue} (h : Live this) (hg : Good (key, value))
    (hnew : key.isWild = false → ∀ x, ¬ Entry this.items key.code x) :
    ∃ m, this.editMap = some m ∧ Live (map (m.addNewMap key value)) ∧
      addItem this key value = map (m.addNewMap key value) ∧
      (∀ t, SetItem (m.addNewMap key value).maps t ↔ SetItem ((key, value) :: this.items) t) ∧
      ∀ c x, Entry (m.addNewMap key value).maps c x ↔ Entry ((key, value) :: this.items) c x := by
  obtain ⟨m, hm, -⟩ := editMap_spec h.error h.wild
  obtain ⟨m', hm', hi, hsub, hset, hentry⟩ :=
    addItem_view h.part h.error h.wild hg.normal hg.proper hnew
  have : addItem this key value = map (m.addNewMap key value) := by simp [addItem, hm]
  rw [this] at hm'
  cases hm'
  refine ⟨m, hm, Live.map hi fun p hp => ?_, this, hset, hentry⟩
  rcases hsub p hp with rfl | hp
  · exact hg.errorFree
  · exact allErrorFree_iff.1 (isErrorFree_items h.errorFree) p hp

/-- **One round of the loop of `Overlay`.** -/
theorem overlayPair_spec {flags : Flags} (hr : flags.noRecursion = false) {s : OverlayState}
    {key value : SValue} (hs : Live s.this) (hg : Good (key, value))
    (hrec : key.isWild = false → ∀ cur, cur.isNormal = true → cur.isErrorFree = true →
      (overlayOk cur value = false → overlay flags cur value = none) ∧
      (overlayOk cur value = true → ∃ r, overlay flags cur value = some r ∧ r.isNormal = true ∧
        r.isErrorFree = true ∧ r.isDefined = true)) :
    let ok := (match s.this.entryFor key with
      | some cur => overlayOk cur value
      | none => true) && (s.setCleared || !key.isWild || canClear s.this)
    (ok = false → overlayPair flags s key value (fun cur => overlay flags cur value) = none) ∧
      (ok = true → ∃ s', overlayPair flags s key value (fun cur => overlay flags cur value) = some s' ∧
        Laid flags s [(key, value)] s' ∧
        (key.isWild = false → SameShape s'.this (s.this.addItem key value))) := by
  intro ok
  cases hk : key.isWild with
  | false =>
    rcases beginEditItem_entry hs hk with ⟨hb, hno⟩ | ⟨m, i, k, cur, hm, hb, hi, hkw, hc, he, hfor⟩
    · -- a new key
      obtain ⟨m, hm, hlive, hadd, hset, hentry⟩ := addItem_live hs hg fun _ => hno
      have hok : ok = true := by simp [ok, entryFor, hb, hk]
      refine ⟨fun h => absurd (hok.symm.trans h) (by simp), fun _ =>
        ⟨⟨map (m.addNewMap key value), true, s.setCleared⟩, ?_, ?_, fun _ => ?_⟩⟩
      · simp [overlayPair, hb, hk, hm]
      · refine ⟨hlive, by simp [hk], by simp [endsInEdit, hb], fun _ => isSimple_map _, fun t => ?_,
          fun c x => ?_, fun c => ?_⟩
        · rw [items_map, hset]; simp [SetOver, hk]
        · rw [items_map, hentry, entry_cons]
          simp only [EntryOver, entry_cons, hk, not_entry_nil, or_false, true_and]
          by_cases hcc : key.code = c
          · subst hcc; simp [hno]
          · simp [hcc]
        · simp only [items_map, hentry, entry_cons, not_entry_nil, or_false, exists_or]
          rw [or_comm]
      · rw [hadd]
        exact ⟨_, _, rfl, rfl, hlive.part, hlive.part, rfl, rfl⟩
    · -- an edit
      obtain ⟨this, hasMap, setCleared⟩ := s
      subst hm
      have hit : Items m.maps := hs.part
      have hin : (k, cur) ∈ m.maps := mem_of_getElem? hi
      have hrec := hrec hk cur (hit.normal _ hin).2 (isErrorFree_map.1 hs.errorFree _ hin).2
      have hok : ok = overlayOk cur value := by simp [ok, hfor, hk]
      rw [hok]
      have hround : overlayPair flags ⟨map m, hasMap, setCleared⟩ key value
          (fun cur => overlay flags cur value) =
          ((overlay flags cur value).bind fun r => endEditItem m i r).map
            fun this => ⟨this, false, setCleared⟩ := by
        simp only [overlayPair, hb, editAt, BValueMap.beginEditMapAt, hi, hr]
        cases hv : overlay flags cur value with
        | none => simp [hv]
        | some r => cases he : endEditItem m i r <;> simp [hv, he]
      refine ⟨fun h => by rw [hround, hrec.1 h]; rfl, fun h => ?_⟩
      obtain ⟨r, hr', hn, hf, hd⟩ := hrec.2 h
      rcases endEditItem_spec hit hi hkw hd hn with ⟨hlt, -⟩ | ⟨-, hend, hit'⟩
      · rw [errorCheck_of_isError (isError_of_isErrorFree hf)] at hlt
        exact absurd hlt (lt_irrefl _)
      refine ⟨⟨_, false, setCleared⟩, by rw [hround, hr', Option.bind_some, hend]; rfl, ?_, fun _ => ?_⟩
      · obtain ⟨hset, hentry⟩ := set_view r hit hi hkw
        refine ⟨Live.map hit' fun p hp => ?_, by simp [hk], by simp [endsInEdit, hb],
          fun _ => isSimple_map _, fun t => ?_, fun c x => ?_, fun c => ?_⟩
        · rcases (mem_set_iff r hit.table hi p).1 hp with rfl | ⟨hp, -⟩
          · exact ⟨(isErrorFree_map.1 hs.errorFree _ hin).1, hf⟩
          · exact isErrorFree_map.1 hs.errorFree p hp
        · rw [items_map, items_map, hset]; simp [SetOver, hk]
        · rw [items_map] at he
          rw [items_map, items_map, hentry]
          simp only [EntryOver, entry_cons, hk, not_entry_nil, or_false, true_and]
          by_cases hcc : key.code = c
          · subst hcc
            have huniq : ∀ y, Entry m.maps key.code y ↔ y = cur := fun y =>
              ⟨fun hy => Entry.unique hit hy he, fun hy => hy ▸ he⟩
            simp [hc, huniq, hr', eq_comm]
          · simp [hc, hcc, Ne.symm hcc]
        · rw [items_map] at he
          simp only [items_map, hentry, entry_cons, hk, not_entry_nil, or_false, true_and]
          by_cases hcc : c = key.code
          · subst hcc
            simp only [hc, true_and, ne_eq, not_true_eq_false, false_and, or_false]
            exact ⟨fun _ => .inl ⟨cur, he⟩, fun _ => ⟨r, rfl⟩⟩
          · simp [hc, hcc, Ne.symm hcc]
      · have hslot : slot (k, cur) = slot (key, value) := by rw [slot_key hkw, slot_key hk, hc]
        rw [addItem_map, addNewMap_of_mem hit hi hg.proper hslot]
        refine ⟨_, _, rfl, rfl, hit', hit, rfl, ext_getElem? fun j => ?_⟩
        rw [List.getElem?_map, List.getElem?_map, List.getElem?_set]
        split
        · rename_i hij
          subst hij
          rw [if_pos (List.getElem?_eq_some_iff.1 hi).1, hi]
          simp [slot_key hkw]
        · rfl
  | true =>
    have hb : s.this.beginEditItem key = none := by simp [beginEditItem, hk]
    have hfor : s.this.entryFor key = none := by simp [entryFor, hb]
    -- the item is added to a table `this` without set items, or with those added before
    have finish : ∀ this, Live this → (∀ t, SetItem this.items t ↔ s.setCleared = true ∧
        SetItem s.this.items t) → (∀ c x, Entry this.items c x ↔ Entry s.this.items c x) →
        ∃ m, this.editMap = some m ∧
          Laid flags s [(key, value)] ⟨map (m.addNewMap key value), true, true⟩ := by
      intro this hlive hset' hentry'
      obtain ⟨m, hm, hlive', -, hset, hentry⟩ := addItem_live hlive hg fun h => by rw [hk] at h; cases h
      refine ⟨m, hm, hlive', by simp [hk], by simp [endsInEdit, hb], fun _ => isSimple_map _,
        fun t => ?_, fun c x => ?_, fun c => ?_⟩
      · rw [items_map, hset, setItem_cons, hset']
        simp [SetOver, hk]
      · rw [items_map, hentry, entry_cons, hentry']
        simp [EntryOver, hk]
      · simp [items_map, hentry, hentry', hk]
    cases hcl : s.setCleared with
    | true =>
      have hok : ok = true := by simp [ok, hfor, hcl]
      obtain ⟨m, hm, hlaid⟩ := finish s.this hs (by simp [hcl]) (by simp)
      refine ⟨fun h => absurd (hok.symm.trans h) (by simp), fun _ => ⟨_, ?_, hlaid, by simp⟩⟩
      simp [overlayPair, hb, hcl, hm]
    | false =>
      have hok : ok = canClear s.this := by simp [ok, hfor, hcl, hk]
      rw [hok]
      obtain ⟨hno, hyes⟩ := makeMapWithoutSets_spec hs
      refine ⟨fun h => by simp [overlayPair, hb, hcl, hk, hno h], fun h => ?_⟩
      obtain ⟨v', b, hmk, hlive, hitems⟩ := hyes h
      obtain ⟨m, hm, hlaid⟩ := finish v' hlive
        (fun t => by rw [hitems, hcl]; simp [setItem_keyedItems])
        fun c x => by rw [hitems, entry_keyedItems]
      refine ⟨_, ?_, hlaid, by simp⟩
      simp [overlayPair, hb, hcl, hk, hmk, hm]

theorem entryFor_eq_some {cur : SValue} (h : Live this) :
    this.entryFor key = some cur ↔ key.isWild = false ∧ Entry this.items key.code cur := by
  cases hk : key.isWild with
  | true => simp [entryFor, beginEditItem, hk]
  | false =>
    rcases beginEditItem_entry h hk with ⟨hb, hno⟩ | ⟨m, i, k, x, -, -, -, -, -, he, hfor⟩
    · simp [entryFor, hb, hno]
    · rw [hfor]
      simp only [Option.some.injEq, true_and]
      exact ⟨fun hx => hx ▸ he, fun hc => Entry.unique h.items he hc⟩

theorem entriesOk_congr (ha : Live a) (hb : Live b) : ∀ {l : List Pair},
    (∀ p ∈ l, p.1.isWild = false → ∀ x, Entry a.items p.1.code x ↔ Entry b.items p.1.code x) →
      entriesOk a l = entriesOk b l := by
  intro l
  induction l with
  | nil => intro _; rfl
  | cons p l ih =>
    intro h
    obtain ⟨k, v⟩ := p
    have hfor : a.entryFor k = b.entryFor k := by
      refine Option.ext fun x => ?_
      rw [entryFor_eq_some ha, entryFor_eq_some hb]
      exact and_congr_right fun hk => h _ mem_cons_self hk x
    rw [entriesOk, entriesOk, hfor, ih fun q hq => h q (mem_cons_of_mem _ hq)]

/-- **The loop of `Overlay`** runs through just when every round does. -/
theorem overlayItems_spec (hr : flags.noRecursion = false) : ∀ {l : List Pair},
    Items l → (∀ p ∈ l, Good p) →
    (∀ p ∈ l, ∀ cur, cur.isNormal = true → cur.isErrorFree = true →
      (overlayOk cur p.2 = false → overlay flags cur p.2 = none) ∧
      (overlayOk cur p.2 = true → ∃ r, overlay flags cur p.2 = some r ∧ r.isNormal = true ∧
        r.isErrorFree = true ∧ r.isDefined = true)) →
    ∀ s, Live s.this →
      ((entriesOk s.this l && (s.setCleared || clearsOk s.this l)) = false →
        overlayItems flags s l = none) ∧
      ((entriesOk s.this l && (s.setCleared || clearsOk s.this l)) = true →
        ∃ s', overlayItems flags s l = some s' ∧ Laid flags s l s') := by
  intro l
  induction l with
  | nil =>
    intro _ _ _ s hs
    refine ⟨fun h => ?_, fun _ => ⟨s, by rw [overlayItems], Laid.nil hs⟩⟩
    simp [entriesOk, clearsOk] at h
  | cons p l ih =>
    intro ht hg hrec s hs
    obtain ⟨k, v⟩ := p
    have hgp := hg _ mem_cons_self
    have htl : Items l := ⟨fun q hq => ht.normal q (mem_cons_of_mem _ hq),
      fun q hq => ht.proper q (mem_cons_of_mem _ hq), (pairwise_cons.1 ht.sorted).2⟩
    have ih := ih htl (fun q hq => hg q (mem_cons_of_mem _ hq))
      fun q hq => hrec q (mem_cons_of_mem _ hq)
    obtain ⟨hno, hyes⟩ := overlayPair_spec hr hs hgp fun _ => hrec _ mem_cons_self
    rw [entriesOk, overlayItems]
    set found := match s.this.entryFor k with
      | some cur => overlayOk cur v
      | none => true with hfound
    -- the condition of this round and the one of the rest make up the whole condition
    by_cases hok : (found && (s.setCleared || !k.isWild || canClear s.this)) = true
    · obtain ⟨s', hs', hlaid, hshape⟩ := hyes hok
      simp only [Bool.and_eq_true] at hok
      obtain ⟨ihno, ihyes⟩ := ih s' hlaid.live
      have hentries : entriesOk s'.this l = entriesOk s.this l := by
        refine entriesOk_congr hlaid.live hs fun q hq hqw x => ?_
        rw [hlaid.entry]
        have hne : ∀ z, ¬ Entry [(k, v)] q.1.code z := by
          intro z hz
          rcases entry_cons.1 hz with ⟨hk, hc, -⟩ | hz
          · have hlt := (pairwise_cons.1 ht.table).1 q hq
            rw [slot_key hk, show slot q = _ from slot_key (v := q.2) hqw, hc] at hlt
            exact cmp_irrefl _ hlt
          · exact not_entry_nil _ _ hz
        simp [EntryOver, hne]
      have hclear : (s'.setCleared || clearsOk s'.this l) =
          (s.setCleared || clearsOk s.this ((k, v) :: l)) := by
        rw [hlaid.cleared, clearsOk]
        cases hk : k.isWild with
        | true =>
          have : (s.setCleared || canClear s.this) = true := by simpa [hk] using hok.2
          simp [hk, this]
        | false =>
          rw [clearsOk_shape (hshape hk) fun q hq => hg q (mem_cons_of_mem _ hq)]
          simp [hk]
      rw [hok.1, Bool.true_and, ← hentries, ← hclear, hs']
      refine ⟨fun h => ihno h, fun h => ?_⟩
      obtain ⟨s'', hs'', hlaid'⟩ := ihyes h
      exact ⟨s'', hs'', Laid.cons hs ht hlaid hlaid'⟩
    · have hnone := hno (by simpa using hok)
      refine ⟨fun _ => by rw [hnone]; rfl, fun h => absurd ?_ hok⟩
      simp only [Bool.and_eq_true, Bool.or_eq_true] at h ⊢
      obtain ⟨⟨h1, -⟩, h2⟩ := h
      refine ⟨h1, ?_⟩
      rcases h2 with h2 | h2
      · exact .inl (.inl h2)
      · cases hk : k.isWild with
        | false => simp
        | true => rw [clearsOk, hk, if_pos rfl] at h2; exact .inr h2

/-! ## The whole of Overlay -/

theorem shrinkMap_view (h : Live (map m)) (hne : m.maps ≠ []) :
    (shrinkMap m).isNormal = true ∧ (shrinkMap m).isErrorFree = true ∧
      (shrinkMap m).isDefined = true ∧ (shrinkMap m).isWild = false ∧
      (∀ t, SetItem (shrinkMap m).items t ↔ SetItem m.maps t) ∧
      ∀ c x, Entry (shrinkMap m).items c x ↔ Entry m.maps c x := by
  have hi : Items m.maps := h.part
  cases hr : isRedundant m.maps with
  | false =>
    rw [shrinkMap_eq hne hr]
    exact ⟨isNormal_map.2 ⟨hi, hne, hr⟩, h.errorFree, isDefined_map m, isWild_map m,
      fun _ => Iff.rfl, fun _ _ => Iff.rfl⟩
  | true =>
    obtain ⟨k, v, hm, hk⟩ : ∃ k v, m.maps = [(k, v)] ∧ k.isWild = true := by
      unfold isRedundant at hr
      split at hr
      · rename_i k v hm; exact ⟨k, v, hm, hr⟩
      · cases hr
    have hin : (k, v) ∈ m.maps := by rw [hm]; exact mem_singleton.2 rfl
    obtain ⟨-, hd, hw⟩ := isProper_iff.1 (hi.proper _ hin)
    have hf := (isErrorFree_map.1 h.errorFree _ hin).2
    have hshrink : shrinkMap m = v := by
      unfold shrinkMap; rw [hm]; simp [hk]
    rw [hshrink, hm]
    refine ⟨(hi.normal _ hin).2, hf, hd, (hw hk).2, fun t => ?_, fun c x => ?_⟩
    · rw [setItem_of_isSimple (hw hk).1 hd (isError_of_isErrorFree hf)]
      simp [hk]
    · simp [not_entry_of_isSimple (hw hk).1, hk]

/-- What `Overlay` promises about its result. -/
structure Overlaid (flags : Flags) (a b r : SValue) : Prop where
  normal : r.isNormal = true
  errorFree : r.isErrorFree = true
  defined : a.isDefined = true ∨ b.isDefined = true → r.isDefined = true
  wild : b.isWild = false → a.isSpecified = true → r.isWild = false
  set : a.isSpecified = true → b.isSpecified = true →
    ∀ t, SetItem r.items t ↔ SetOver false a.items b.items t
  entry : a.isSpecified = true → b.isSpecified = true →
    ∀ c x, Entry r.items c x ↔ EntryOver flags a.items b.items c x
  keys : a.isSpecified = true → b.isSpecified = true →
    ∀ c, (∃ x, Entry r.items c x) ↔ (∃ x, Entry a.items c x) ∨ ∃ x, Entry b.items c x
  keep : b.isDefined = false → r = a
  replace : b.isDefined = true → b.isWild = true ∨ a.isSpecified = false → r = b

theorem overlayWith_spec {flags : Flags} {a b : SValue} {ok : Bool} {loop : Option OverlayState}
    (hna : a.isNormal = true) (hnb : b.isNormal = true) (hfa : a.isErrorFree = true)
    (hfb : b.isErrorFree = true)
    (hloop : a.isSpecified = true → b.isWild = false → b.isDefined = true →
      (a.isMap = true ∨ b.isMap = true) → (ok = false → loop = none) ∧
        (ok = true → ∃ s', loop = some s' ∧ Laid flags ⟨a, false, false⟩ b.items s'))
    (hundef : b.isDefined = false → loop = some ⟨a, false, false⟩) :
    let whole := b.isFinal || !a.isSpecified || !(a.isMap || b.isMap) || !b.isDefined ||
      (ok && !(hasSets b.items && endsInEdit a b.items))
    (whole = false → overlayWith a b (loop.bind overlayEnd) = none) ∧
      (whole = true → ∃ r, overlayWith a b (loop.bind overlayEnd) = some r ∧ Overlaid flags a b r) := by
  intro whole
  have hea := isError_of_isErrorFree hfa
  have heb := isError_of_isErrorFree hfb
  unfold overlayWith
  cases hwb : b.isWild with
  | true =>
    have hfin : b.isFinal = true := by simp [isFinal, hwb]
    have hspec : b.isSpecified = true → False := fun h => by simp [isSpecified, hwb] at h
    refine ⟨fun h => by simp [whole, hfin] at h, fun _ => ⟨b, by simp [hfin], hnb, hfb, fun _ => ?_, ?_,
      fun _ h => (hspec h).elim, fun _ h => (hspec h).elim, fun _ h => (hspec h).elim, fun h => ?_,
      fun _ _ => rfl⟩⟩
    · rw [isDefined_code (isWild_iff_code.1 hwb)]; decide
    · intro h; rw [hwb] at h; cases h
    · rw [isDefined_code (isWild_iff_code.1 hwb)] at h; cases h
  | false =>
  have hfin : b.isFinal = false := by simp [isFinal, hwb, heb]
  simp only [hfin, Bool.false_eq_true, if_false]
  by_cases hcond : a.isSpecified = true ∧ (a.isMap = true ∨ b.isMap = true)
  · rw [if_pos hcond]
    obtain ⟨hspec, hmap⟩ := hcond
    have haw : a.isDefined = true ∧ a.isWild = false := by simpa [isSpecified] using hspec
    cases hdb : b.isDefined with
    | false =>
      have hspec : b.isSpecified = true → False := fun h => by simp [isSpecified, hdb] at h
      exact ⟨fun h => by simp [whole, hdb] at h, fun _ => ⟨a, by simp [hundef hdb, overlayEnd], hna, hfa,
        fun _ => haw.1, fun _ _ => haw.2, fun _ h => (hspec h).elim, fun _ h => (hspec h).elim,
        fun _ h => (hspec h).elim, fun _ => rfl, fun h => by rw [hdb] at h; cases h⟩⟩
    | true =>
    obtain ⟨hno, hyes⟩ := hloop hspec hwb hdb hmap
    have hmap' : (a.isMap || b.isMap) = true := by simpa using hmap
    have hwhole : whole = (ok && !(hasSets b.items && endsInEdit a b.items)) := by
      simp [whole, hfin, hspec, hmap', hdb]
    rw [hwhole]
    cases hok : ok with
    | false => exact ⟨fun _ => by rw [hno hok]; rfl, fun h => by cases h⟩
    | true =>
    obtain ⟨s', hs', hlaid⟩ := hyes hok
    have hne : b.items ≠ [] := by
      by_cases hs : b.isSimple = true
      · rw [items_of_isSimple hs, heb, hdb]; simp
      · obtain ⟨m, rfl⟩ := isSimple_eq_false.1 (by simpa using hs)
        exact (isNormal_map.1 hnb).2.1
    have hcleared : s'.setCleared = hasSets b.items := by simpa using hlaid.cleared
    have hhas : s'.hasMap = !endsInEdit a b.items := by simpa [hne] using hlaid.hasMap
    obtain ⟨m', hm'⟩ := isSimple_eq_false.1 (hlaid.isMap (.inl hne))
    have hlive := hlaid.live
    rw [hm'] at hlive
    rw [hs', Option.bind_some, Bool.true_and]
    have hset := hlaid.set
    have hentry := hlaid.entry
    rw [hm'] at hset hentry
    have hkeys := hlaid.keys
    rw [hm'] at hkeys
    have hentries : hasSets b.items = false → ∃ c x, Entry m'.maps c x := by
      intro hs
      obtain ⟨⟨k, v⟩, hp⟩ := exists_mem_of_ne_nil _ hne
      have hk : k.isWild = false := by simpa using any_eq_false.1 hs _ hp
      obtain ⟨x, hx⟩ := (hkeys k.code).2 (.inr ⟨v, k, hp, hk, rfl⟩)
      exact ⟨_, x, hx⟩
    have hmne : m'.maps ≠ [] := by
      cases hs : hasSets b.items with
      | true =>
        obtain ⟨⟨k, v⟩, hp, hk⟩ := any_eq_true.1 hs
        have : SetItem m'.maps v.code := by
          rw [← items_map, hset, SetOver, hs, if_pos rfl]
          exact .inl ⟨k, v, hp, hk, rfl⟩
        obtain ⟨_, _, hq, -, -⟩ := this
        exact ne_nil_of_mem hq
      | false =>
        obtain ⟨_, _, _, hq, -, -⟩ := hentries hs
        exact ne_nil_of_mem hq
    unfold overlayEnd
    rw [hcleared]
    cases hs : hasSets b.items with
    | true =>
      -- set items were cleared, so the pointer is followed
      rw [hhas]
      cases hedit : endsInEdit a b.items with
      | true => simp
      | false =>
        simp only [hm', Bool.not_false, if_true, Bool.and_false]
        obtain ⟨h1, h2, h3, h4, h5, h6⟩ := shrinkMap_view hlive hmne
        refine ⟨by simp, fun _ => ⟨_, rfl, h1, h2, fun _ => h3, fun _ _ => h4, fun _ _ t => ?_,
          fun _ _ c x => ?_, fun _ _ c => ?_, fun h => ?_, fun _ h => ?_⟩⟩
        · rw [h5, ← items_map, hset]
        · rw [h6, ← items_map, hentry]
        · simp only [h6]; exact hkeys c
        · rw [hdb] at h; cases h
        · rw [hwb, hspec] at h; simp at h
    | false =>
      simp only [Bool.false_and, Bool.not_false, Bool.false_eq_true, if_false, hm']
      refine ⟨by simp, fun _ => ⟨_, rfl, isNormal_map.2 ⟨hlive.part, hmne, ?_⟩, hlive.errorFree,
        fun _ => isDefined_map _, fun _ _ => isWild_map _, fun _ _ => hset, fun _ _ => hentry,
        fun _ _ => hkeys, fun h => (by rw [hdb] at h; cases h), fun _ h => (by rw [hwb, hspec] at h; simp at h)⟩⟩
      obtain ⟨c, x, k, hp, hk, -⟩ := hentries hs
      unfold isRedundant
      split
      · rename_i k' v' hmaps
        rw [hmaps, mem_singleton] at hp
        cases hp
        exact hk
      · rfl
  · rw [if_neg hcond]
    have hwhole : whole = true := by
      rw [not_and_or] at hcond
      rcases hcond with h | h
      · simp [whole, h]
      · have : (a.isMap || b.isMap) = false := by simpa using h
        simp [whole, this]
    refine ⟨fun h => absurd (hwhole.symm.trans h) (by simp), fun _ => ?_⟩
    cases hdb : b.isDefined with
    | false =>
      have hspec : b.isSpecified = true → False := fun h => by simp [isSpecified, hdb] at h
      refine ⟨a, by simp, hna, hfa, fun h => ?_, fun _ h => ?_, fun _ h => (hspec h).elim,
        fun _ h => (hspec h).elim, fun _ h => (hspec h).elim, fun _ => rfl,
        fun h => by rw [hdb] at h; cases h⟩
      · rcases h with h | h
        · exact h
        · rw [hdb] at h; cases h
      · have : a.isDefined = true ∧ a.isWild = false := by simpa [isSpecified] using h
        exact this.2
    | true =>
      refine ⟨b, by simp [hea], hnb, hfb, fun _ => hdb, fun _ _ => hwb, fun ha _ t => ?_,
        fun ha _ c x => ?_, fun ha _ c => ?_, fun h => (by rw [hdb] at h; cases h), fun _ _ => rfl⟩
      all_goals
        -- both are simple
        have hmap : ¬ (a.isMap = true ∨ b.isMap = true) := fun h => hcond ⟨ha, h⟩
        rw [not_or, isMap_eq_not_isSimple, isMap_eq_not_isSimple] at hmap
        have hsa : a.isSimple = true := by simpa using hmap.1
        have hsb : b.isSimple = true := by simpa using hmap.2
      · have hs : hasSets b.items = true := by
          rw [items_of_isSimple hsb, heb, hdb]; rfl
        rw [SetOver, hs]
        simp
      · simp [EntryOver, not_entry_of_isSimple hsa, not_entry_of_isSimple hsb]
      · simp [not_entry_of_isSimple hsa, not_entry_of_isSimple hsb]

/-- `Overlay` with a simple value: the loop has one round, and edits nothing. -/
theorem overlay_simple (hr : flags.noRecursion = false) (hs : b.isSimple = true)
    (hok : ∀ a, overlayOk a b = (b.isFinal || !(a.isSpecified && a.isMap) || clearsOk a b.items))
    (hov : ∀ a, overlay flags a b = overlayWith a b
      ((b.items.foldlM (fun s p => overlayPair flags s p.1 p.2 fun _ => none)
        ⟨a, false, false⟩).bind overlayEnd)) (a : SValue) (hna : a.isNormal = true)
    (hnb : b.isNormal = true) (hfa : a.isErrorFree = true) (hfb : b.isErrorFree = true) :
    (overlayOk a b = false → overlay flags a b = none) ∧
      (overlayOk a b = true → ∃ r, overlay flags a b = some r ∧ Overlaid flags a b r) := by
  have heb := isError_of_isErrorFree hfb
  have hitems : b.items = if b.isDefined then [(wild, b)] else [] := by
    rw [items_of_isSimple hs, heb]; rfl
  have hmap : b.isMap = false := by rw [isMap_eq_not_isSimple, hs]; rfl
  have hwild : wild.isWild = true := by decide
  have hw := @overlayWith_spec flags a b (clearsOk a b.items)
    (b.items.foldlM (fun s p => overlayPair flags s p.1 p.2 fun _ => none) ⟨a, false, false⟩)
    hna hnb hfa hfb (fun hspec hwb hdb _ => ?_) (fun hdb => by rw [hitems, hdb]; rfl)
  · have hends : (hasSets b.items && endsInEdit a b.items) = false := by
      rw [hitems]
      cases b.isDefined
      · rfl
      · simp [endsInEdit, beginEditItem, hwild]
    have hclear : b.isDefined = false → clearsOk a b.items = true := by
      intro hd; rw [hitems, hd]; rfl
    have heq : overlayOk a b = (b.isFinal || !a.isSpecified || !(a.isMap || b.isMap) ||
        !b.isDefined || (clearsOk a b.items && !(hasSets b.items && endsInEdit a b.items))) := by
      rw [hok, hends, hmap]
      cases hd : b.isDefined with
      | false => simp [hclear hd]
      | true => simp [Bool.or_assoc]
    rw [heq, hov]
    exact hw
  · have haw : a.isDefined = true ∧ a.isWild = false := by simpa [isSpecified] using hspec
    have hp := @overlayPair_spec flags hr ⟨a, false, false⟩ wild b
      ⟨Partial.of_isNormal hna, haw.2, hfa⟩
      ⟨⟨rfl, hnb⟩, isProper_iff.2 ⟨by decide, hdb, fun _ => ⟨hs, hwb⟩⟩, ⟨rfl, hfb⟩⟩
      fun h => by rw [hwild] at h; cases h
    have hround : overlayPair flags ⟨a, false, false⟩ wild b (fun cur => overlay flags cur b) =
        overlayPair flags ⟨a, false, false⟩ wild b fun _ => none := by
      simp [overlayPair, beginEditItem, hwild]
    rw [hround] at hp
    have hfor : a.entryFor wild = none := by simp [entryFor, beginEditItem, hwild]
    rw [hitems, hdb]
    simpa [hfor, hwild, clearsOk] using hp

/-- **`Overlay`**: it runs through just when `overlayOk`, and then the set part of the
other value replaces the set part and its entries are put over the entries. -/
theorem overlay_cases (hr : flags.noRecursion = false) : ∀ b a : SValue,
    a.isNormal = true → b.isNormal = true → a.isErrorFree = true → b.isErrorFree = true →
      (overlayOk a b = false → overlay flags a b = none) ∧
      (overlayOk a b = true → ∃ r, overlay flags a b = some r ∧ Overlaid flags a b r) := by
  intro b
  induction b using SValue.ind with
  | map m ih =>
    intro a hna hnb hfa hfb
    obtain ⟨avail, dataSize, maps⟩ := m
    have hi : Items maps := (isNormal_map.1 hnb).1
    have hf := isErrorFree_map.1 hfb
    have hw := @overlayWith_spec flags a (map ⟨avail, dataSize, maps⟩)
      (entriesOk a maps && clearsOk a maps) (overlayItems flags ⟨a, false, false⟩ maps) hna hnb hfa hfb (fun hspec _ _ _ => ?_) (by simp)
    · have hok : overlayOk a (map ⟨avail, dataSize, maps⟩) =
          ((map ⟨avail, dataSize, maps⟩).isFinal || !a.isSpecified ||
            !(a.isMap || (map ⟨avail, dataSize, maps⟩).isMap) ||
            !(map ⟨avail, dataSize, maps⟩).isDefined ||
            ((entriesOk a maps && clearsOk a maps) && !(hasSets maps && endsInEdit a maps))) := by
        rw [overlayOk]
        simp [isFinal, isMap_eq_not_isSimple]
      rw [hok, overlay]
      exact hw
    · have haw : a.isDefined = true ∧ a.isWild = false := by simpa [isSpecified] using hspec
      have := overlayItems_spec hr hi (fun p hp => ⟨hi.normal p hp, hi.proper p hp, hf p hp⟩)
        (fun p hp cur hn hcf => ?_) ⟨a, false, false⟩ ⟨Partial.of_isNormal hna, haw.2, hfa⟩
      · rw [Bool.false_or] at this
        exact this
      · obtain ⟨hno, hyes⟩ := (ih p hp).2 cur hn (hi.normal p hp).2 hcf (hf p hp).2
        refine ⟨hno, fun h => ?_⟩
        obtain ⟨r, hr', ho⟩ := hyes h
        exact ⟨r, hr', ho.normal, ho.errorFree,
          ho.defined (.inr (isProper_iff.1 (hi.proper p hp)).2.1)⟩
  | small type data => exact overlay_simple hr (by simp) (by simp [overlayOk]) (by simp [overlay])
  | large type buffer => exact overlay_simple hr (by simp) (by simp [overlayOk]) (by simp [overlay])

/-- **The pointwise specification of `Overlay`**: the set part is that of the other value
if it has one, a key that both have has the one value over the other, and a key that
only one has keeps its value. The result is normalised. -/
structure OverlayMeets (a b r : SValue) : Prop where
  normal : r.isNormal = true
  set : ∀ t, SetItem r.items t ↔
    SetItem b.items t ∨ ((∀ u, ¬ SetItem b.items u) ∧ SetItem a.items t)
  both : ∀ c y z, Entry a.items c y → Entry b.items c z →
    ∃ x, overlay Flags.none y z = some x ∧ Entry r.items c x
  left : ∀ c y, Entry a.items c y → (∀ z, ¬ Entry b.items c z) → Entry r.items c y
  right : ∀ c z, Entry b.items c z → (∀ y, ¬ Entry a.items c y) → Entry r.items c z
  neither : ∀ c, (∀ y, ¬ Entry a.items c y) → (∀ z, ¬ Entry b.items c z) →
    ∀ x, ¬ Entry r.items c x

theorem not_hasSets : hasSets l = false ↔ ∀ t, ¬ SetItem l t := by
  constructor
  · rintro h t ⟨k, v, hp, hk, -⟩
    exact any_eq_false.1 h _ hp hk
  · intro h
    refine any_eq_false.2 fun p hp hk => h p.2.code ⟨p.1, p.2, hp, hk, rfl⟩

theorem isSpecified_iff :
    v.isSpecified = true ↔ v.isDefined = true ∧ v.isWild = false := by
  simp [isSpecified]

theorem Overlaid.meets {r : SValue} (h : Overlaid Flags.none a b r) (ha : a.isSpecified = true)
    (hb : b.isSpecified = true) (hna : a.isNormal = true) (hnb : b.isNormal = true) :
    OverlayMeets a b r := by
  have hia := (Partial.of_isNormal hna).items (isSpecified_iff.1 ha).2
  have hib := (Partial.of_isNormal hnb).items (isSpecified_iff.1 hb).2
  have hentry := h.entry ha hb
  refine ⟨h.normal, fun t => ?_, fun c y z hy hz => ?_, fun c y hy hno => ?_, fun c z hz hno => ?_,
    fun c hy hz x hx => ?_⟩
  · rw [h.set ha hb, SetOver]
    cases hs : hasSets b.items with
    | true =>
      have : ¬ ∀ u, ¬ SetItem b.items u := fun hu => by
        rw [not_hasSets.2 hu] at hs; cases hs
      simp [this]
    | false =>
      have := not_hasSets.1 hs
      simp [this]
  · -- the key is in the result, so the recursive call had one
    obtain ⟨x, hx⟩ := (h.keys ha hb c).2 (.inl ⟨y, hy⟩)
    rcases (hentry c x).1 hx with ⟨y', z', hy', hz', ho⟩ | ⟨-, hno⟩ | ⟨-, hno⟩
    · rw [Entry.unique hia hy' hy, Entry.unique hib hz' hz] at ho
      exact ⟨x, ho, hx⟩
    · exact absurd hz (hno z)
    · exact absurd hy (hno y)
  · exact (hentry c y).2 (.inr (.inl ⟨hy, hno⟩))
  · exact (hentry c z).2 (.inr (.inr ⟨hz, hno⟩))
  · rcases (h.keys ha hb c).1 ⟨x, hx⟩ with ⟨y, hy'⟩ | ⟨z, hz'⟩
    · exact hy y hy'
    · exact hz z hz'

/-- **`Overlay` meets its specification** exactly when `overlayOk`: wherever two tables
meet, the table put on top does not go on from set items to end in a key of the other,
and clearing the set items does not compact the block around a pair that is not the first. -/
theorem overlay_meets_iff (a b : NormalValue) (ha : a.val.isSpecified = true)
    (hb : b.val.isSpecified = true) :
    (∃ r, overlay Flags.none a.val b.val = some r ∧ OverlayMeets a.val b.val r) ↔
      overlayOk a.val b.val = true := by
  obtain ⟨hno, hyes⟩ := overlay_cases (rfl : Flags.none.noRecursion = false) b.val a.val a.normal b.normal
    a.errorFree b.errorFree
  constructor
  · rintro ⟨r, hr, -⟩
    by_contra hok
    rw [hno (by simpa using hok)] at hr
    cases hr
  · intro hok
    obtain ⟨r, hr, ho⟩ := hyes hok
    exact ⟨r, hr, ho.meets ha hb a.normal b.normal⟩

/-- `{1 -> 5}`. -/
def oneKey : NormalValue := ⟨ofPairs [(int32 1, int32 5)], by decide, by decide⟩

/-- `{0, 1 -> 6}`: a set item in front of a key. -/
def setThenKey : NormalValue := ⟨ofPairs [(wild, int32 0), (int32 1, int32 6)], by decide, by decide⟩

theorem overlay_meets_iff_setThenKey :
    (∃ r, overlay Flags.none setThenKey.val oneKey.val = some r ∧
      OverlayMeets setThenKey.val oneKey.val r) ↔ overlayOk setThenKey.val oneKey.val = true :=
  overlay_meets_iff setThenKey oneKey (by decide) (by decide)

/-- Overlaying `{0, 1 -> 6}` on `{1 -> 5}` clears the set items, then edits the last key,
and after the loop follows the null pointer that the edit left. -/
theorem overlay_null_map : oneKey.val.isSpecified = true ∧ setThenKey.val.isSpecified = true ∧
    ¬ ∃ r, overlay Flags.none oneKey.val setThenKey.val = some r ∧
      OverlayMeets oneKey.val setThenKey.val r := by
  refine ⟨by decide, by decide, ?_⟩
  rintro ⟨r, hr, -⟩
  have : overlay Flags.none oneKey.val setThenKey.val = none := by decide +kernel
  rw [this] at hr
  cases hr

end OpenBinder.SValue
