import OpenBinder.Value.Inherit
import OpenBinder.Value.OverlaySpec

/-!
# What Inherit makes

`Inherit` finds the item to edit by the index at which its cursor read it. When an
item of `from` has been added in front of it meanwhile, that index belongs to another
item (`staleAt`). It also adds items with `JoinItem`, which turns `{k -> NULL}` into the
set item `k`, and it adds `WILD` to a map without set items. `inheritOk` says that none of
this comes up.

* `Cursor`: what the cursor and its flags know; `advance_spec` is the inner loop.
* `Walk`: what the value has become after a part of `from`; `inheritPair_walk` is one
  round, `inheritItems_walk` the loop.
* `Inherited`, `inherit_spec`: the result, by its set items and its entries.
-/

namespace OpenBinder.SValue

open Lib List

/-- Whether `Inherit` adds the item of `from`. -/
def inheritAdds (a : SValue) (q : Pair) : Bool :=
  if q.1.isWild then !hasSets a.items else (a.beginEditItem q.1).isNone

/-- Whether an item of `from` is added between the item of the key of `p` and the one
in front of it: then the cursor has read the item before it moved. -/
def staleAt (a : SValue) (whole : List Pair) (p : Pair) : Bool :=
  whole.any fun q => inheritAdds a q && decide (compareMap q p = .lt) &&
    !(a.items.any fun x => decide (compareMap q x = .lt) && decide (compareMap x p = .lt))

mutual

/-- When `Inherit` does what it is meant to do. -/
def inheritOk : SValue → SValue → Bool
  | a, map ⟨_, _, maps⟩ => !a.isSpecified || inheritItemsOk a maps maps
  | a, v => !a.isSpecified || !v.isDefined || hasSets a.items || (!v.isWild && !v.isNull)

/-- The same for each item of `from`, out of all of them (`whole`). -/
def inheritItemsOk : SValue → List Pair → List Pair → Bool
  | _, _, [] => true
  | a, whole, (k, v) :: rest =>
    (if k.isWild then hasSets a.items || !v.isNull
      else match a.entryFor k with
        | some cur => !staleAt a whole (k, v) && inheritOk cur v
        | none => !v.isNull) && inheritItemsOk a whole rest

end

/-! ## Adding an item -/

variable {flags : Flags} {a k v : SValue} {s : InheritState} {t : List ℤ} {q : Pair}
  {done rest : List Pair}

/-- **A new item** is just added: none of the special cases of `JoinItem` applies. -/
theorem joinItem_new (hfl : flags.noFlatten = true) {this key value : SValue} (h : Live this)
    (hd : this.isDefined = true) (hg : Good (key, value)) (hnull : value.isNull = false)
    (hnew : key.isWild = false → ∀ x, ¬ Entry this.items key.code x) :
    joinItem this key value flags = some (this.addItem key value) := by
  obtain ⟨hk, hv, hkw⟩ := isProper_iff.1 hg.proper
  have hke := isError_of_isErrorFree hg.errorFree.1
  have hve := isError_of_isErrorFree hg.errorFree.2
  have hfin : this.isFinal = false := by simp [isFinal, h.wild, h.error]
  have hbegin : this.beginEditItem key = none := by
    cases hw : key.isWild with
    | true => simp [beginEditItem, hw]
    | false =>
      rcases beginEditItem_entry h hw with ⟨hb, -⟩ | ⟨-, -, -, cur, -, -, -, -, -, he, -⟩
      · exact hb
      · exact absurd he (hnew hw cur)
  have hpair : ∀ f, joinPair flags this key value f = some (this.addItem key value) := by
    intro f; simp [joinPair, hbegin]
  have hc1 : (key.isWild && (!this.isDefined || value.isFinal)) = false := by
    cases hw : key.isWild with
    | true => simp [hd, isFinal, hve, (hkw hw).2]
    | false => rfl
  have hc2 : (key.isWild && value.isMap) = false := by
    cases hw : key.isWild with
    | true => simp [isMap_eq_not_isSimple, (hkw hw).1]
    | false => rfl
  unfold joinItem joinItemWith
  simp only [hfin, hk, hv, hc1, hc2, hnull, hke, hve, Bool.not_false, Bool.and_true, Bool.or_false,
    if_true, Bool.false_eq_true, if_false]
  cases hm : key.isMap with
  | false => simp only [Bool.false_eq_true, if_false, hpair]
  | true =>
    -- a key that is a map is joined as the map `{key -> value}`
    have hks : key.isSimple = false := by
      rw [isMap_eq_not_isSimple] at hm; simpa using hm
    obtain ⟨mk, rfl⟩ := isSimple_eq_false.1 hks
    obtain ⟨avail, dataSize, maps⟩ := mk
    have hmade : initAsMap flags (map ⟨avail, dataSize, maps⟩) value =
        some (map ⟨1, none, [(map ⟨avail, dataSize, maps⟩, value)]⟩) := by
      rw [initAsMap]
      simp [initAsMapWith, hve, hv, hfl, BValueMap.create, BValueMap.capacity,
        BValueMap.setFirstMap]
    have hcond : this.isSpecified = true ∧ (this.isMap = true ∨
        this.compare (map ⟨1, none, [(map ⟨avail, dataSize, maps⟩, value)]⟩) ≠ .eq) := by
      refine ⟨isSpecified_iff.2 ⟨hd, h.wild⟩, ?_⟩
      by_cases hs : this.isSimple = true
      · refine .inr fun hc => ?_
        rw [isSimple_code (compare_eq_iff.1 hc), isSimple_map] at hs
        cases hs
      · refine .inl ?_
        rw [isMap_eq_not_isSimple]; simpa using hs
    simp only [if_true, hmade, Option.bind_eq_bind, Option.bind_some]
    rw [join, joinWith, if_neg (by simp [isFinal]), if_pos hcond, joinItems, hpair]
    simp [joinItems]

/-! ## The cursor -/

/-- What the cursor of `Inherit` knows before it is moved to the slot `t`: the item read
last is not behind its index, everything in front of it is in front of `t`, and the two
flags tell whether the value had set items at the start. -/
structure Cursor (a : SValue) (s : InheritState) (t : List ℤ) : Prop where
  start : s.first = true → s.i1 = 0 ∧ s.finish = false
  keyed : s.first = false → s.finish = false → Keyed s.item
  here : s.first = false → s.finish = false →
    ∃ j x, s.i1 ≤ j + 1 ∧ s.this.items[j]? = some x ∧ slot x = slot s.item
  below : s.first = false → s.finish = false → ∀ x ∈ s.this.items,
    cmpCode (slot x) (slot s.item) = .lt → cmpCode (slot x) t = .lt
  ended : s.finish = true → ∀ x ∈ s.this.items, cmpCode (slot x) t = .lt
  read : s.termcheck = false → s.terminals = false → ∀ j x, j < s.i1 →
    s.this.items[j]? = some x → x.1.isWild = false
  nosets : s.termcheck = true → s.terminals = false → hasSets a.items = false
  sets : s.terminals = true → hasSets a.items = true
  same : s.termcheck = false → hasSets s.this.items = hasSets a.items
  checked : s.finish = true → s.termcheck = true

theorem Cursor.mono {t' : List ℤ} (h : Cursor a s t) (ht : cmpCode t t' = .lt) : Cursor a s t' :=
  { h with
    below := fun h1 h2 x hx hlt => Std.TransCmp.lt_trans (h.below h1 h2 x hx hlt) ht
    ended := fun h1 x hx => Std.TransCmp.lt_trans (h.ended h1 x hx) ht }

/-- Items in front of the one at the cursor are in front of the slot looked for. -/
theorem Cursor.lt_of_index (h : Cursor a s t) (hi : Items s.this.items) (hf : s.finish = false)
    (hlt : s.first = false → cmpCode (slot s.item) t = .lt) {j : ℕ} {x : Pair} (hj : j < s.i1)
    (hx : s.this.items[j]? = some x) : cmpCode (slot x) t = .lt := by
  cases hfirst : s.first with
  | true => rw [(h.start hfirst).1] at hj; omega
  | false =>
    obtain ⟨j0, x0, hle, hx0, hs0⟩ := h.here hfirst hf
    have hlt := hlt hfirst
    rcases Nat.lt_or_ge j j0 with hjj | hjj
    · have := hi.table.lt_of_getElem? hjj hx hx0
      rw [hs0] at this
      exact Std.TransCmp.lt_trans this hlt
    · have : j = j0 := by omega
      subst this
      rw [hx0] at hx
      cases hx
      rw [hs0]; exact hlt

/-- Reading the next item. -/
theorem Cursor.next (h : Cursor a s t) (hi : Items s.this.items) (he : s.this.isError = false)
    (hf : s.finish = false) (hlt : s.first = false → cmpCode (slot s.item) t = .lt) :
    Cursor a s.next t ∧ s.next.this = s.this ∧ s.next.first = false ∧
      (s.next.finish = true ∨ (s.next.finish = false ∧ s.next.i1 = s.i1 + 1 ∧ s.i1 < s.this.items.length ∧
        s.this.items[s.i1]? = some s.next.item)) := by
  have hget : s.this.getNextItem s.i1 s.item = s.this.items[s.i1]? := by simp [getNextItem, he]
  cases hx : s.this.items[s.i1]? with
  | none =>
    have hlen : s.this.items.length ≤ s.i1 := List.getElem?_eq_none_iff.1 hx
    have hnext : s.next = { s with first := false, finish := true, termcheck := true } := by
      simp [InheritState.next, hget, hx]
    rw [hnext]
    refine ⟨⟨by simp, by simp, by simp, by simp, fun _ x hxm => ?_, by simp, fun _ ht => ?_, h.sets,
      by simp, by simp⟩, rfl, rfl, .inl rfl⟩
    · obtain ⟨j, hj⟩ := mem_iff_getElem?.1 hxm
      have hjl : j < s.this.items.length := (List.getElem?_eq_some_iff.1 hj).1
      exact h.lt_of_index hi hf hlt (by omega) hj
    · cases hc : s.termcheck with
      | true => exact h.nosets hc ht
      | false =>
        rw [← h.same hc]
        refine any_eq_false.2 fun x hxm => ?_
        obtain ⟨j, hj⟩ := mem_iff_getElem?.1 hxm
        have hjl := (List.getElem?_eq_some_iff.1 hj).1
        rw [h.read hc ht j x (by omega) hj]
        simp
  | some p =>
    have hmem := mem_of_getElem? hx
    have hnext : s.next = ⟨s.this, s.i1 + 1, p, false, s.finish,
        s.terminals || (!s.termcheck && p.1.isWild), s.termcheck⟩ := by
      simp [InheritState.next, hget, hx]
    rw [hnext]
    refine ⟨⟨by simp, fun _ _ => keyed_of_isProper (hi.proper _ hmem), fun _ _ =>
      ⟨s.i1, p, le_refl _, hx, rfl⟩, fun _ _ x hxm hxp => ?_, fun hfin => ?_, fun hc ht j x hj hjx => ?_,
      fun hc ht => ?_, fun ht => ?_, h.same, fun hfin => ?_⟩, rfl, rfl, .inr ⟨hf, rfl, ?_, rfl⟩⟩
    · obtain ⟨j, hj⟩ := mem_iff_getElem?.1 hxm
      refine h.lt_of_index hi hf hlt ?_ hj
      by_contra hge
      rcases Nat.lt_or_ge s.i1 j with hlt' | hge'
      · have := hi.table.lt_of_getElem? hlt' hx hj
        exact cmp_irrefl _ (Std.TransCmp.lt_trans hxp this)
      · have : j = s.i1 := by omega
        subst this
        rw [hx] at hj
        cases hj
        exact cmp_irrefl _ hxp
    · simp only at hfin; rw [hf] at hfin; cases hfin
    · simp only at hc ht hj hjx
      rw [hc] at ht
      simp only [Bool.not_false, Bool.true_and, Bool.or_eq_false_iff] at ht
      rcases Nat.lt_or_ge j s.i1 with hlt' | hge'
      · exact h.read hc ht.1 j x hlt' hjx
      · have : j = s.i1 := by omega
        subst this
        rw [hx] at hjx
        cases hjx
        exact ht.2
    · simp only at hc ht
      rw [hc] at ht
      exact h.nosets hc (by simpa using ht)
    · simp only at ht
      rcases Bool.or_eq_true_iff.1 ht with ht | ht
      · exact h.sets ht
      · simp only [Bool.and_eq_true, Bool.not_eq_true'] at ht
        rw [← h.same ht.1]
        exact any_eq_true.2 ⟨p, hmem, ht.2⟩
    · simp only at hfin; rw [hf] at hfin; cases hfin
    · exact (List.getElem?_eq_some_iff.1 hx).1

/-- **The inner loop** stops at the item with the slot, or past it. -/
theorem advance_spec (hq : Keyed q) : ∀ (fuel : ℕ) (s : InheritState),
    Items s.this.items → s.this.isError = false → Cursor a s (slot q) →
    (if s.finish then 1 else s.this.items.length + 2 - s.i1) ≤ fuel →
    ∃ s' cmp, advance fuel s q = some (s', cmp) ∧ s'.this = s.this ∧ Cursor a s' (slot q) ∧
      s'.first = false ∧
      (cmp = .eq → s'.finish = false ∧ slot s'.item = slot q) ∧
      (cmp ≠ .eq → slot q ∉ slots s.this.items ∧
        (s'.finish = false → cmpCode (slot q) (slot s'.item) = .lt)) ∧
      ((s'.i1 = s.i1 ∧ s'.item = s.item ∧ s.first = false) ∨ s'.finish = true ∨
        (0 < s'.i1 ∧ s.this.items[s'.i1 - 1]? = some s'.item)) := by
  intro fuel
  induction fuel with
  | zero =>
    intro s _ _ hc hfuel
    split at hfuel
    · omega
    · -- the cursor is never more than one past the end
      rename_i hf
      cases hfirst : s.first with
      | true => rw [(hc.start hfirst).1] at hfuel; omega
      | false =>
        obtain ⟨j, x, hle, hx, -⟩ := hc.here hfirst (by simpa using hf)
        have := (List.getElem?_eq_some_iff.1 hx).1
        omega
  | succ fuel ih =>
    intro s hi he hc hfuel
    rw [advance]
    cases hf : s.finish with
    | true =>
      have hfirst : s.first = false := by
        by_contra h
        rw [(hc.start (by simpa using h)).2] at hf
        cases hf
      refine ⟨s, .lt, by simp, rfl, hc, hfirst, by simp, fun _ => ⟨?_, by simp [hf]⟩,
        .inr (.inl hf)⟩
      rintro ⟨x, hx, hs⟩
      have := hc.ended hf x hx
      rw [hs] at this
      exact cmp_irrefl _ this
    | false =>
    by_cases hlt : (if s.first = true then Ordering.lt else compareMap s.item q) = .lt
    · -- one more item is read
      rw [if_pos hlt]
      have hlt' : s.first = false → cmpCode (slot s.item) (slot q) = .lt := by
        intro hfirst
        rw [hfirst] at hlt
        rw [← compareMap_eq (hc.keyed hfirst hf) hq]
        simpa using hlt
      obtain ⟨hcn, hthis, hfn, hstep⟩ := hc.next hi he hf hlt'
      have hfuel' : (if s.next.finish then 1 else s.next.this.items.length + 2 - s.next.i1) ≤ fuel := by
        rw [hf] at hfuel
        simp only [Bool.false_eq_true, if_false] at hfuel
        rw [hthis]
        rcases hstep with h | ⟨h1, h2, h3, -⟩
        · rw [h, if_pos rfl]
          cases hfirst : s.first with
          | true => rw [(hc.start hfirst).1] at hfuel; omega
          | false =>
            obtain ⟨j, x, hle, hx, -⟩ := hc.here hfirst hf
            have := (List.getElem?_eq_some_iff.1 hx).1
            omega
        · rw [h1, h2]; simp only [Bool.false_eq_true, if_false]; omega
      obtain ⟨s', cmp, hadv, hthis', hc', h1, h2, h3, h4⟩ :=
        ih s.next (by rw [hthis]; exact hi) (by rw [hthis]; exact he) hcn hfuel'
      rw [hthis] at hthis' h3 h4
      refine ⟨s', cmp, hadv, hthis', hc', h1, h2, h3, .inr ?_⟩
      rcases h4 with ⟨h4, h5, -⟩ | h4
      · rcases hstep with h | ⟨-, h6, -, h7⟩
        · cases hf' : s'.finish with
          | true => exact .inl rfl
          | false =>
            -- the loop does not go on once it has finished
            have : s' = s.next := by
              rw [show fuel = fuel - 1 + 1 by
                rw [h, if_pos rfl] at hfuel'; omega, advance, h] at hadv
              simp at hadv
              exact hadv.1.symm
            rw [this, h] at hf'
            cases hf'
        · refine .inr ⟨by omega, ?_⟩
          rw [h4, h5, h6, Nat.add_sub_cancel]
          exact h7
      · exact h4
    · -- the item read last is not in front of `q`
      have hfirst : s.first = false := by
        by_contra h
        exact hlt (by simp [h])
      rw [if_neg hlt, hfirst]
      simp only [Bool.false_eq_true, if_false]
      have hcmp : compareMap s.item q = cmpCode (slot s.item) (slot q) :=
        compareMap_eq (hc.keyed hfirst hf) hq
      rw [hfirst, hcmp] at hlt
      rw [hcmp]
      refine ⟨s, _, rfl, rfl, hc, hfirst, fun h => ⟨hf, ?_⟩,
        fun h => ?_, .inl ⟨rfl, rfl, trivial⟩⟩
      · exact cmpCode_eq_iff.1 h
      · have hgt : cmpCode (slot s.item) (slot q) = .gt := by
          cases hcc : cmpCode (slot s.item) (slot q) <;> simp_all
        have hlt'' := Std.OrientedCmp.gt_iff_lt.1 hgt
        refine ⟨?_, fun _ => hlt''⟩
        rintro ⟨x, hx, hs⟩
        have := hc.below hfirst hf x hx (by rw [hs]; exact hlt'')
        rw [hs] at this
        exact cmp_irrefl _ this

/-! ## The loop -/

/-- The entries after adding those of `from` below those of `this`. -/
def EntryUnder (flags : Flags) (this from' : List Pair) (c : List ℤ) (x : SValue) : Prop :=
  (∃ y z, Entry this c y ∧ Entry from' c z ∧ inherit flags y z = some x) ∨
    (Entry this c x ∧ ∀ z, ¬ Entry from' c z) ∨ (Entry from' c x ∧ ∀ y, ¬ Entry this c y)

/-- The set part after adding that of `from` below that of `this`. -/
def SetUnder (this from' : List Pair) (t : List ℤ) : Prop :=
  if hasSets this then SetItem this t else SetItem from' t

/-- What the value has become when the loop is through with the items `done` of `from`. -/
structure Walk (flags : Flags) (a : SValue) (done : List Pair) (s : InheritState) : Prop where
  live : Live s.this
  set : ∀ t, SetItem s.this.items t ↔ SetUnder a.items done t
  entry : ∀ c x, Entry s.this.items c x ↔ EntryUnder flags a.items done c x
  keys : ∀ c, (∃ x, Entry s.this.items c x) ↔ (∃ x, Entry a.items c x) ∨ ∃ x, Entry done c x
  shape : s.this = a ∨
    (s.this.isSimple = false ∧ (a.isSimple = true → ∃ c x, Entry s.this.items c x))
  /-- The index of the cursor is that of the item read last, or an item was added in
  front of that. -/
  fresh : s.first = false → s.finish = false →
    (0 < s.i1 ∧ ∃ x, s.this.items[s.i1 - 1]? = some x ∧ slot x = slot s.item) ∨
      ∃ q ∈ done, inheritAdds a q = true ∧ cmpCode (slot q) (slot s.item) = .lt ∧
        ∀ x ∈ a.items, ¬ (cmpCode (slot q) (slot x) = .lt ∧ cmpCode (slot x) (slot s.item) = .lt)

theorem items_of_code {l : List Pair} (hq : isProper q = true) :
    slot q ∈ slots l ↔
      if q.1.isWild then SetItem l q.2.code else ∃ x, Entry l q.1.code x := by
  obtain ⟨k, v⟩ := q
  cases hk : k.isWild with
  | true => rw [slot_wild hk, setItem_slot]; rfl
  | false => rw [slot_key hk, entry_slot]; simp

section

variable (h : Walk flags a done s)
include h

/-- An item of `from` whose turn has come is in the value just when it was there at the
start. -/
theorem Walk.slot_iff
 (ht : Items (done ++ q :: rest)) :
    slot q ∈ slots s.this.items ↔
      if q.1.isWild then (if hasSets a.items then SetItem a.items q.2.code else False)
      else ∃ x, Entry a.items q.1.code x := by
  have hq : isProper q = true := ht.proper q (by simp)
  rw [items_of_code hq]
  -- no item of `done` has the slot
  have hfresh : slot q ∉ slots done := by
    rintro ⟨p, hp, hs⟩
    have := (pairwise_append.1 ht.table).2.2 p hp q mem_cons_self
    rw [hs] at this
    exact cmp_irrefl _ this
  rw [items_of_code hq] at hfresh
  split
  · rename_i hk
    rw [hk, if_pos rfl] at hfresh
    rw [h.set, SetUnder]
    split
    · rfl
    · simp [hfresh]
  · rename_i hk
    rw [if_neg hk] at hfresh
    rw [h.keys]
    simp [hfresh]

theorem Walk.slots_sub {x : Pair} (hx : x ∈ a.items) : ∃ x' ∈ s.this.items, slot x' = slot x := by
  obtain ⟨k, v⟩ := x
  cases hk : k.isWild with
  | true =>
    have hset : SetItem a.items v.code := ⟨k, v, hx, hk, rfl⟩
    have hsets : hasSets a.items = true := any_eq_true.2 ⟨_, hx, hk⟩
    have : SetItem s.this.items v.code := by
      rw [h.set, SetUnder, if_pos hsets]; exact hset
    rw [setItem_slot] at this
    rw [slot_wild hk]
    exact this
  | false =>
    have := (h.keys k.code).2 (.inl ⟨v, k, hx, hk, rfl⟩)
    rw [entry_slot] at this
    rw [slot_key hk]
    exact this

theorem Walk.moved {s' : InheritState} (hf : s.first = false → s.finish = true → s'.finish = true)
    (hthis : s'.this = s.this)
    (hmove : (s'.i1 = s.i1 ∧ s'.item = s.item ∧ s.first = false) ∨ s'.finish = true ∨
      (0 < s'.i1 ∧ s.this.items[s'.i1 - 1]? = some s'.item)) : Walk flags a done s' := by
  refine ⟨by rw [hthis]; exact h.live, by rw [hthis]; exact h.set, by rw [hthis]; exact h.entry,
    by rw [hthis]; exact h.keys, by rw [hthis]; exact h.shape, fun _ hfin => ?_⟩
  rw [hthis]
  rcases hmove with ⟨h1, h2, h3⟩ | h1 | ⟨h1, h2⟩
  · rw [h1, h2]
    refine h.fresh h3 ?_
    by_contra hfs
    rw [hf h3 (by simpa using hfs)] at hfin
    cases hfin
  · rw [h1] at hfin; cases hfin
  · exact .inl ⟨h1, _, h2, rfl⟩

theorem Walk.pass (hk : k.isWild = true) (hs : hasSets a.items = true) :
    Walk flags a (done ++ [(k, v)]) s := by
  have hentry : ∀ c x, Entry (done ++ [(k, v)]) c x ↔ Entry done c x := by
    intro c x; simp [entry_append, hk]
  refine ⟨h.live, fun t => ?_, fun c x => ?_, fun c => ?_, h.shape, fun h1 h2 => ?_⟩
  · rw [h.set, SetUnder, SetUnder, if_pos hs, if_pos hs]
  · rw [h.entry]; simp only [EntryUnder, hentry]
  · rw [h.keys]; simp only [hentry]
  · refine (h.fresh h1 h2).imp_right ?_
    rintro ⟨q, hq, hrest⟩
    exact ⟨q, mem_append_left _ hq, hrest⟩

end

theorem Cursor.add {m : BValueMap SValue} {i : ℕ} (h : Cursor a s (slot q))
    (hm : m.maps = s.this.items.insertIdx i q) (hi : i ≤ s.this.items.length)
    (hq : s.termcheck = false → q.1.isWild = false) (ht : cmpCode (slot q) t = .lt) :
    Cursor a { s with this := map m } t := by
  have hmem : ∀ x, x ∈ m.maps ↔ x = q ∨ x ∈ s.this.items := by
    intro x; rw [hm, mem_insertIdx hi]
  refine ⟨h.start, h.keyed, fun h1 h2 => ?_, fun h1 h2 x hx hlt => ?_, fun h1 x hx => ?_,
    fun h1 h2 j x hj hx => ?_, h.nosets, h.sets, fun h1 => ?_, h.checked⟩
  · obtain ⟨j, x, hle, hx, hs⟩ := h.here h1 h2
    simp only [items_map, hm]
    rcases Nat.lt_or_ge j i with hji | hji
    · exact ⟨j, x, hle, by rw [List.getElem?_insertIdx_of_lt hji]; exact hx, hs⟩
    · refine ⟨j + 1, x, ?_, by rw [List.getElem?_insertIdx_of_gt (by omega)]; exact hx, hs⟩
      show s.i1 ≤ j + 1 + 1
      omega
  · rcases (hmem x).1 hx with rfl | hx
    · exact ht
    · exact Std.TransCmp.lt_trans (h.below h1 h2 x hx hlt) ht
  · rcases (hmem x).1 hx with rfl | hx
    · exact ht
    · exact Std.TransCmp.lt_trans (h.ended h1 x hx) ht
  · simp only [items_map, hm, List.getElem?_insertIdx] at hx
    split at hx
    · exact h.read h1 h2 j x hj hx
    · split at hx
      · split at hx
        · cases hx; exact hq h1
        · cases hx
      · refine h.read h1 h2 (j - 1) x ?_ hx
        have : j < s.i1 := hj
        omega
  · rw [← h.same h1, Bool.eq_iff_iff]
    simp only [hasSets, any_eq_true, items_map, hmem]
    constructor
    · rintro ⟨x, rfl | hx, hw⟩
      · rw [hq h1] at hw; cases hw
      · exact ⟨x, hx, hw⟩
    · rintro ⟨x, hx, hw⟩
      exact ⟨x, .inr hx, hw⟩

/-- **Adding an item** of `from` that the value does not have. -/
theorem Walk.add
 (h : Walk flags a done s) (ha : Live a) (hda : a.isDefined = true)
    (hc : Cursor a s (slot (k, v))) (hfirst : s.first = false)
    (ht : Items (done ++ (k, v) :: rest)) (hg : Good (k, v))
    (hnull : v.isNull = false) (hnew : slot (k, v) ∉ slots s.this.items)
    (hlt : s.finish = false → cmpCode (slot (k, v)) (slot s.item) = .lt)
    (hwild : k.isWild = true → hasSets a.items = false ∧ s.termcheck = true) :
    ∃ this, joinItem s.this k v { flags with noFlatten := true } = some this ∧
      Walk flags a (done ++ [(k, v)]) { s with this := this } ∧
      ∀ t, cmpCode (slot (k, v)) t = .lt → Cursor a { s with this := this } t := by
  have hspec := h.slot_iff ht
  have hnoentry : k.isWild = false → ∀ x, ¬ Entry s.this.items k.code x := by
    intro hk x hx
    rw [slot_key hk, ← entry_slot] at hnew
    exact hnew ⟨x, hx⟩
  have hd : s.this.isDefined = true := by
    rcases h.shape with hs | ⟨hs, -⟩
    · rw [hs]; exact hda
    · obtain ⟨m, hm⟩ := isSimple_eq_false.1 hs
      rw [hm]; exact isDefined_map m
  have hfl : ({ flags with noFlatten := true } : Flags).noFlatten = true := rfl
  have hjoin := joinItem_new hfl h.live hd hg hnull hnoentry
  obtain ⟨m0, -, hlive, hadd, hset, hentry⟩ := addItem_live h.live hg hnoentry
  obtain ⟨m, hm, -, hcase⟩ := addItem_spec h.live.part h.live.error h.live.wild hg.normal hg.proper
  obtain ⟨-, i, hle, hmaps⟩ := hcase.resolve_left fun hin => hnew hin.1
  rw [hadd] at hm
  cases hm
  rw [hadd] at hjoin
  -- neither `a` nor `done` has the item
  have hdone : slot (k, v) ∉ slots done := by
    rintro ⟨p, hp, hs⟩
    have := (pairwise_append.1 ht.table).2.2 p hp (k, v) mem_cons_self
    rw [hs] at this
    exact cmp_irrefl _ this
  refine ⟨_, hjoin, ⟨hlive, fun t => ?_, fun c x => ?_, fun c => ?_, .inr ⟨isSimple_map _, fun hsa => ?_⟩,
    fun _ hfin => .inr ⟨(k, v), by simp, ?_, hlt hfin, fun x hx hbetween => ?_⟩⟩,
    fun t htt => hc.add hmaps hle (fun htc => ?_) htt⟩
  · rw [items_map, hset, setItem_cons, h.set]
    cases hk : k.isWild with
    | true =>
      have hs := (hwild hk).1
      rw [SetUnder, SetUnder, hs]
      simp only [Bool.false_eq_true, if_false, setItem_append, setItem_cons, hk, not_setItem_nil,
        or_false, true_and]
      exact or_comm
    | false => simp [SetUnder, setItem_append, hk]
  · rw [items_map, hentry, entry_cons, h.entry]
    cases hk : k.isWild with
    | true => simp [EntryUnder, entry_append, hk]
    | false =>
      simp only [EntryUnder, entry_append, entry_cons, hk, not_entry_nil, or_false, true_and]
      by_cases hcc : k.code = c
      · subst hcc
        rw [hk, if_neg (by simp)] at hspec
        rw [hspec] at hnew
        rw [slot_key hk, ← entry_slot] at hdone
        have h1 : ∀ y, ¬ Entry a.items k.code y := fun y hy => hnew ⟨y, hy⟩
        have h2 : ∀ y, ¬ Entry done k.code y := fun y hy => hdone ⟨y, hy⟩
        simp [h1, h2]
      · simp [hcc]
  · simp only [items_map, hentry, entry_cons, exists_or, h.keys, entry_append, not_entry_nil, or_false]
    rw [or_left_comm, ← or_assoc, or_assoc, or_comm (a := ∃ x, Entry done c x)]
  · cases hk : k.isWild with
    | true =>
      -- a simple value is a set item itself
      have := (hwild hk).1
      rw [items_of_isSimple hsa, ha.error, hda] at this
      simp [hasSets, show wild.isWild = true by decide] at this
    | false => exact ⟨k.code, v, (hentry _ _).2 (entry_cons.2 (.inl ⟨hk, rfl, rfl⟩))⟩
  · unfold inheritAdds
    cases hk : k.isWild with
    | true => simp [(hwild hk).1]
    | false =>
      rw [hk, if_neg (by simp)] at hspec
      rw [hspec] at hnew
      rcases beginEditItem_entry ha hk with ⟨hb, -⟩ | ⟨-, -, -, cur, -, -, -, -, -, he, -⟩
      · rw [hb]; rfl
      · exact absurd ⟨cur, he⟩ hnew
  · obtain ⟨x', hx', hs⟩ := h.slots_sub hx
    have := hc.below hfirst hfin x' hx' (by rw [hs]; exact hbetween.2)
    rw [hs] at this
    exact cmp_irrefl _ (Std.TransCmp.lt_trans this hbetween.1)
  · by_contra hk
    rw [(hwild (by simpa using hk)).2] at htc
    cases htc

/-- **Editing the item at the cursor**, when its index is not out of date. -/
theorem Walk.edit {y : SValue} (h : Walk flags a done s) (hk : k.isWild = false)
    (ht : Items (done ++ (k, v) :: rest)) (hy : Entry a.items k.code y)
    (hc : Cursor a s (slot (k, v)))
    (hfresh : 0 < s.i1 ∧ ∃ x, s.this.items[s.i1 - 1]? = some x ∧ slot x = slot s.item)
    (hitem : slot s.item = slot (k, v))
    {f : SValue → Option SValue} {r : SValue} (hf : f y = some r) (hi : inherit flags y v = some r)
    (hn : r.isNormal = true) (hrf : r.isErrorFree = true) (hrd : r.isDefined = true) :
    ∃ s', inheritEdit s f = some s' ∧ Walk flags a (done ++ [(k, v)]) s' ∧
      ∀ t, cmpCode (slot (k, v)) t = .lt → Cursor a s' t := by
  obtain ⟨hpos, ⟨k', cur⟩, hget, hslot⟩ := hfresh
  rw [hitem] at hslot
  obtain ⟨hkw, hkc⟩ : k'.isWild = false ∧ k'.code = k.code := by
    rcases slot_eq_iff.1 hslot with ⟨-, hw, -⟩ | ⟨hw, -, hc⟩
    · rw [hk] at hw; cases hw
    · exact ⟨hw, hc⟩
  have hdone : ∀ z, ¬ Entry done k.code z := by
    rintro z ⟨k0, hp, hk0, hc0⟩
    have := (pairwise_append.1 ht.table).2.2 _ hp (k, v) mem_cons_self
    rw [slot_key hk0, slot_key hk, hc0] at this
    exact cmp_irrefl _ this
  have hin : (k', cur) ∈ s.this.items := mem_of_getElem? hget
  have hentry : Entry s.this.items k.code cur := ⟨k', hin, hkw, hkc⟩
  -- the entry is that of the start
  have hcur : cur = y := by
    have hy' : Entry s.this.items k.code y := (h.entry _ _).2 (.inr (.inl ⟨hy, hdone⟩))
    exact Entry.unique h.live.items hentry hy'
  subst hcur
  have hmap : s.this.isSimple = false := by
    by_contra hs
    exact not_entry_of_isSimple (by simpa using hs) _ _ hentry
  obtain ⟨m, hm⟩ := isSimple_eq_false.1 hmap
  have hlive := h.live
  rw [hm] at hget hlive hin
  have hit : Items m.maps := hlive.part
  have hmod := modify_eq_set r hget
  obtain ⟨hset, hview⟩ := set_view r hit hget hkw
  have hround : inheritEdit s f =
      some { s with this := map { m with dataSize := none, maps := m.maps.set (s.i1 - 1) (k', r) } } := by
    have hget' : m.maps[s.i1 - 1]? = some (k', cur) := hget
    simp only [inheritEdit, hm, editMap, BValueMap.beginEditMapAt, hget', Option.map_some, hf,
      BValueMap.endEditMapAt, hrd, if_true, Option.bind_eq_bind, Option.bind_some]
    rw [items_map] at hmod
    rw [hmod]
    rfl
  have hslots : (m.maps.set (s.i1 - 1) (k', r)).map slot = m.maps.map slot := by
    refine ext_getElem? fun j => ?_
    rw [List.getElem?_map, List.getElem?_map, List.getElem?_set]
    split
    · rename_i hij
      subst hij
      have hget' : m.maps[s.i1 - 1]? = some (k', cur) := hget
      rw [if_pos (List.getElem?_eq_some_iff.1 hget').1, hget']
      simp [slot_key hkw]
    · rfl
  have hslotget : ∀ {j : ℕ} {x : Pair}, (m.maps.set (s.i1 - 1) (k', r))[j]? = some x →
      ∃ x', m.maps[j]? = some x' ∧ slot x' = slot x := by
    intro j x hx
    have := congrArg (fun l : List (List ℤ) => l[j]?) hslots
    simp only [List.getElem?_map, hx, Option.map_some] at this
    obtain ⟨x', hx', hs⟩ := Option.map_eq_some_iff.1 this.symm
    exact ⟨x', hx', hs⟩
  have hslotget' : ∀ {j : ℕ} {x : Pair}, m.maps[j]? = some x →
      ∃ x', (m.maps.set (s.i1 - 1) (k', r))[j]? = some x' ∧ slot x' = slot x := by
    intro j x hx
    have := congrArg (fun l : List (List ℤ) => l[j]?) hslots
    simp only [List.getElem?_map, hx, Option.map_some] at this
    obtain ⟨x', hx', hs⟩ := Option.map_eq_some_iff.1 this
    exact ⟨x', hx', hs⟩
  refine ⟨_, hround, ⟨?_, fun t => ?_, fun c x => ?_, fun c => ?_,
    .inr ⟨isSimple_map _, fun _ => ⟨k.code, r, ?_⟩⟩, fun _ _ => .inl ⟨hpos, ?_⟩⟩, fun t htt => ?_⟩
  · refine Live.map (Items.of_table (Table.of_map hit.table hslots.symm) ?_ ?_) ?_
    · intro p hp
      rcases (mem_set_iff r hit.table hget p).1 hp with rfl | ⟨hp, -⟩
      · exact ⟨(hit.normal _ hin).1, hn⟩
      · exact hit.normal p hp
    · intro p hp
      rcases (mem_set_iff r hit.table hget p).1 hp with rfl | ⟨hp, -⟩
      · exact isProper_iff.2 ⟨(isProper_iff.1 (hit.proper _ hin)).1, hrd,
          fun hw => by rw [hkw] at hw; cases hw⟩
      · exact hit.proper p hp
    · intro p hp
      rcases (mem_set_iff r hit.table hget p).1 hp with rfl | ⟨hp, -⟩
      · exact ⟨(isErrorFree_map.1 hlive.errorFree _ hin).1, hrf⟩
      · exact isErrorFree_map.1 hlive.errorFree p hp
  · have := h.set t
    rw [hm] at this
    rw [items_map, hset, ← items_map, this]
    simp [SetUnder, setItem_append, hk]
  · have he := h.entry c x
    rw [hm] at he
    rw [items_map, hview, ← items_map, he]
    simp only [EntryUnder, entry_append, entry_cons, hk, not_entry_nil, or_false, true_and, hkc]
    have hia : ∀ y', Entry a.items k.code y' ↔ y' = cur := by
      intro y'
      constructor
      · intro hy'
        have : Entry s.this.items k.code y' := (h.entry _ _).2 (.inr (.inl ⟨hy', hdone⟩))
        exact Entry.unique h.live.items this hentry
      · rintro rfl; exact hy
    by_cases hcc : c = k.code
    · subst hcc
      simp [hia, hdone, hi, eq_comm]
    · simp [hcc, Ne.symm hcc]
  · have hkeys := h.keys c
    rw [hm] at hkeys
    rw [items_map]
    simp only [hview, entry_append, entry_cons, hk, not_entry_nil, or_false, true_and, hkc]
    by_cases hcc : c = k.code
    · subst hcc
      simp only [true_and, ne_eq, not_true_eq_false, false_and, or_false]
      exact ⟨fun _ => .inl ⟨_, hy⟩, fun _ => ⟨r, rfl⟩⟩
    · simp only [hcc, false_and, ne_eq, not_false_eq_true, true_and, false_or, Ne.symm hcc, or_false]
      exact hkeys
  · rw [items_map, hview, hkc]; exact .inl ⟨rfl, rfl⟩
  · obtain ⟨x', hx', hs⟩ := hslotget' hget
    exact ⟨x', hx', hs.trans (hslot.trans hitem.symm)⟩
  · have hlt : ∀ x ∈ m.maps.set (s.i1 - 1) (k', r), ∃ x' ∈ s.this.items, slot x' = slot x := by
      intro x hx
      obtain ⟨j, hj⟩ := mem_iff_getElem?.1 hx
      obtain ⟨x', hx', hs⟩ := hslotget hj
      exact ⟨x', by rw [hm]; exact mem_of_getElem? hx', hs⟩
    have hmono := hc.mono htt
    refine ⟨hmono.start, hmono.keyed, fun h1 h2 => ?_, fun h1 h2 x hx => ?_, fun h1 x hx => ?_,
      fun h1 h2 j x hj hx => ?_, hmono.nosets, hmono.sets, fun h1 => ?_, hmono.checked⟩
    · obtain ⟨j, x, hle, hx, hs⟩ := hmono.here h1 h2
      rw [hm] at hx
      obtain ⟨x', hx', hs'⟩ := hslotget' hx
      exact ⟨j, x', hle, hx', hs'.trans hs⟩
    · obtain ⟨x', hx', hs⟩ := hlt x hx
      rw [← hs]
      exact hmono.below h1 h2 x' hx'
    · obtain ⟨x', hx', hs⟩ := hlt x hx
      rw [← hs]
      exact hmono.ended h1 x' hx'
    · obtain ⟨x', hx', hs⟩ := hslotget hx
      rw [← isWild_of_slot hs]
      exact hmono.read h1 h2 j x' hj (by rw [hm]; exact hx')
    · rw [← hmono.same h1, hm]
      exact hasSets_slot hslots

/-- Whether the value had set items is known in the end: it was seen on the way, or the
rest of the table is searched. -/
theorem Cursor.terminals (h : Cursor a s t) (he : s.this.isError = false) : ∃ check,
      s.checkTerminals = some { s with terminals := hasSets a.items, termcheck := check } ∧
      (hasSets a.items = false → check = true) ∧
      Cursor a { s with terminals := hasSets a.items, termcheck := check } t := by
  unfold InheritState.checkTerminals
  cases htm : s.terminals with
  | true =>
    have hs := h.sets htm
    refine ⟨s.termcheck, ?_, fun hno => absurd (hs.symm.trans hno) (by simp), ?_⟩
    · rw [hs]
      simp only [Bool.not_true, Bool.false_and, Bool.false_eq_true, if_false]
      rw [← htm]
    · exact { h with
        read := fun h1 h2 => by rw [hs] at h2; cases h2
        nosets := fun _ h2 => h2
        sets := fun h2 => h2 }
  | false =>
  cases htc : s.termcheck with
  | true =>
    have hs := h.nosets htc htm
    refine ⟨true, ?_, fun _ => rfl, ?_⟩
    · rw [hs]
      simp only [Bool.not_false, Bool.not_true, Bool.and_false, Bool.false_eq_true, if_false]
      rw [← htm, ← htc]
    · exact { h with
        read := fun h1 => by cases h1
        nosets := fun _ h2 => h2
        sets := fun h2 => h2
        same := fun h1 => by cases h1
        checked := fun _ => rfl }
  | false =>
    have hscan : (s.this.items.drop s.i1).any (fun p => p.1.isWild) = hasSets a.items := by
      rw [← h.same htc, Bool.eq_iff_iff]
      simp only [hasSets, any_eq_true]
      constructor
      · rintro ⟨x, hx, hw⟩
        exact ⟨x, mem_of_mem_drop hx, hw⟩
      · rintro ⟨x, hx, hw⟩
        obtain ⟨j, hj⟩ := mem_iff_getElem?.1 hx
        have hge : s.i1 ≤ j := by
          by_contra hlt
          rw [h.read htc htm j x (by omega) hj] at hw
          cases hw
        refine ⟨x, mem_of_getElem? (i := j - s.i1) ?_, hw⟩
        rw [List.getElem?_drop, Nat.add_sub_cancel' hge]
        exact hj
    refine ⟨true, ?_, fun _ => rfl, ?_⟩
    · simp [scanTerminals, he, hscan]
    · exact { h with
        read := fun h1 => by cases h1
        nosets := fun _ h2 => h2
        sets := fun h2 => h2
        same := fun h1 => by cases h1
        checked := fun _ => rfl }

/-- **One round of the loop of `Inherit`.** -/
theorem inheritPair_walk (hr : flags.noRecursion = false)
 (h : Walk flags a done s) (ha : Live a)
    (hda : a.isDefined = true) (hc : Cursor a s (slot (k, v)))
    (ht : Items (done ++ (k, v) :: rest)) (hg : Good (k, v))
    (hwild : k.isWild = true → hasSets a.items = true ∨ v.isNull = false)
    (hkey : k.isWild = false → ∀ y, a.entryFor k = some y →
      staleAt a (done ++ (k, v) :: rest) (k, v) = false ∧
      ∃ r, inherit flags y v = some r ∧ r.isNormal = true ∧ r.isErrorFree = true ∧ r.isDefined = true)
    (hnokey : k.isWild = false → a.entryFor k = none → v.isNull = false) :
    ∃ s', inheritPair flags s k v (fun cur => inherit flags cur v) = some s' ∧
      Walk flags a (done ++ [(k, v)]) s' ∧
      ∀ t, cmpCode (slot (k, v)) t = .lt → Cursor a s' t := by
  have hfuel : (if s.finish then 1 else s.this.items.length + 2 - s.i1) ≤ s.this.items.length + 2 := by
    split <;> omega
  have hqk : Keyed (k, v) := keyed_of_isProper hg.proper
  obtain ⟨s1, cmp, hadv, hthis, hc1, hfirst, heq, hne, hmove⟩ :=
    advance_spec hqk _ s h.live.items h.live.error hc hfuel
  have hw1 : Walk flags a done s1 := by
    refine h.moved (fun _ hf => ?_) hthis hmove
    rw [advance, hf] at hadv
    simp at hadv
    rw [← hadv.1]; exact hf
  have hspec := hw1.slot_iff ht
  unfold inheritPair
  rw [hadv]
  simp only [Option.bind_eq_bind, Option.bind_some]
  by_cases hcmp : cmp = .eq
  · -- the value has the item
    obtain ⟨hfin, hitem⟩ := heq hcmp
    rw [if_neg (by simp [hcmp])]
    have hin : slot (k, v) ∈ slots s1.this.items := by
      obtain ⟨j, x, -, hx, hs⟩ := hc1.here hfirst hfin
      exact ⟨x, mem_of_getElem? hx, hs.trans hitem⟩
    rw [hspec] at hin
    cases hk : k.isWild with
    | true =>
      rw [hk, if_pos rfl] at hin
      have hs : hasSets a.items = true := by
        by_contra hs
        rw [if_neg hs] at hin
        exact hin
      refine ⟨s1, by simp, hw1.pass hk hs, fun t htt => hc1.mono htt⟩
    | false =>
      rw [hk, if_neg (by simp)] at hin
      obtain ⟨y, hy⟩ := hin
      obtain ⟨hstale, r, hi, hn, hrf, hrd⟩ := hkey hk y ((entryFor_eq_some ha).2 ⟨hk, hy⟩)
      -- the index is that of the item, since no item was added just in front of it
      have hfresh := (hw1.fresh hfirst hfin).resolve_right (by
        rintro ⟨q, hq, hadds, hlt, hno⟩
        rw [hitem] at hlt
        have hqm : q ∈ done ++ (k, v) :: rest := mem_append_left _ hq
        have hqk' := keyed_of_isProper (ht.proper q hqm)
        refine absurd hstale ?_
        rw [Bool.not_eq_false]
        refine any_eq_true.2 ⟨q, hqm, ?_⟩
        simp only [hadds, compareMap_eq hqk' hqk, hlt, decide_true, Bool.true_and, Bool.not_eq_true']
        refine any_eq_false.2 fun x hx hbad => ?_
        have hxk := keyed_of_isProper (ha.items.proper x hx)
        simp only [Bool.and_eq_true, decide_eq_true_eq, compareMap_eq hqk' hxk,
          compareMap_eq hxk hqk] at hbad
        exact hno x hx (by rw [hitem]; exact hbad))
      obtain ⟨s', hs', hw', hc'⟩ := hw1.edit hk ht hy hc1 hfresh hitem
        (f := fun cur => inherit flags cur v) hi hi hn hrf hrd
      exact ⟨s', by simpa [hr] using hs', hw', hc'⟩
  · -- the item is new
    obtain ⟨hnew, hlt⟩ := hne hcmp
    rw [← hthis] at hnew
    rw [if_pos hcmp]
    unfold inheritNew
    cases hk : k.isWild with
    | true =>
      obtain ⟨check, hterm, hcheck, hc2⟩ := hc1.terminals hw1.live.error
      simp only [if_true, hterm, Option.bind_eq_bind, Option.bind_some]
      have hw2 : Walk flags a done { s1 with terminals := hasSets a.items, termcheck := check } :=
        ⟨hw1.live, hw1.set, hw1.entry, hw1.keys, hw1.shape, hw1.fresh⟩
      cases hs : hasSets a.items with
      | true =>
        rw [hs] at hw2 hc2
        exact ⟨_, rfl, hw2.pass hk hs, fun t htt => hc2.mono htt⟩
      | false =>
        rw [hs] at hw2 hc2
        have hnull := (hwild hk).resolve_left (by simp [hs])
        obtain ⟨this, hj, hw', hc'⟩ := hw2.add ha hda hc2 hfirst ht hg hnull hnew hlt
          fun _ => ⟨hs, hcheck hs⟩
        refine ⟨_, ?_, hw', hc'⟩
        rw [show s1.this.joinItem k v { flags with noFlatten := true } = some this from hj]
        rfl
    | false =>
      have hnull : v.isNull = false := by
        refine hnokey hk ?_
        cases hfor : a.entryFor k with
        | none => rfl
        | some y =>
          refine absurd ?_ hnew
          rw [hspec, hk, if_neg (by simp)]
          exact ⟨y, ((entryFor_eq_some ha).1 hfor).2⟩
      obtain ⟨this, hj, hw', hc'⟩ := hw1.add ha hda hc1 hfirst ht hg hnull hnew hlt
        fun h => by rw [hk] at h; cases h
      refine ⟨_, ?_, hw', hc'⟩
      simp only [Bool.false_eq_true, if_false]
      rw [show s1.this.joinItem k v { flags with noFlatten := true } = some this from hj]
      rfl

theorem inheritItems_walk (hr : flags.noRecursion = false) (ha : Live a) (hda : a.isDefined = true)
    {whole : List Pair} (ht : Items whole) (hg : ∀ p ∈ whole, Good p)
    (hrec : ∀ p ∈ whole, ∀ y, y.isNormal = true → y.isErrorFree = true → y.isDefined = true →
      inheritOk y p.2 = true →
      ∃ r, inherit flags y p.2 = some r ∧ r.isNormal = true ∧ r.isErrorFree = true ∧
        r.isDefined = true) :
    ∀ (l done : List Pair), done ++ l = whole → inheritItemsOk a whole l = true →
      ∀ s, Walk flags a done s → (∀ q ∈ l, Cursor a s (slot q)) →
      ∃ s', inheritItems flags s l = some s' ∧ Walk flags a whole s' := by
  intro l
  induction l with
  | nil =>
    intro done hd _ s hw _
    rw [append_nil] at hd
    subst hd
    exact ⟨s, by rw [inheritItems], hw⟩
  | cons p l ih =>
    intro done hd hok s hw hc
    obtain ⟨k, v⟩ := p
    have hmem : (k, v) ∈ whole := by rw [← hd]; simp
    rw [inheritItemsOk, Bool.and_eq_true] at hok
    obtain ⟨hhead, htail⟩ := hok
    have ht' : Items (done ++ (k, v) :: l) := by rw [hd]; exact ht
    obtain ⟨s1, hs1, hw1, hc1⟩ := inheritPair_walk hr hw ha hda (hc _ mem_cons_self) ht'
      (hg _ hmem)
      (fun hk => by simpa [hk] using hhead)
      (fun hk y hy => by
        rw [if_neg (by simp [hk])] at hhead
        simp only [hy, Bool.and_eq_true, Bool.not_eq_true'] at hhead
        have he := ((entryFor_eq_some ha).1 hy).2
        refine ⟨by rw [hd]; exact hhead.1, hrec _ hmem y (he.normal ha.items).1
          (he.errorFree (isErrorFree_items ha.errorFree)) (he.normal ha.items).2 hhead.2⟩)
      (fun hk hno => by simpa [hk, hno] using hhead)
    have hlt : ∀ q ∈ l, cmpCode (slot (k, v)) (slot q) = .lt := by
      intro q hq
      have := (pairwise_append.1 ht'.table).2.1
      exact (pairwise_cons.1 this).1 q hq
    obtain ⟨s', hs', hw'⟩ := ih (done ++ [(k, v)]) (by simpa using hd) htail s1 hw1
      fun q hq => hc1 _ (hlt q hq)
    exact ⟨s', by rw [inheritItems, hs1]; exact hs', hw'⟩

/-! ## The whole of Inherit -/

/-- What `Inherit` promises about its result. -/
structure Inherited (flags : Flags) (a b r : SValue) : Prop where
  normal : r.isNormal = true
  errorFree : r.isErrorFree = true
  defined : a.isDefined = true ∨ b.isDefined = true → r.isDefined = true
  wild : a.isSpecified = true → r.isWild = false
  keep : a.isWild = true ∨ (a.isSpecified = true ∧ b.isSpecified = false) → r = a
  replace : a.isDefined = false → r = b
  set : a.isSpecified = true → b.isSpecified = true →
    ∀ t, SetItem r.items t ↔ SetUnder a.items b.items t
  entry : a.isSpecified = true → b.isSpecified = true →
    ∀ c x, Entry r.items c x ↔ EntryUnder flags a.items b.items c x
  keys : a.isSpecified = true → b.isSpecified = true →
    ∀ c, (∃ x, Entry r.items c x) ↔ (∃ x, Entry a.items c x) ∨ ∃ x, Entry b.items c x

theorem Walk.normal (h : Walk flags a done s) (hn : a.isNormal = true) :
    s.this.isNormal = true := by
  rcases h.shape with hs | ⟨hs, hentry⟩
  · rw [hs]; exact hn
  · obtain ⟨m, hm⟩ := isSimple_eq_false.1 hs
    have hlive := h.live
    rw [hm] at hlive hentry ⊢
    -- some pair is not the set item `v`, for whatever `v`
    have hother : ∀ c : List ℤ, ∃ p ∈ m.maps, slot p ≠ c ++ [0] := by
      intro c
      by_cases hsa : a.isSimple = true
      · obtain ⟨c', x, k, hp, hk, -⟩ := hentry hsa
        refine ⟨_, hp, ?_⟩
        rw [slot_key hk]
        intro h
        have := (append_inj' h rfl).2
        simp at this
      · obtain ⟨ma, rfl⟩ := isSimple_eq_false.1 (by simpa using hsa)
        obtain ⟨t, ⟨x, hx, hxt⟩, hne⟩ := exists_slot_ne hn c
        obtain ⟨x', hx', hs'⟩ := h.slots_sub hx
        rw [hm] at hx'
        exact ⟨x', hx', by rw [hs', hxt]; exact hne⟩
    obtain ⟨p, hp, -⟩ := hother []
    refine isNormal_map.2 ⟨hlive.part, ne_nil_of_mem hp, ?_⟩
    unfold isRedundant
    split
    · rename_i k v hmaps
      by_contra hk
      obtain ⟨q, hq, hne⟩ := hother v.code
      rw [hmaps, mem_singleton] at hq
      subst hq
      exact hne (slot_wild (by simpa using hk) v)
    · rfl

/-- The variables of `Inherit` before the loop. -/
def InheritState.init (a : SValue) : InheritState :=
  ⟨a, 0, (undefined, undefined), true, false, false, false⟩

theorem Walk.init (h : Live a) : Walk flags a [] (InheritState.init a) where
  live := h
  set t := by
    show SetItem a.items t ↔ _
    rw [SetUnder]
    cases hs : hasSets a.items with
    | true => simp
    | false => simp [not_hasSets.1 hs t]
  entry c x := by simp [EntryUnder, InheritState.init]
  keys c := by simp [InheritState.init]
  shape := .inl rfl
  fresh := by simp [InheritState.init]

theorem Cursor.init (a : SValue) (t : List ℤ) : Cursor a (InheritState.init a) t where
  start := by simp [InheritState.init]
  keyed := by simp [InheritState.init]
  here := by simp [InheritState.init]
  below := by simp [InheritState.init]
  ended := by simp [InheritState.init]
  read := by simp [InheritState.init]
  nosets := by simp [InheritState.init]
  sets := by simp [InheritState.init]
  same := by simp [InheritState.init]
  checked := by simp [InheritState.init]

theorem inheritPair_pass (ha : Live a) (hv : v.isSimple = true) (hs : hasSets a.items = true)
    (f : SValue → Option SValue) :
    ∃ s', inheritPair flags (InheritState.init a) wild v f = some s' ∧ s'.this = a := by
  have hwild : wild.isWild = true := by decide
  obtain ⟨s1, cmp, hadv, hthis, hc1, -, -, -, -⟩ := advance_spec (a := a) (q := (wild, v))
    (fun _ => hv) (a.items.length + 2) (InheritState.init a) ha.items ha.error (Cursor.init a _)
    (by simp [InheritState.init])
  unfold inheritPair
  rw [show (InheritState.init a).this = a from rfl, hadv]
  simp only [Option.bind_eq_bind, Option.bind_some]
  by_cases hcmp : cmp = .eq
  · exact ⟨s1, by simp [hcmp, hwild], hthis⟩
  · obtain ⟨check, hterm, -, -⟩ := hc1.terminals (by rw [hthis]; exact ha.error)
    refine ⟨{ s1 with terminals := true, termcheck := check }, ?_, hthis⟩
    rw [if_pos hcmp]
    simp only [inheritNew, hwild, if_true, hterm, hs, Option.bind_eq_bind, Option.bind_some]
    rfl

theorem inheritWith_spec {b : SValue} {loop : InheritState → Option InheritState}
    (hna : a.isNormal = true) (hnb : b.isNormal = true) (hfa : a.isErrorFree = true)
    (hfb : b.isErrorFree = true)
    (hloop : a.isSpecified = true → b.isSpecified = true →
      ∃ s', loop (InheritState.init a) = some s' ∧ Walk flags a b.items s')
    (hpass : a.isSpecified = true → b.isSpecified = false →
      ∃ s', loop (InheritState.init a) = some s' ∧ s'.this = a) :
    ∃ r, inheritWith a b loop = some r ∧ Inherited flags a b r := by
  unfold inheritWith
  rw [isError_of_isErrorFree hfb]
  simp only [Bool.false_eq_true, if_false]
  cases hspec : a.isSpecified with
  | true =>
    have haw := isSpecified_iff.1 hspec
    rw [if_pos rfl, show (⟨a, 0, (undefined, undefined), true, false, false, false⟩ : InheritState) =
      InheritState.init a from rfl]
    have hundef : a.isDefined = false → False := fun h => by rw [haw.1] at h; cases h
    cases hspecb : b.isSpecified with
    | true =>
      obtain ⟨s', hs', hw⟩ := hloop hspec hspecb
      have hd : s'.this.isDefined = true := by
        rcases hw.shape with hs | ⟨hs, -⟩
        · rw [hs]; exact haw.1
        · obtain ⟨m, hm⟩ := isSimple_eq_false.1 hs
          rw [hm]; exact isDefined_map m
      refine ⟨s'.this, by rw [hs']; rfl, hw.normal hna, hw.live.errorFree, fun _ => hd,
        fun _ => hw.live.wild, ?_, fun h => (hundef h).elim, fun _ _ => hw.set, fun _ _ => hw.entry,
        fun _ _ => hw.keys⟩
      rintro (h | ⟨-, h⟩)
      · rw [haw.2] at h; cases h
      · rw [hspecb] at h; cases h
    | false =>
      obtain ⟨s', hs', hthis⟩ := hpass hspec hspecb
      have hno : b.isSpecified = true → False := fun h => by rw [hspecb] at h; cases h
      exact ⟨a, by rw [hs', Option.map_some, hthis], hna, hfa, fun _ => haw.1, fun _ => haw.2,
        fun _ => rfl, fun h => (hundef h).elim, fun _ h => (hno h).elim, fun _ h => (hno h).elim,
        fun _ h => (hno h).elim⟩
  | false =>
    have hno : a.isSpecified = true → False := fun h => by rw [hspec] at h; cases h
    cases hd : a.isDefined with
    | false =>
      refine ⟨b, by simp, hnb, hfb, ?_, fun h => (hno h).elim, ?_, fun _ => rfl, fun h => (hno h).elim,
        fun h => (hno h).elim, fun h => (hno h).elim⟩
      · rintro (h | h)
        · rw [hd] at h; cases h
        · exact h
      · rintro (h | ⟨h, -⟩)
        · rw [isDefined_code (isWild_iff_code.1 h)] at hd; cases hd
        · exact (hno h).elim
    | true =>
      exact ⟨a, by simp, hna, hfa, fun _ => hd, fun h => (hno h).elim, fun _ => rfl,
        fun h => (by rw [hd] at h; cases h), fun h => (hno h).elim, fun h => (hno h).elim,
        fun h => (hno h).elim⟩

/-- `Inherit` from a simple value: the loop has one round, and edits nothing. -/
theorem inherit_simple (hr : flags.noRecursion = false) {b : SValue} (hs : b.isSimple = true)
    (hok : ∀ a, inheritOk a b =
      (!a.isSpecified || !b.isDefined || hasSets a.items || (!b.isWild && !b.isNull)))
    (hin : ∀ a, inherit flags a b = inheritWith a b fun s =>
      b.items.foldlM (fun s p => inheritPair flags s p.1 p.2 fun _ => none) s)
    (a : SValue) (hna : a.isNormal = true) (hnb : b.isNormal = true) (hfa : a.isErrorFree = true)
    (hfb : b.isErrorFree = true) (h : inheritOk a b = true) :
    ∃ r, inherit flags a b = some r ∧ Inherited flags a b r := by
  have hitems : b.items = if b.isDefined then [(wild, b)] else [] := by
    rw [items_of_isSimple hs, isError_of_isErrorFree hfb]; rfl
  have hwild : wild.isWild = true := by decide
  rw [hin]
  refine inheritWith_spec hna hnb hfa hfb (fun hspec hspecb => ?_) fun hspec hspecb => ?_
  · have haw := isSpecified_iff.1 hspec
    have hbw := isSpecified_iff.1 hspecb
    have ha : Live a := ⟨Partial.of_isNormal hna, haw.2, hfa⟩
    have hg : Good (wild, b) := ⟨⟨rfl, hnb⟩, isProper_iff.2 ⟨by decide, hbw.1, fun _ => ⟨hs, hbw.2⟩⟩,
      ⟨rfl, hfb⟩⟩
    rw [hitems, hbw.1]
    have hround : inheritPair flags (InheritState.init a) wild b (fun cur => inherit flags cur b) =
        inheritPair flags (InheritState.init a) wild b fun _ => none := by
      simp [inheritPair, hwild]
    obtain ⟨s', hs', hw, -⟩ := inheritPair_walk hr (Walk.init ha) ha haw.1
      (Cursor.init a _) (by simpa using Items.singleton hg.normal hg.proper) hg
      (fun _ => by
        rw [hok, hspec, hbw.1] at h
        simp only [Bool.not_true, Bool.false_or, Bool.or_eq_true, Bool.and_eq_true,
          Bool.not_eq_true'] at h
        exact h.imp_right fun h => h.2)
      (fun hk => by rw [hwild] at hk; cases hk) (fun hk => by rw [hwild] at hk; cases hk)
    rw [hround] at hs'
    exact ⟨s', by simpa using hs', hw⟩
  · have haw := isSpecified_iff.1 hspec
    have ha : Live a := ⟨Partial.of_isNormal hna, haw.2, hfa⟩
    cases hd : b.isDefined with
    | false => exact ⟨InheritState.init a, by rw [hitems, hd]; rfl, rfl⟩
    | true =>
      have hbw : b.isWild = true := by
        by_contra hw
        rw [isSpecified_iff.2 ⟨hd, by simpa using hw⟩] at hspecb
        cases hspecb
      rw [hok, hspec, hd, hbw] at h
      obtain ⟨s', hs', hthis⟩ := inheritPair_pass ha hs (by simpa using h)
        fun _ => none
      exact ⟨s', by rw [hitems, hd]; simpa using hs', hthis⟩

/-- **`Inherit`**, where nothing goes wrong: the set part is kept if there is one, and the
entries are put over those of the other value. -/
theorem inherit_spec (hr : flags.noRecursion = false) : ∀ b a : SValue,
    a.isNormal = true → b.isNormal = true → a.isErrorFree = true → b.isErrorFree = true →
      inheritOk a b = true → ∃ r, inherit flags a b = some r ∧ Inherited flags a b r := by
  intro b
  induction b using SValue.ind with
  | map m ih =>
    intro a hna hnb hfa hfb hok
    obtain ⟨avail, dataSize, maps⟩ := m
    have hi : Items maps := (isNormal_map.1 hnb).1
    have hf := isErrorFree_map.1 hfb
    rw [inherit]
    refine inheritWith_spec hna hnb hfa hfb (fun hspec _ => ?_) fun _ h => ?_
    · have haw := isSpecified_iff.1 hspec
      rw [inheritOk, hspec] at hok
      exact inheritItems_walk hr ⟨Partial.of_isNormal hna, haw.2, hfa⟩ haw.1 hi
        (fun p hp => ⟨hi.normal p hp, hi.proper p hp, hf p hp⟩)
        (fun p hp y hn hfy _ hoky => by
          obtain ⟨r, hr', h⟩ := (ih p hp).2 y hn (hi.normal p hp).2 hfy (hf p hp).2 hoky
          exact ⟨r, hr', h.normal, h.errorFree,
            h.defined (.inr (isProper_iff.1 (hi.proper p hp)).2.1)⟩)
        maps [] rfl (by simpa using hok) _ (Walk.init ⟨Partial.of_isNormal hna, haw.2, hfa⟩)
        fun q _ => Cursor.init a _
    · rw [isSpecified_iff.2 ⟨isDefined_map _, isWild_map _⟩] at h
      cases h
  | small type data => exact inherit_simple hr (by simp) (by simp [inheritOk]) (by simp [inherit])
  | large type buffer => exact inherit_simple hr (by simp) (by simp [inheritOk]) (by simp [inherit])

end OpenBinder.SValue
