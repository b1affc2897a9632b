import OpenBinder.Value.View

/-!
# Overlay

`SValue::Overlay` puts another value over a value: its set part replaces the set
part, its entries replace or add to the entries.
-/

namespace OpenBinder.SValue

open Lib List

/-- The loop of `make_map_without_sets` from index `i` on, with `n` pairs to go. -/
def clearSets : ℕ → ℕ → BValueMap SValue → Option (BValueMap SValue)
  | 0, _, m => some m
  | n + 1, i, m =>
    match m.maps[i]? with
    | some p => if p.1.isWild then (m.removeMapAt i).bind (clearSets n i) else clearSets n (i + 1) m
    | none => none

/-- Whether a table has a set item. -/
def hasSets (l : List Pair) : Bool := l.any fun p => p.1.isWild

/-- `SValue::make_map_without_sets`. The flag tells whether the returned pointer is
something else than `NULL`. -/
def makeMapWithoutSets : SValue → Option (SValue × Bool)
  | map m => (clearSets m.countMaps 0 m).map fun m' => (map m', hasSets m.maps)
  | _ => some (undefined, false)

/-- The variables of the loop of `Overlay`: the value, whether `map` is not `NULL`,
and `setCleared`. -/
structure OverlayState where
  this : SValue
  hasMap : Bool
  setCleared : Bool

/-- One round of the loop of `Overlay`. `overlayValue` is the recursive call on the
value that is being edited. -/
def overlayPair (flags : Flags) (s : OverlayState) (key value : SValue)
    (overlayValue : SValue → Option SValue) : Option OverlayState :=
  match s.this.beginEditItem key with
  | some (m, index) => do
    let this ← editAt m index fun cur => if flags.noRecursion then some value else overlayValue cur
    pure { s with this := this, hasMap := false }
  | none => do
    let s ←
      if !s.setCleared && key.isWild then do
        -- a single item replaces all other set items
        let (this, hasMap) ← s.this.makeMapWithoutSets
        pure ⟨this, hasMap, true⟩
      else pure s
    match s.this.editMap with
    | some m => pure { s with this := map (m.addNewMap key value), hasMap := true }
    | none => pure s

/-- What follows the loop of `Overlay`: `shrink_map(*map)` if set items were cleared. -/
def overlayEnd (s : OverlayState) : Option SValue :=
  if s.setCleared then
    match s.hasMap, s.this with
    | true, map m => some (shrinkMap m)
    | _, _ => none
  else some s.this

/-- The cases of `Overlay`; `loop` is what its loop over the items of `from` makes
of the value. -/
def overlayWith (this from' : SValue) (loop : Option SValue) : Option SValue :=
  if from'.isFinal then some from'
  else if this.isSpecified ∧ (this.isMap ∨ from'.isMap) then loop
  else if !this.isError && from'.isDefined then some from'
  else some this

mutual

def overlay (flags : Flags) : SValue → SValue → Option SValue
  | this, map ⟨avail, dataSize, maps⟩ =>
    overlayWith this (map ⟨avail, dataSize, maps⟩)
      ((overlayItems flags ⟨this, false, false⟩ maps).bind overlayEnd)
  | this, v =>
    -- the only item of a simple value has a wild key, so nothing is edited
    overlayWith this v
      ((v.items.foldlM (fun s p => overlayPair flags s p.1 p.2 fun _ => none)
        ⟨this, false, false⟩).bind overlayEnd)

/-- The loop of `Overlay`. -/
def overlayItems (flags : Flags) : OverlayState → List Pair → Option OverlayState
  | s, [] => some s
  | s, (key, value) :: rest => do
    let s ← overlayPair flags s key value fun cur => overlay flags cur value
    overlayItems flags s rest

end

mutual

/-- A copy shares its tables with the original, so a table of the copy is cloned before it
is changed and then has the capacity of a clone. -/
def copy : SValue → SValue
  | map ⟨_, dataSize, maps⟩ => map ⟨BValueMap.capacity maps.length, dataSize, copyMaps maps⟩
  | v => v

/-- The pairs of a clone. -/
def copyMaps : List Pair → List Pair
  | [] => []
  | (k, v) :: rest => (copy k, copy v) :: copyMaps rest

end

def overlayCopy (flags : Flags) (this from' : SValue) : Option SValue :=
  overlay flags this.copy from'

/-! ## Clearing the set items -/

/-- The items of a table that are not set items. -/
def keyedItems (l : List Pair) : List Pair := l.filter fun p => !p.1.isWild

@[simp] theorem hasSets_nil : hasSets [] = false := rfl

@[simp] theorem hasSets_cons (p : Pair) (l : List Pair) :
    hasSets (p :: l) = (p.1.isWild || hasSets l) := rfl

@[simp] theorem keyedItems_nil : keyedItems [] = [] := rfl

theorem keyedItems_key {p : Pair} (h : p.1.isWild = false) (l : List Pair) :
    keyedItems (p :: l) = p :: keyedItems l := by simp [keyedItems, h]

theorem keyedItems_wild {p : Pair} (h : p.1.isWild = true) (l : List Pair) :
    keyedItems (p :: l) = keyedItems l := by simp [keyedItems, h]

theorem keyedItems_of_not_hasSets {l : List Pair} (h : hasSets l = false) : keyedItems l = l := by
  unfold keyedItems
  rw [filter_eq_self]
  intro q hq
  simpa using any_eq_false.1 h q hq

theorem mem_keyedItems {l : List Pair} {p : Pair} :
    p ∈ keyedItems l ↔ p ∈ l ∧ p.1.isWild = false := by
  simp [keyedItems]

/-- The capacity of a block of `size` pairs after its first `n` pairs were removed one
by one. -/
def frontAvail : ℕ → ℕ → ℕ → ℕ
  | avail, _, 0 => avail
  | avail, size, n + 1 =>
    frontAvail (if (size - 1) * 4 < avail ∧ 0 < size - 1 then BValueMap.capacity ((size - 1) * 2)
      else avail) (size - 1) n

/-- Whether the set items of a table can be removed: if one of them stands after a
keyed item, what is left at the end must fill a quarter of the block. -/
def setsClear (m : BValueMap SValue) : Bool :=
  let front := m.maps.takeWhile fun p => p.1.isWild
  let back := m.maps.dropWhile fun p => p.1.isWild
  !hasSets back ||
    decide (frontAvail m.avail m.countMaps front.length ≤ (keyedItems back).length * 4)

/-- Behind a keyed item no removal is at index 0, so none may compact the block. -/
theorem clearSets_back : ∀ (post pre : List Pair) (m : BValueMap SValue), pre ≠ [] →
    m.maps = pre ++ post →
    (clearSets post.length pre.length m).map (fun m' => m'.maps) =
      if hasSets post = true ∧ (pre.length + (keyedItems post).length) * 4 < m.avail then none
      else some (pre ++ keyedItems post) := by
  intro post
  induction post with
  | nil => intro pre m _ h; simp [clearSets, h]
  | cons p post ih =>
    intro pre m hpre h
    have hget : m.maps[pre.length]? = some p := by rw [h]; simp
    have hpos : 0 < pre.length := length_pos_of_ne_nil hpre
    simp only [length_cons, clearSets, hget]
    cases hp : p.1.isWild with
    | false =>
      have := ih (pre ++ [p]) m (by simp) (by simp [h])
      simp only [length_append, length_singleton] at this
      simp only [Bool.false_eq_true, if_false, this, hasSets_cons, hp, Bool.false_or,
        keyedItems_key hp, length_cons]
      rw [show pre.length + 1 + (keyedItems post).length =
        pre.length + ((keyedItems post).length + 1) by omega]
      simp
    | true =>
      have hsize : m.countMaps - 1 = pre.length + post.length := by
        unfold BValueMap.countMaps; rw [h]; simp
      have hle : (keyedItems post).length ≤ post.length := length_filter_le _ _
      simp only [if_true, hasSets_cons, hp, Bool.true_or, true_and, keyedItems_wild hp]
      unfold BValueMap.removeMapAt
      simp only [hsize]
      by_cases hc : (pre.length + post.length) * 4 < m.avail
      · rw [if_pos ⟨hc, by omega⟩, if_pos hpos, if_pos (by omega)]
        rfl
      · rw [if_neg (by omega)]
        have herase : m.maps.eraseIdx pre.length = pre ++ post := by
          rw [h, eraseIdx_append_of_length_le (le_refl _)]; simp
        simp only [Option.bind_some]
        rw [ih pre ⟨m.avail, none, m.maps.eraseIdx pre.length⟩ hpre herase]
        cases hany : hasSets post with
        | true => simp only [true_and]
        | false =>
          rw [keyedItems_of_not_hasSets hany, if_neg (by simp), if_neg (by omega)]

/-- **`make_map_without_sets` leaves the keyed items**, or compacts the block wrongly. -/
theorem clearSets_spec : ∀ (l : List Pair) (m : BValueMap SValue), m.maps = l →
    (clearSets l.length 0 m).map (fun m' => m'.maps) =
      if setsClear m then some (keyedItems l) else none := by
  intro l
  induction l with
  | nil => intro m h; simp [clearSets, setsClear, h]
  | cons p l ih =>
    intro m h
    have hget : m.maps[0]? = some p := by rw [h]; rfl
    cases hp : p.1.isWild with
    | false =>
      have hback := clearSets_back l [p] m (by simp) (by simp [h])
      simp only [length_cons, clearSets, hget, hp, Bool.false_eq_true, if_false, Nat.zero_add]
      rw [length_singleton] at hback
      rw [hback]
      simp only [setsClear, h, takeWhile_cons, hp, Bool.false_eq_true, if_false,
        dropWhile_cons, hasSets_cons, Bool.false_or, keyedItems_key hp,
        length_nil, frontAvail, length_cons, Bool.or_eq_true, Bool.not_eq_true',
        decide_eq_true_eq, cons_append, nil_append]
      cases hasSets l with
      | true =>
        by_cases hc : (1 + (keyedItems l).length) * 4 < m.avail
        · rw [if_pos ⟨rfl, hc⟩, if_neg (by simp; omega)]
        · rw [if_neg (by simp [hc]), if_pos (.inr (by omega))]
      | false => rw [if_neg (by simp), if_pos (.inl rfl)]
    | true =>
      have hsize : m.countMaps - 1 = l.length := by unfold BValueMap.countMaps; rw [h]; simp
      have hcount : m.countMaps = l.length + 1 := by unfold BValueMap.countMaps; rw [h]; simp
      simp only [length_cons, clearSets, hget, hp, if_true]
      unfold BValueMap.removeMapAt
      simp only [hsize, Nat.lt_irrefl, if_false, h, eraseIdx_cons_zero]
      rw [keyedItems_wild hp]
      -- either way the rest of the table is left, in a block that may be smaller
      have hstep : ∀ avail, avail = (if l.length * 4 < m.avail ∧ 0 < l.length then
            BValueMap.capacity (l.length * 2) else m.avail) →
          setsClear ⟨avail, none, l⟩ = setsClear m := by
        intro avail havail
        simp only [setsClear, h, takeWhile_cons, hp, if_true, dropWhile_cons,
          length_cons, hcount]
        simp only [frontAvail, Nat.add_sub_cancel]
        rw [← havail]
        rfl
      split
      · rename_i hc
        simp only [Option.bind_some]
        rw [ih ⟨_, none, l⟩ rfl, hstep _ (by rw [if_pos hc])]
      · rename_i hc
        simp only [Option.bind_some]
        rw [ih ⟨_, none, l⟩ rfl, hstep _ (by rw [if_neg hc])]

end OpenBinder.SValue
