import OpenBinder.Catalog.Walk

/-!
# Iterators by index

An `IndexedIterator` goes through the positions of an iterable. As long as nothing changes
there a position is an index; after the first change it keeps the index of each position in
a vector.

* `next`: `Next`, a block of items.
* `next_spec`: on an iterable that does not change, a block is the items from the position
  of the iterator on, and the call fails exactly at the end.
-/

namespace OpenBinder.Catalog

/-- `BIndexedIterable::IndexedIterator`: `m_count`, `m_order` and `m_position`. In the order
`none` is `B_ENTRY_NOT_FOUND`. -/
structure IndexedIterator where
  count : ℕ
  order : List (Option ℕ)
  position : ℕ

namespace IndexedIterator

/-- `BINDER_IPC_LIMIT`. -/
def ipcLimit : ℕ := 5

/-- A new iterator over `count` items, without sort order. -/
def start (count : ℕ) : IndexedIterator := ⟨count, [], 0⟩

/-- The index of the position. -/
def index (it : IndexedIterator) : Option ℕ :=
  if it.order.isEmpty then some it.position else (it.order[it.position]?).join

/-- `MoveIndexLocked`: the index of the position, which is moved; `none` at the end. -/
def moveIndex (it : IndexedIterator) : Option (Option ℕ) × IndexedIterator :=
  if it.position < it.count then (some it.index, { it with position := it.position + 1 })
  else (none, it)

variable {α : Type}

/-- `NextLocked`, with `EntryAtLocked` as `entryAt`: `none` is `B_END_OF_DATA`, and an item
that was removed meanwhile is the pair of null values. -/
def nextLocked (entryAt : ℕ → Option α) (null : α) (it : IndexedIterator) :
    Option α × IndexedIterator :=
  match it.moveIndex with
  | (none, it) => (none, it)
  | (some none, it) => (some null, it)
  | (some (some index), it) => (entryAt index, it)

/-- The loop of `Next`, with so many items left to the limit. -/
def nextLoop (entryAt : ℕ → Option α) (null : α) : ℕ → IndexedIterator → List α × IndexedIterator
  | 0, it => ([], it)
  | n + 1, it =>
    match nextLocked entryAt null it with
    | (none, it) => ([], it)
    | (some item, it) =>
      let rest := nextLoop entryAt null n it
      (item :: rest.1, rest.2)

/-- How many items a block may have. -/
def limit (count : ℕ) : ℕ := if count < ipcLimit ∧ count ≠ 0 then count else ipcLimit

/-- `GenericIterator::Next`: a block of items. `B_END_OF_DATA` is not given out with items. -/
def next (entryAt : ℕ → Option α) (null : α) (count : ℕ) (it : IndexedIterator) :
    Status × List α × IndexedIterator :=
  let block := nextLoop entryAt null (limit count) it
  (if block.1.isEmpty then some .endOfData else none, block)

theorem limit_pos (count : ℕ) : 0 < limit count := by
  unfold limit ipcLimit
  split <;> omega

theorem nextLocked_position (entryAt : ℕ → Option α) (null : α) (it : IndexedIterator) :
    (nextLocked entryAt null it).2.count = it.count ∧
      it.position ≤ (nextLocked entryAt null it).2.position ∧
        ((nextLocked entryAt null it).1 ≠ none →
          it.position < it.count ∧ it.position < (nextLocked entryAt null it).2.position) := by
  by_cases hlt : it.position < it.count
  · cases hi : it.index with
    | none => simp [nextLocked, moveIndex, hlt, hi]
    | some i => simp [nextLocked, moveIndex, hlt, hi]
  · simp [nextLocked, moveIndex, hlt]

theorem nextLoop_position (entryAt : ℕ → Option α) (null : α) (n : ℕ) : ∀ it : IndexedIterator,
    (nextLoop entryAt null n it).2.count = it.count ∧
      it.position ≤ (nextLoop entryAt null n it).2.position ∧
        ((nextLoop entryAt null n it).1 ≠ [] →
          it.position < it.count ∧ it.position < (nextLoop entryAt null n it).2.position) := by
  induction n with
  | zero => intro it; exact ⟨rfl, le_rfl, fun h => absurd rfl h⟩
  | succ n ih =>
    intro it
    obtain ⟨h1, h2, h3⟩ := nextLocked_position entryAt null it
    rw [nextLoop]
    cases hn : nextLocked entryAt null it with
    | mk item it' =>
      rw [hn] at h1 h2 h3
      cases item with
      | none => exact ⟨h1, h2, fun h => absurd rfl h⟩
      | some item =>
        obtain ⟨g1, g2, -⟩ := ih it'
        obtain ⟨h3, h4⟩ := h3 (Option.some_ne_none _)
        exact ⟨g1.trans h1, h2.trans g2, fun _ => ⟨h3, lt_of_lt_of_le h4 g2⟩⟩

theorem next_position {entryAt : ℕ → Option α} {null : α} {count : ℕ} {it : IndexedIterator}
    (h : (next entryAt null count it).1 = none) :
    (next entryAt null count it).2.2.count = it.count ∧ it.position < it.count ∧
      it.position < (next entryAt null count it).2.2.position := by
  obtain ⟨h1, -, h3⟩ := nextLoop_position entryAt null (limit count) it
  have hne : (nextLoop entryAt null (limit count) it).1 ≠ [] := by
    intro hnil
    rw [next, hnil] at h
    cases h
  obtain ⟨h4, h5⟩ := h3 hne
  exact ⟨h1, h4, h5⟩

theorem nextLoop_fresh {l : List α} (null : α) (n : ℕ) : ∀ it : IndexedIterator,
    it.order = [] → it.count = l.length → it.position ≤ l.length →
      nextLoop (l[·]?) null n it =
        ((l.drop it.position).take n, { it with position := min (it.position + n) l.length }) := by
  induction n with
  | zero =>
    intro it _ _ hpos
    have hmin : min (it.position + 0) l.length = it.position := by omega
    rw [nextLoop, List.take_zero, hmin]
  | succ n ih =>
    intro it hord hcount hpos
    rw [nextLoop]
    by_cases hlt : it.position < it.count
    · have hget : l[it.position]? = some (l.get ⟨it.position, by omega⟩) :=
        List.getElem?_eq_getElem _
      have hdrop : l.drop it.position =
          l.get ⟨it.position, by omega⟩ :: l.drop (it.position + 1) :=
        List.drop_eq_getElem_cons (by omega)
      have hadd : it.position + 1 + n = it.position + (n + 1) := by omega
      simp only [nextLocked, moveIndex, index, hlt, if_true, hord, List.isEmpty_nil, hget]
      rw [ih ⟨it.count, [], it.position + 1⟩ rfl hcount (by dsimp only; omega), hdrop,
        List.take_succ_cons]
      rw [hadd]
    · have hdrop : l.drop it.position = [] := List.drop_eq_nil_of_le (by omega)
      have hmin : min (it.position + (n + 1)) l.length = it.position := by omega
      simp only [nextLocked, moveIndex, hlt, if_false, hdrop, List.take_nil, hmin]

/-- **A block of an iterable that does not change** is the items from the position on; the
call fails exactly at the end. -/
theorem next_spec {l : List α} (null : α) (count : ℕ) {it : IndexedIterator}
    (hord : it.order = []) (hcount : it.count = l.length) (hpos : it.position ≤ l.length) :
    next (l[·]?) null count it =
      (if l.drop it.position = [] then some .endOfData else none,
        (l.drop it.position).take (limit count),
        { it with position := min (it.position + limit count) l.length }) := by
  have hpos' := limit_pos count
  rw [next, nextLoop_fresh null (limit count) it hord hcount hpos]
  have hempty : ((l.drop it.position).take (limit count)).isEmpty =
      decide (l.drop it.position = []) := by
    cases l.drop it.position with
    | nil => simp
    | cons a as =>
      obtain ⟨n, hn⟩ : ∃ n, limit count = n + 1 := ⟨limit count - 1, by omega⟩
      simp [hn]
  simp only [hempty, decide_eq_true_eq]

end IndexedIterator

end OpenBinder.Catalog
