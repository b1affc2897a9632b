import OpenBinder.Value.Laws

/-!
# Values joined in any order

`Join` is a semilattice operation, so what a number of values are joined to depends on which values
there are, and not on their order or on how often one of them comes.
-/

namespace OpenBinder.NormalValue

open List SValue

variable {vs ws : List NormalValue}

/-- Values joined to one, one after the other. -/
def joinAll (vs : List NormalValue) : Option SValue :=
  (vs.map val).foldlM (SValue.join Flags.none) SValue.undefined

theorem foldlM_join (vs : List NormalValue) : ∀ a : NormalValue, ∃ b : NormalValue,
    (vs.map val).foldlM (SValue.join Flags.none) a.val = some b.val ∧
      b.val.den = a.val.den ∪ ⋃ v ∈ vs, v.val.den := by
  induction vs with
  | nil =>
    intro a
    exact ⟨a, rfl, by simp⟩
  | cons v vs ih =>
    intro a
    obtain ⟨b, hb, hden⟩ := ih (a.join v)
    refine ⟨b, ?_, ?_⟩
    · rw [map_cons, foldlM_cons, join_val]
      exact hb
    · rw [hden, den_join, Set.union_assoc]
      simp only [mem_cons, Set.iUnion_iUnion_eq_or_left]

theorem iUnion_den_subset (h : ∀ v ∈ vs, ∃ w ∈ ws, v.Same w) :
    ⋃ v ∈ vs, v.val.den ⊆ ⋃ w ∈ ws, w.val.den := by
  refine Set.iUnion₂_subset fun v hv => ?_
  obtain ⟨w, hw, hsame⟩ := h v hv
  rw [den_of_code _ _ (compare_eq_iff.1 hsame)]
  exact Set.subset_biUnion_of_mem (u := fun w : NormalValue => w.val.den) hw

/-- **Those who join the same values agree**, in whatever order the values come to them, and however
often. -/
theorem joinAll_agree (h : ∀ v ∈ vs, ∃ w ∈ ws, v.Same w) (h' : ∀ w ∈ ws, ∃ v ∈ vs, w.Same v) :
    ∃ a b, joinAll vs = some a ∧ joinAll ws = some b ∧ a.compare b = .eq := by
  obtain ⟨a, ha, hden⟩ := foldlM_join vs undefined
  obtain ⟨b, hb, hden'⟩ := foldlM_join ws undefined
  refine ⟨a.val, b.val, ha, hb, same_of_den ?_⟩
  rw [hden, hden', Set.Subset.antisymm (iUnion_den_subset h) (iUnion_den_subset h')]

/-- Two values, one of them twice and the other way round. -/
theorem joinAll_agree_twice : ∃ a b, joinAll [wild, undefined] = some a ∧
    joinAll [undefined, wild, undefined] = some b ∧ a.compare b = .eq := by
  have hsame : ∀ v : NormalValue, v.Same v := fun v => compare_self v.val
  refine joinAll_agree (fun v hv => ⟨v, ?_, hsame v⟩) fun w hw => ⟨w, ?_, hsame w⟩
  · exact mem_cons_of_mem _ (mem_cons.2 (by simpa [or_comm] using hv))
  · simp only [mem_cons, not_mem_nil, or_false] at hw ⊢
    tauto

end OpenBinder.NormalValue
