import OpenBinder.Vector.Vector

/-!
# A vector is a list

* `Shape`: storage with cells at `m_base` and nothing else that is not raw.
* `grow_spec`, `shrink_spec`: a gap of raw cells is opened, or closed, or nothing happens where
  there is no memory; with the new storage local, in the same block or in another one.
* `Holds.add`, `Holds.addArrayAt` and so on: what each call leaves of a vector that holds a list.
* `refines_of_observes`: in every run of calls that do not go wrong the vector is the list.
-/

namespace OpenBinder.SAbstractVector

open Lib Function List Nat Store

variable {α : Type} {v v' : SAbstractVector α} {l : List α} {env : Env}

/-- Storage with cells at `m_base`, and nothing else that is not raw. -/
structure Shape (v : SAbstractVector α) (cells : Cells α) : Prop where
  pos : 0 < v.elementSize
  stored : v.mem = layout v.localSpace v.base cells
  length : cells.length = v.avail
  bytes : v.avail * v.elementSize < 2 ^ 32
  base : (v.base = .localSpace ∧ v.avail = v.localSpace) ∨
    ∃ b, v.base = .block b ∧ v.heap = some b ∧ v.localSpace < v.avail

/-- **A vector holds a list.** -/
structure Holds (v : SAbstractVector α) (l : List α) : Prop where
  size : v.size = l.length
  le_avail : v.size ≤ v.avail
  shape : v.Shape (filled l ++ raw (v.avail - v.size))

/-! ### Sizes -/

theorem wrap_of_lt {n : ℕ} (h : n < 2 ^ 32) : wrap n = n := mod_eq_of_lt h

theorem roundUp_mul_lt (v : SAbstractVector α) (n : ℕ) :
    v.roundUp n * v.elementSize < 2 ^ 32 := by
  have h1 : v.roundUp n * v.elementSize ≤ wrap (n * v.elementSize + 7) / 8 * 8 :=
    div_mul_le_self _ _
  have h2 : wrap (n * v.elementSize + 7) < 2 ^ 32 := mod_lt _ (by decide)
  omega

theorem blockSize_roundUp (hes : 0 < v.elementSize) (n : ℕ) :
    v.blockSize (v.roundUp n) = v.roundUp n := by
  unfold blockSize
  rw [wrap_of_lt (roundUp_mul_lt v n), Nat.mul_div_cancel _ hes]

theorem le_roundUp (hes : 0 < v.elementSize) {n : ℕ} (h : n * v.elementSize + 7 < 2 ^ 32) :
    n ≤ v.roundUp n := by
  unfold roundUp
  rw [wrap_of_lt h, le_div_iff_mul_le hes]
  omega

variable {cells : Cells α} {amount total : ℕ} {item : Option (Ptr α)} {items : Items α}
  {s : State α}

theorem Shape.avail_lt (h : v.Shape cells) : v.avail < 2 ^ 32 :=
  Nat.lt_of_le_of_lt (Nat.le_mul_of_pos_right _ h.pos) h.bytes

theorem Holds.size_lt (h : v.Holds l) : v.size < 2 ^ 32 :=
  Nat.lt_of_le_of_lt h.le_avail h.shape.avail_lt

/-! ### Storage -/

section Layout

variable {ls : ℕ} {base p : Place} {cells cells' : Cells α} {b : ℕ}

@[simp] theorem layout_base : layout ls base cells base = some cells := by
  simp [layout]

@[simp] theorem layout_put : (layout ls base cells).put base cells' = layout ls base cells' := by
  funext p
  unfold Store.put layout
  by_cases h : p = base
  · subst h
    simp
  · rw [update_of_ne h, if_neg h, if_neg h]

theorem layout_local (h : base ≠ .localSpace) :
    layout ls base cells .localSpace = some (raw ls) := by
  unfold layout
  rw [if_neg h.symm, if_pos rfl]

theorem layout_eq_none :
    layout ls base cells p = none ↔ p ≠ base ∧ p ≠ .localSpace := by
  unfold layout
  by_cases h : p = base
  · simp [h]
  · rw [if_neg h]
    by_cases h' : p = .localSpace <;> simp [h, h']

theorem layout_to_block :
    (layout ls .localSpace (raw ls) : Store Place α).put (.block b) cells =
      layout ls (.block b) cells := by
  funext p
  unfold Store.put layout
  by_cases h : p = .block b
  · subst h
    simp
  · rw [update_of_ne h, if_neg h]
    split <;> rfl

theorem layout_to_other {b' : ℕ} (hb : b ≠ b') :
    update ((layout ls (.block b') cells').put (.block b) cells) (.block b') none =
      layout ls (.block b) cells := by
  funext p
  unfold Store.put layout
  by_cases h : p = .block b'
  · subst h
    have hne : Place.block b' ≠ .block b := by
      intro he
      exact hb (Place.block.inj he).symm
    rw [update_self, if_neg hne, if_neg (by simp)]
  · rw [update_of_ne h]
    by_cases h' : p = .block b
    · subst h'
      simp
    · rw [update_of_ne h', if_neg h, if_neg h']

/-- A block has been freed after its elements have gone to the local storage. -/
theorem layout_to_local :
    update ((layout ls (.block b) cells').put .localSpace cells) (.block b) none =
      layout ls .localSpace cells := by
  funext p
  unfold Store.put layout
  by_cases h : p = .block b
  · subst h
    rw [update_self, if_neg (by simp), if_neg (by simp)]
  · rw [update_of_ne h]
    by_cases h' : p = .localSpace
    · subst h'
      simp
    · rw [update_of_ne h', if_neg h, if_neg h', if_neg h']

end Layout

theorem filled_take_drop (l : List α) (n : ℕ) :
    (filled l : Cells α) = filled (l.take n) ++ filled (l.drop n) := by
  rw [← filled_append, take_append_drop]

theorem Shape.fresh {cells' : Cells α} (h : v.Shape cells)
    (hfresh : ∀ b ∈ env.fresh, v.mem (.block b) = none) :
    ∀ b ∈ env.fresh, layout v.localSpace v.base cells' (.block b) = none := by
  intro b hb
  have hnone := hfresh b hb
  rw [h.stored, layout_eq_none] at hnone
  exact layout_eq_none.2 hnone

/-! ### Growing -/

/-- A gap of raw cells at a position, and room behind the elements. -/
def gap (l : List α) (amount pos room : ℕ) : Cells α :=
  filled (l.take pos) ++ (raw amount ++ (filled (l.drop pos) ++ raw room))

theorem gap_end {pos room : ℕ} (h : l.length ≤ pos) :
    gap l amount pos room = filled l ++ raw (amount + room) := by
  unfold gap
  rw [take_of_length_le h, drop_of_length_le h, raw_add]
  rfl

theorem gap_length (l : List α) (amount pos room : ℕ) :
    (gap l amount pos room).length = l.length + amount + room := by
  have h := congrArg List.length (take_append_drop pos l)
  rw [length_append] at h
  unfold gap
  simp only [length_append, filled_length, raw_length]
  omega

theorem growGap_spec {pos room : ℕ} (h : v.Shape (filled l ++ raw (amount + room)))
    (hsize : v.size = l.length) (hpos : pos < v.size → 0 < amount)
    (hroom : v.size + amount < 2 ^ 32) :
    ∃ v', v.growGap amount pos = some (v', true) ∧ v'.size = v.size ∧ v'.avail = v.avail ∧
      v'.base = v.base ∧ v'.elementSize = v.elementSize ∧ v'.Shape (gap l amount pos room) := by
  unfold growGap
  by_cases hlt : pos < v.size
  · rw [if_pos hlt]
    have hm : v.mem v.base = some (filled (l.take pos) ++ (filled (l.drop pos) ++
        (raw amount ++ raw room))) := by
      rw [h.stored, layout_base, filled_take_drop l pos, raw_add, append_assoc]
    have hlen : (filled (l.take pos)).length = pos := by
      rw [filled_length, length_take]
      omega
    rw [wrap_of_lt (by omega : pos + amount < 2 ^ 32), moveAfter_same (hpos hlt) hm
      (by rw [hlen]) hlen.symm (by rw [length_drop, hsize])]
    refine ⟨_, rfl, rfl, rfl, rfl, rfl, ⟨h.pos, ?_, ?_, h.bytes, h.base⟩⟩
    · dsimp only
      rw [h.stored, layout_put]
      rfl
    · rw [gap_length, ← h.length]
      simp
      omega
  · rw [if_neg hlt]
    refine ⟨v, rfl, rfl, rfl, rfl, rfl, ?_⟩
    rw [gap_end (by omega)]
    exact h

theorem moveOut_spec {amount pos room b : ℕ} (h : v.Shape (filled l ++ raw (v.avail - v.size)))
    (hsize : v.size = l.length) (hle : v.size ≤ v.avail) (hb : v.base ≠ .block b)
    (hroom : v.size + amount < 2 ^ 32) :
    v.moveOut b amount pos (v.mem.put (.block b) (raw (v.size + amount + room))) =
      some ((layout v.localSpace v.base (raw v.avail)).put (.block b) (gap l amount pos room)) := by
  have hbase : v.mem v.base = some (filled l ++ raw (v.avail - v.size)) := by
    rw [h.stored, layout_base]
  have hraw : (raw v.size : Cells α) ++ raw (v.avail - v.size) = raw v.avail := by
    rw [← raw_add]
    congr 1
    omega
  unfold moveOut
  by_cases h0 : v.size = 0
  · rw [if_pos h0]
    obtain rfl : l = [] := length_eq_zero_iff.1 (by omega)
    rw [h.stored, gap_end (Nat.zero_le pos), h0, Nat.zero_add, Nat.sub_zero]
    rfl
  rw [if_neg h0]
  have hnew := put_self (m := v.mem) (p := Place.block b) (raw (v.size + amount + room))
  have hold : v.mem.put (.block b) (raw (v.size + amount + room)) v.base =
      some (filled l ++ raw (v.avail - v.size)) := by
    rw [put_ne _ hb, hbase]
  by_cases hpos : v.size ≤ pos
  · have hp : v.mem.put (.block b) (raw (v.size + amount + room)) (.block b) =
        some ([] ++ (raw l.length ++ raw (amount + room))) := by
      rw [hnew, nil_append, ← raw_add, hsize, add_assoc]
    rw [if_pos hpos, moveBefore_other (c := []) (i := 0) (j := 0) hb.symm hp hold rfl rfl hsize,
      put_put, put_comm _ _ hb.symm, h.stored, layout_put, gap_end (by omega),
      nil_append, nil_append, ← hsize, hraw]
  · have htake : (l.take pos).length = pos := by
      rw [length_take]
      omega
    have hdrop : (l.drop pos).length = v.size - pos := by
      rw [length_drop, hsize]
    have hp : v.mem.put (.block b) (raw (v.size + amount + room)) (.block b) =
        some ([] ++ (raw (l.take pos).length ++ (raw amount ++ (raw (l.drop pos).length ++
          raw room)))) := by
      rw [hnew, nil_append, ← raw_add, ← raw_add, ← raw_add, htake, hdrop]
      congr 2
      omega
    have hq : v.mem.put (.block b) (raw (v.size + amount + room)) v.base =
        some ([] ++ (filled (l.take pos) ++ (filled (l.drop pos) ++ raw (v.avail - v.size)))) := by
      rw [hold, filled_take_drop l pos, append_assoc, nil_append]
    rw [if_neg hpos, moveBefore_other (i := 0) (j := 0) hb.symm hp hq rfl rfl htake.symm]
    dsimp only [Option.bind]
    rw [nil_append, nil_append, put_put, wrap_of_lt (by omega : pos + amount < 2 ^ 32)]
    have hp' : ((v.mem.put (.block b) (filled (l.take pos) ++ (raw amount ++
        (raw (l.drop pos).length ++ raw room)))).put v.base (raw (l.take pos).length ++
          (filled (l.drop pos) ++ raw (v.avail - v.size)))) (.block b) =
        some ((filled (l.take pos) ++ raw amount) ++ (raw (l.drop pos).length ++ raw room)) := by
      rw [put_ne _ hb.symm, put_self, append_assoc]
    rw [moveBefore_other hb.symm hp' (put_self _) (by simp [htake]) (by simp [htake])
      hdrop.symm, put_comm _ _ hb, put_put, put_put,
      put_comm _ _ hb.symm, h.stored, layout_put, append_assoc]
    have hsplit : (raw (l.take pos).length : Cells α) ++
        (raw (l.drop pos).length ++ raw (v.avail - v.size)) = raw v.avail := by
      rw [← append_assoc, ← raw_add, ← length_append, take_append_drop, ← hsize, hraw]
    rw [hsplit]
    rfl

/-- What `grow` has done: there is a gap, or more room. -/
structure Grown (v v' : SAbstractVector α) (l : List α) (amount pos : ℕ) : Prop where
  size : v'.size = v.size
  elementSize : v'.elementSize = v.elementSize
  le_avail : v.size + amount ≤ v'.avail
  shape : v'.Shape (gap l amount pos (v'.avail - (v.size + amount)))

theorem le_canUse {factor : ℕ} (hes : 0 < v.elementSize) (hfactor : 2 ≤ factor)
    (h1 : (total + 1) * factor < 2 ^ 32)
    (h2 : (total + 1) * factor / 2 * v.elementSize + 7 < 2 ^ 32) :
    total < v.roundUp (wrap (wrap (total + 1) * factor) / 2) := by
  have h3 : (total + 1) * 2 ≤ (total + 1) * factor := mul_le_mul_left _ hfactor
  rw [wrap_of_lt (by omega : total + 1 < 2 ^ 32), wrap_of_lt h1]
  have h4 := le_roundUp hes h2
  omega

theorem setHeap_spec {b avail : ℕ} :
    v.setHeap b avail (layout v.localSpace (.block b) cells) =
      some { v with
        heap := some b
        avail := avail
        base := .block b
        mem := layout v.localSpace (.block b) cells } := by
  unfold setHeap
  rw [layout_local (by simp)]
  dsimp only
  rw [if_pos (all_isNone_raw _)]

theorem grow_block {amount pos c b : ℕ} (h : v.Holds l) (hroom : v.size + amount < 2 ^ 32)
    (hc : v.size + amount ≤ c) (hbytes : c * v.elementSize < 2 ^ 32) (hneed : v.avail < c)
    (hb : v.mem (.block b) = none) :
    ∃ v', ((v.moveOut b amount pos (v.mem.put (.block b) (raw c))).bind fun mem =>
        (if v.localSpace < v.avail then v.freeHeap mem else some mem).bind fun mem =>
          (v.setHeap b c mem).map fun v' => (v', true)) = some (v', true) ∧
      Grown v v' l amount pos := by
  obtain ⟨hsize, hle, hshape⟩ := h
  have hlocal : v.localSpace ≤ v.avail := by
    rcases hshape.base with ⟨-, h⟩ | ⟨b, -, -, h⟩ <;> omega
  have hne : v.base ≠ .block b := by
    intro he
    rw [hshape.stored, he, layout_base] at hb
    exact absurd hb (by simp)
  have hsplit : c = v.size + amount + (c - (v.size + amount)) := by omega
  have hout := @moveOut_spec α v l amount pos (c - (v.size + amount)) b hshape hsize hle hne hroom
  rw [← hsplit] at hout
  rw [hout]
  dsimp only [Option.bind]
  have hmem : (if v.localSpace < v.avail then v.freeHeap ((layout v.localSpace v.base
      (raw v.avail)).put (.block b) (gap l amount pos (c - (v.size + amount)))) else
      some ((layout v.localSpace v.base (raw v.avail)).put (.block b)
        (gap l amount pos (c - (v.size + amount))))) =
      some (layout v.localSpace (.block b) (gap l amount pos (c - (v.size + amount)))) := by
    rcases hshape.base with ⟨hbase, havail⟩ | ⟨b', hbase, hheap, havail⟩
    · rw [if_neg (by omega), hbase, havail, layout_to_block]
    · rw [if_pos havail]
      unfold freeHeap
      rw [hheap]
      dsimp only
      have hbb : b ≠ b' := by
        rintro rfl
        exact hne hbase
      rw [hbase, free_eq (n := v.avail), layout_to_other hbb]
      rw [put_ne, layout_base]
      intro he
      exact hbb (Place.block.inj he).symm
  rw [hmem]
  dsimp only
  rw [setHeap_spec]
  refine ⟨_, rfl, rfl, rfl, hc, hshape.pos, rfl, ?_, hbytes, .inr ⟨b, rfl, rfl, ?_⟩⟩
  · rw [gap_length]
    dsimp only
    omega
  · show v.localSpace < c
    omega

theorem grow_inplace {pos c : ℕ} (h : v.Holds l) (hroom : v.size + amount < 2 ^ 32)
    (hc : v.size + amount ≤ c) (hbytes : c * v.elementSize < 2 ^ 32) (hneed : v.avail < c)
    (hheap : v.localSpace < v.avail) (hpos : pos < v.size → 0 < amount) :
    ∃ v', ((v.mem.resize v.base c).bind fun mem =>
        growGap { v with mem := mem, avail := c } amount pos) = some (v', true) ∧
      Grown v v' l amount pos ∧ v'.base = v.base := by
  obtain ⟨hsize, hle, hshape⟩ := h
  have hbase : v.mem v.base = some (filled l ++ raw (v.avail - v.size)) := by
    rw [hshape.stored, layout_base]
  have hresize := resize_grow (n := c) hbase (by rw [hshape.length]; omega)
  rw [hresize]
  have hcells : filled l ++ raw (v.avail - v.size) ++
      raw (c - (filled l ++ (raw (v.avail - v.size) : Cells α)).length) =
      filled l ++ raw (amount + (c - (v.size + amount))) := by
    rw [hshape.length, append_assoc, ← raw_add]
    congr 2
    omega
  rw [hcells]
  have hshape' : Shape { v with
      mem := v.mem.put v.base (filled l ++ raw (amount + (c - (v.size + amount))))
      avail := c } (filled l ++ raw (amount + (c - (v.size + amount)))) := by
    refine ⟨hshape.pos, ?_, ?_, hbytes, ?_⟩
    · dsimp only
      rw [hshape.stored, layout_put]
      rfl
    · dsimp only
      rw [length_append, filled_length, raw_length]
      omega
    · rcases hshape.base with ⟨-, havail⟩ | ⟨b, hb, hh, -⟩
      · omega
      · refine .inr ⟨b, hb, hh, ?_⟩
        show v.localSpace < c
        omega
  obtain ⟨v', hv', h1, h2, h3, h4, h5⟩ := growGap_spec hshape' hsize hpos hroom
  refine ⟨v', hv', ⟨h1, h4, ?_, ?_⟩, h3⟩
  · rw [h2]
    exact hc
  · rw [h2]
    exact h5

/-- **`grow` opens a gap**, or fails where it has to allocate and cannot. -/
theorem grow_spec {factor pos : ℕ} (h : v.Holds l) (hfactor : 2 ≤ factor)
    (hcan : v.CanGrow amount factor env) (hpos : pos < v.size → 0 < amount)
    (hfresh : ∀ b ∈ env.fresh, v.mem (.block b) = none) :
    v.Fails amount env ∧ v.grow amount factor pos env = some (v, false) ∨
      ¬ v.Fails amount env ∧ ∃ v', v.grow amount factor pos env = some (v', true) ∧
        Grown v v' l amount pos ∧ (¬ v.NeedsBlock amount env → v'.base = v.base) := by
  obtain ⟨hsize, hle, hshape⟩ := h
  obtain ⟨hroom, hcan⟩ := hcan
  have hlocal : v.localSpace ≤ v.avail := by
    rcases hshape.base with ⟨-, h⟩ | ⟨b, -, -, h⟩ <;> omega
  unfold grow
  dsimp only
  rw [wrap_of_lt hroom]
  by_cases hneed : v.avail < v.size + amount
  · rw [if_pos hneed, if_pos (by omega), blockSize_roundUp hshape.pos]
    have hbytes := roundUp_mul_lt v (wrap (wrap (v.size + amount + 1) * factor) / 2)
    by_cases hin : v.localSpace < v.avail ∧ env.inplace = true
    · have hno : ¬ v.NeedsBlock amount env := fun hn => hn.2 hin
      obtain ⟨h1, h2⟩ := (hcan.resolve_left fun hf => hno hf.1) hneed
      have hc := le_canUse hshape.pos hfactor h1 h2
      rw [if_pos hin]
      right
      obtain ⟨v', hv', hgrown, hbase⟩ :=
        grow_inplace ⟨hsize, hle, hshape⟩ hroom (by omega) hbytes (by omega) hin.1 hpos
      exact ⟨fun hf => hno hf.1, v', hv', hgrown, fun _ => hbase⟩
    · have hneeds : v.NeedsBlock amount env := ⟨hneed, hin⟩
      rw [if_neg hin]
      cases hf : env.fresh with
      | none => exact .inl ⟨⟨hneeds, hf⟩, rfl⟩
      | some b =>
        have hfail : ¬ v.Fails amount env := by
          rintro ⟨-, hnone⟩
          rw [hf] at hnone
          exact absurd hnone (by simp)
        obtain ⟨h1, h2⟩ := (hcan.resolve_left hfail) hneed
        have hc := le_canUse hshape.pos hfactor h1 h2
        right
        obtain ⟨v', hv', hgrown⟩ := @grow_block α v l amount pos _ b ⟨hsize, hle, hshape⟩ hroom
          (by omega) hbytes (by omega) (hfresh b hf)
        exact ⟨hfail, v', hv', hgrown, fun hn => absurd hneeds hn⟩
  · have hno : ¬ v.NeedsBlock amount env := fun hn => hneed hn.1
    rw [if_neg hneed]
    right
    refine ⟨fun hf => hno hf.1, ?_⟩
    have hsplit : v.avail - v.size = amount + (v.avail - (v.size + amount)) := by omega
    rw [hsplit] at hshape
    obtain ⟨v', hv', h1, h2, h3, h4, h5⟩ := growGap_spec hshape hsize hpos hroom
    refine ⟨v', hv', ⟨h1, h4, by omega, ?_⟩, fun _ => h3⟩
    rw [h2]
    exact h5

/-! ### Shrinking -/

theorem shrinkGap_spec {pos room : ℕ} (h : v.Shape (gap l amount pos room)) (hpos : pos ≤ l.length)
    (hamount : 0 < amount) (hroom : l.length + amount < 2 ^ 32) :
    v.shrinkGap amount pos l.length = some { v with
      mem := layout v.localSpace v.base (filled l ++ raw (amount + room)) } := by
  have hend : (filled l : Cells α) ++ raw (amount + room) =
      filled (l.take pos) ++ (filled (l.drop pos) ++ (raw amount ++ raw room)) := by
    rw [filled_take_drop l pos, raw_add, append_assoc]
  unfold shrinkGap
  by_cases hlt : pos < l.length
  · have hm : v.mem v.base = some (filled (l.take pos) ++ (raw amount ++ (filled (l.drop pos) ++
        raw room))) := by
      rw [h.stored, layout_base]
      rfl
    have htake : (filled (l.take pos)).length = pos := by
      rw [filled_length, length_take]
      omega
    rw [if_pos hlt, wrap_of_lt (by omega : pos + amount < 2 ^ 32),
      moveBefore_same hamount hm htake.symm (by rw [htake]) length_drop.symm, h.stored,
      layout_put, ← hend]
    rfl
  · have hgap : gap l amount pos room = filled l ++ raw (amount + room) := gap_end (by omega)
    rw [if_neg hlt, ← hgap, ← h.stored]

/-- **Elements go to the local storage**, without a gap. -/
theorem moveIn_spec {pos room b : ℕ} (h : v.Shape (gap l amount pos room)) (hb : v.base = .block b)
    (hpos : pos ≤ l.length) (hlocal : l.length ≤ v.localSpace) (hroom : l.length + amount < 2 ^ 32)
    :
    v.moveIn amount pos l.length = some ((layout v.localSpace v.base (raw v.avail)).put .localSpace
      (filled l ++ raw (v.localSpace - l.length))) := by
  have hne : Place.localSpace ≠ v.base := by
    rw [hb]
    simp
  have hbase : v.mem v.base = some (gap l amount pos room) := by
    rw [h.stored, layout_base]
  have hto : v.mem .localSpace = some (raw v.localSpace) := by
    rw [h.stored, layout_local hne.symm]
  have havail : v.avail = l.length + amount + room := by
    rw [← h.length, gap_length]
  unfold moveIn
  by_cases h0 : l.length = 0
  · obtain rfl : l = [] := length_eq_zero_iff.1 h0
    rw [if_pos h0, h.stored, gap_end (Nat.zero_le pos), havail, put_eq]
    · rw [length_nil, Nat.zero_add]
      rfl
    · rw [layout_local hne.symm]
      rfl
  have hraw : (raw v.localSpace : Cells α) = raw l.length ++ raw (v.localSpace - l.length) := by
    rw [← raw_add]
    congr 1
    omega
  rw [if_neg h0]
  by_cases hend : l.length ≤ pos
  · have hp : v.mem .localSpace = some ([] ++ (raw l.length ++ raw (v.localSpace - l.length))) := by
      rw [hto, hraw]
      rfl
    have hq : v.mem v.base = some ([] ++ (filled l ++ raw (amount + room))) := by
      rw [hbase, gap_end hend]
      rfl
    rw [if_pos hend, moveBefore_other (i := 0) (j := 0) hne hp hq rfl rfl rfl,
      put_comm _ _ hne, h.stored, layout_put, nil_append, nil_append, ← raw_add,
      havail, add_assoc]
  · have htake : (l.take pos).length = pos := by
      rw [length_take]
      omega
    have hdrop : (l.drop pos).length = l.length - pos := length_drop
    have hp : v.mem .localSpace = some ([] ++ (raw (l.take pos).length ++
        (raw (l.drop pos).length ++ raw (v.localSpace - l.length)))) := by
      rw [hto, ← raw_add, ← raw_add, nil_append, htake, hdrop]
      congr 2
      omega
    have hq : v.mem v.base = some ([] ++ (filled (l.take pos) ++ (raw amount ++
        (filled (l.drop pos) ++ raw room)))) := hbase
    rw [if_neg hend, moveBefore_other (i := 0) (j := 0) hne hp hq rfl rfl htake.symm]
    dsimp only [Option.bind]
    rw [wrap_of_lt (by omega : pos + amount < 2 ^ 32)]
    have hp' : ((v.mem.put .localSpace ([] ++ (filled (l.take pos) ++ (raw (l.drop pos).length ++
        raw (v.localSpace - l.length))))).put v.base ([] ++ (raw (l.take pos).length ++ (raw amount ++
          (filled (l.drop pos) ++ raw room))))) .localSpace =
        some (filled (l.take pos) ++ (raw (l.drop pos).length ++ raw (v.localSpace - l.length))) := by
      rw [put_ne _ hne, put_self, nil_append]
    have hq' : ((v.mem.put .localSpace ([] ++ (filled (l.take pos) ++ (raw (l.drop pos).length ++
        raw (v.localSpace - l.length))))).put v.base ([] ++ (raw (l.take pos).length ++ (raw amount ++
          (filled (l.drop pos) ++ raw room))))) v.base =
        some ((raw (l.take pos).length ++ raw amount) ++ (filled (l.drop pos) ++ raw room)) := by
      rw [put_self, nil_append, append_assoc]
    rw [moveBefore_other hne hp' hq' (by simp [htake]) (by simp [htake]) hdrop.symm,
      put_comm _ _ hne.symm, put_put, put_put, put_comm _ _ hne, h.stored,
      layout_put]
    have hfrom : (raw (l.take pos).length ++ raw amount ++ (raw (l.drop pos).length ++ raw room) :
        Cells α) = raw v.avail := by
      rw [← raw_add, ← raw_add, ← raw_add, htake, hdrop, havail]
      congr 1
      omega
    rw [hfrom, filled_take_drop l pos, append_assoc]

/-- What `shrink` has done: there is no gap. -/
structure Shrunk (v v' : SAbstractVector α) (l : List α) : Prop where
  size : v'.size = v.size
  le_avail : l.length ≤ v'.avail
  shape : v'.Shape (filled l ++ raw (v'.avail - l.length))

section

variable {c : ℕ} (h : v.Shape (filled l ++ raw (v.avail - l.length))) (hle : l.length ≤ v.avail)
  (hlocal : v.localSpace < l.length) (hc : l.length ≤ c)
include h hle hlocal hc

theorem shrink_inplace (hbytes : c * v.elementSize < 2 ^ 32) :
    ∃ v', (v.mem.resize v.base c).map (fun mem => { v with mem := mem, avail := c }) = some v' ∧
      Shrunk v v' l := by
  have hm : v.mem v.base = some (filled l ++ raw (v.avail - l.length)) := by
    rw [h.stored, layout_base]
  have hresize : v.mem.resize v.base c =
      some (layout v.localSpace v.base (filled l ++ raw (c - l.length))) := by
    by_cases hca : c ≤ v.avail
    · rw [resize_shrink hm (by rw [filled_length]; omega) (by rw [filled_length]; omega),
        h.stored, layout_put, filled_length]
    · rw [resize_grow hm (by rw [h.length]; omega), h.length, h.stored, layout_put,
        append_assoc, ← raw_add]
      congr 4
      omega
  rw [hresize]
  refine ⟨_, rfl, rfl, hc, h.pos, rfl, ?_, hbytes, ?_⟩
  · dsimp only
    rw [length_append, filled_length, raw_length]
    omega
  · rcases h.base with ⟨-, havail⟩ | ⟨b, hb, hh, -⟩
    · omega
    · refine .inr ⟨b, hb, hh, ?_⟩
      show v.localSpace < c
      omega

theorem shrink_block {b : ℕ} (hbytes : c * v.elementSize < 2 ^ 32) (hb : v.mem (.block b) = none) :
    ∃ v', ((Store.moveBefore (.block b) v.base 0 0 l.length
        (v.mem.put (.block b) (raw c))).bind fun mem =>
          (v.freeHeap mem).bind (v.setHeap b c)) = some v' ∧ Shrunk v v' l := by
  obtain ⟨b', hbase, hheap, havail⟩ : ∃ b', v.base = .block b' ∧ v.heap = some b' ∧
      v.localSpace < v.avail := by
    rcases h.base with ⟨-, havail⟩ | hblock
    · omega
    · exact hblock
  have hbb : b ≠ b' := by
    rintro rfl
    rw [h.stored, hbase, layout_base] at hb
    exact absurd hb (by simp)
  have hne : v.base ≠ .block b := by
    rw [hbase]
    intro he
    exact hbb (Place.block.inj he).symm
  have hp : v.mem.put (.block b) (raw c) (.block b) =
      some ([] ++ (raw l.length ++ raw (c - l.length))) := by
    rw [put_self, nil_append, ← raw_add]
    congr 2
    omega
  have hq : v.mem.put (.block b) (raw c) v.base =
      some ([] ++ (filled l ++ raw (v.avail - l.length))) := by
    rw [put_ne _ hne, h.stored, layout_base]
    rfl
  have hraw : (raw l.length ++ raw (v.avail - l.length) : Cells α) = raw v.avail := by
    rw [← raw_add]
    congr 1
    omega
  rw [moveBefore_other (i := 0) (j := 0) hne.symm hp hq rfl rfl rfl, put_put,
    put_comm _ _ hne.symm, h.stored, layout_put, nil_append, nil_append, hraw]
  dsimp only [Option.bind]
  unfold freeHeap
  rw [hheap]
  dsimp only
  rw [hbase, free_eq (n := v.avail) (by rw [← hbase, put_ne _ hne, layout_base]),
    layout_to_other hbb]
  dsimp only
  rw [setHeap_spec]
  refine ⟨_, rfl, rfl, hc, h.pos, rfl, ?_, hbytes, .inr ⟨b, rfl, rfl, ?_⟩⟩
  · dsimp only
    rw [length_append, filled_length, raw_length]
    omega
  · show v.localSpace < c
    omega

end

theorem shrink_local {pos : ℕ} (h : v.Shape (gap l amount pos (v.avail - v.size)))
    (hsize : v.size = l.length + amount) (hpos : pos ≤ l.length) (hroom : v.size < 2 ^ 32)
    (hlocal : l.length ≤ v.localSpace) (havail : v.localSpace < v.avail) :
    ∃ v', ((v.moveIn amount pos l.length).bind fun mem =>
        (mem.free v.base).map fun mem =>
          { v with
            mem := mem
            avail := v.localSpace
            base := .localSpace
            heap := if l.length = 0 then v.heap else none }) = some v' ∧ Shrunk v v' l := by
  obtain ⟨b, hbase, -, -⟩ : ∃ b, v.base = .block b ∧ v.heap = some b ∧
      v.localSpace < v.avail := by
    rcases h.base with ⟨-, hlocal⟩ | hblock
    · omega
    · exact hblock
  rw [moveIn_spec h hbase hpos hlocal (by omega)]
  dsimp only [Option.bind]
  rw [free_eq (n := v.avail), hbase, layout_to_local]
  · refine ⟨_, rfl, rfl, hlocal, h.pos, rfl, ?_, ?_, .inl ⟨rfl, rfl⟩⟩
    · dsimp only
      rw [length_append, filled_length, raw_length]
      omega
    · have h8 : v.localSpace * v.elementSize ≤ 8 := div_mul_le_self 8 v.elementSize
      show v.localSpace * v.elementSize < 2 ^ 32
      omega
  · rw [put_ne, layout_base]
    rw [hbase]
    simp

theorem shrink_spec {pos : ℕ} (h : v.Shape (gap l amount pos (v.avail - v.size)))
    (hle : v.size ≤ v.avail) (hsize : v.size = l.length + amount) (hpos : pos ≤ l.length)
    (hamount : 0 < amount) (hroom : v.size < 2 ^ 32) (hcan : v.CanShrink amount env)
    (hfresh : ∀ b ∈ env.fresh, v.mem (.block b) = none) :
    ∃ v', v.shrink amount 4 pos env = some v' ∧ Shrunk v v' l := by
  have hmin : min amount v.size = amount := by omega
  have hneeded : v.size - amount = l.length := by omega
  have hrest : amount + (v.avail - v.size) = v.avail - l.length := by omega
  have hgap := shrinkGap_spec h hpos hamount (by omega)
  rw [hrest] at hgap
  have hclosed : Shape { v with
      mem := layout v.localSpace v.base (filled l ++ raw (v.avail - l.length)) }
      (filled l ++ raw (v.avail - l.length)) := by
    refine ⟨h.pos, rfl, ?_, h.bytes, h.base⟩
    dsimp only
    rw [length_append, filled_length, raw_length]
    omega
  have hshrunk : Shrunk v { v with
      mem := layout v.localSpace v.base (filled l ++ raw (v.avail - l.length)) } l := by
    refine ⟨rfl, ?_, hclosed⟩
    show l.length ≤ v.avail
    omega
  unfold shrink
  dsimp only
  rw [hmin, hneeded]
  by_cases hlocal : l.length ≤ v.localSpace
  · rw [if_pos hlocal]
    by_cases havail : v.localSpace < v.avail
    · rw [if_pos havail]
      exact shrink_local h hsize hpos hroom hlocal havail
    · rw [if_neg havail, hgap]
      exact ⟨_, rfl, hshrunk⟩
  · rw [if_neg hlocal, hgap]
    dsimp only [Option.bind]
    unfold CanShrink at hcan
    rw [hneeded] at hcan
    by_cases hless : wrap (l.length * 4) < v.avail
    · rw [if_pos hless]
      have hblock := blockSize_roundUp h.pos (wrap (l.length * max (4 / 2) 1))
      have hbytes := roundUp_mul_lt v (wrap (l.length * max (4 / 2) 1))
      -- the smaller block is not too small, if one is taken
      have hc : ¬ (env.inplace = false ∧ env.fresh = none) →
          l.length ≤ v.roundUp (wrap (l.length * max (4 / 2) 1)) := by
        intro hsome
        have hwrap := (hcan (by omega) hless).resolve_right hsome
        have h2 : l.length * 2 ≤ l.length * 2 * v.elementSize := Nat.le_mul_of_pos_right _ h.pos
        have h3 : wrap (l.length * max (4 / 2) 1) = l.length * 2 :=
          wrap_of_lt (by show l.length * 2 < 2 ^ 32; omega)
        rw [h3]
        have h4 := le_roundUp h.pos hwrap
        omega
      generalize hcdef : v.roundUp (wrap (l.length * max (4 / 2) 1)) = c at hblock hbytes hc
      have hround : roundUp { v with
          mem := layout v.localSpace v.base (filled l ++ raw (v.avail - l.length)) }
          (wrap (l.length * max (4 / 2) 1)) = c := hcdef
      rw [hround]
      have hblock' : blockSize { v with
          mem := layout v.localSpace v.base (filled l ++ raw (v.avail - l.length)) } c = c := hblock
      rw [hblock']
      by_cases hin : env.inplace = true
      · rw [if_pos hin]
        obtain ⟨v', hv', hs⟩ := shrink_inplace hclosed hshrunk.le_avail
          (by show v.localSpace < _; omega) (hc (by rw [hin]; simp)) hbytes
        exact ⟨v', hv', hs.size, hs.le_avail, hs.shape⟩
      · rw [if_neg hin]
        cases hf : env.fresh with
        | none => exact ⟨_, rfl, hshrunk⟩
        | some b =>
          have hb := hfresh b hf
          rw [h.stored, layout_eq_none] at hb
          obtain ⟨v', hv', hs⟩ := shrink_block hclosed hshrunk.le_avail
            (by show v.localSpace < _; omega) (hc (by rw [hf]; simp)) hbytes (layout_eq_none.2 hb)
          exact ⟨v', hv', hs.size, hs.le_avail, hs.shape⟩
    · rw [if_neg hless]
      exact ⟨_, rfl, hshrunk⟩

/-! ### Elements -/

theorem fill_spec {cells' : Cells α} {f : Store Place α → Option (Store Place α)}
    (h : v.Shape cells) (hf : f v.mem = some (v.mem.put v.base cells'))
    (hlen : cells'.length = v.avail) :
    ∃ v', v.fill f = some v' ∧ v'.size = v.size ∧ v'.avail = v.avail ∧ v'.Shape cells' := by
  unfold fill
  rw [hf]
  refine ⟨_, rfl, rfl, rfl, h.pos, ?_, hlen, h.bytes, ?_⟩
  · dsimp only
    rw [h.stored, layout_put]
    rfl
  · rcases h.base with hlocal | ⟨b, hb, hh, havail⟩
    · exact .inl hlocal
    · refine .inr ⟨b, hb, ?_, havail⟩
      rw [hb, if_neg (by simp), hh]

theorem insertAt_cells (l xs : List α) (pos room : ℕ) :
    (filled (insertAt l pos xs) ++ raw room : Cells α) =
      filled (l.take pos) ++ (filled xs ++ (filled (l.drop pos) ++ raw room)) := by
  unfold insertAt
  simp

theorem insertAt_length (l xs : List α) (pos : ℕ) :
    (insertAt l pos xs).length = l.length + xs.length := by
  have h := congrArg List.length (take_append_drop pos l)
  rw [length_append] at h
  unfold insertAt
  rw [length_append, length_append]
  omega

theorem insertAt_of_length_le {pos : ℕ} (xs : List α) (h : l.length ≤ pos) :
    insertAt l pos xs = l ++ xs := by
  unfold insertAt
  rw [take_of_length_le h, drop_of_length_le h, append_nil]

theorem insertAt_min (l xs : List α) (pos : ℕ) :
    insertAt l (min pos l.length) xs = insertAt l pos xs := by
  rcases le_total pos l.length with h | h
  · rw [min_eq_left h]
  · rw [min_eq_right h, insertAt_of_length_le xs h, insertAt_of_length_le xs (le_refl _)]

variable {pos room index n : ℕ} {xs : List α}

theorem fill_given (h : v.Shape (gap l xs.length pos room)) (hindex : index = (l.take pos).length) :
    ∃ v', v.fill (Store.constructAll v.base index xs) = some v' ∧ v'.size = v.size ∧
      v'.avail = v.avail ∧ v'.Shape (filled (insertAt l pos xs) ++ raw room) := by
  have hm : v.mem v.base = some (filled (l.take pos) ++ (raw xs.length ++
      (filled (l.drop pos) ++ raw room))) := by
    rw [h.stored, layout_base]
    rfl
  apply fill_spec h
  · rw [constructAll_eq hm (by rw [hindex, filled_length]), insertAt_cells]
  · rw [length_append, filled_length, insertAt_length, raw_length, ← h.length, gap_length]

section

variable (h : v.Shape (gap l n pos room)) (hindex : index = (l.take pos).length)
include h hindex

/-- **A gap is filled** with elements of the vector that are in front of it. -/
theorem fill_own {i : ℕ} (hi : i + n ≤ (l.take pos).length) :
    ∃ v', v.fill (Store.copy v.base v.base index i n) = some v' ∧ v'.size = v.size ∧
      v'.avail = v.avail ∧ v'.Shape (filled (insertAt l pos ((l.drop i).take n)) ++ raw room) := by
  have hxs : (l.drop i).take n = ((l.take pos).drop i).take n := by
    conv_lhs => rw [← take_append_drop pos l]
    rw [drop_append_of_le_length (by omega),
      take_append_of_le_length (by rw [length_drop]; omega)]
  have hn : (((l.take pos).drop i).take n).length = n := by
    rw [length_take, length_drop]
    omega
  have hlen : ((l.take pos).take i).length = i := by
    rw [length_take]
    omega
  have hsplit : (filled (l.take pos) : Cells α) = filled ((l.take pos).take i) ++
      (filled (((l.take pos).drop i).take n) ++ filled (((l.take pos).drop i).drop n)) := by
    rw [← filled_take_drop, ← filled_take_drop]
  have hm : v.mem v.base = some (filled ((l.take pos).take i) ++
      (filled (((l.take pos).drop i).take n) ++ (filled (((l.take pos).drop i).drop n) ++
        (raw (((l.take pos).drop i).take n).length ++ (filled (l.drop pos) ++ raw room))))) := by
    rw [h.stored, layout_base]
    unfold gap
    rw [hn, hsplit]
    simp
  rw [hxs]
  apply fill_spec h
  · rw [copy_same hm ?_ (by rw [filled_length, hlen]) hn.symm, insertAt_cells, hsplit]
    · simp
    · rw [filled_length, filled_length, hlen, hn, length_drop, length_drop, hindex]
      omega
  · rw [length_append, filled_length, insertAt_length, raw_length, ← h.length, gap_length, hn]

/-- **A gap is filled** with copies of an element of the vector that is in front of it. -/
theorem fill_replicate [Inhabited α] {i : ℕ} (hi : i < (l.take pos).length) :
    ∃ v', v.fill (Store.replicate v.base v.base i index n) = some v' ∧ v'.size = v.size ∧
      v'.avail = v.avail ∧
      v'.Shape (filled (insertAt l pos (List.replicate n (l.getD i default))) ++ raw room) := by
  have hx : (l.take pos)[i] = l.getD i default := by
    have hlt : i < l.length := by
      rw [length_take] at hi
      omega
    rw [getElem_take, getD_eq_getElem?_getD, List.getElem?_eq_getElem hlt]
    rfl
  have hlen : ((l.take pos).take i).length = i := by
    rw [length_take]
    omega
  have hsplit : (filled (l.take pos) : Cells α) = filled ((l.take pos).take i) ++
      some (l.getD i default) :: filled ((l.take pos).drop (i + 1)) := by
    rw [← hx, ← filled_cons, getElem_cons_drop, ← filled_take_drop]
  have hm : v.mem v.base = some (filled ((l.take pos).take i) ++
      some (l.getD i default) :: (filled ((l.take pos).drop (i + 1)) ++
        (raw n ++ (filled (l.drop pos) ++ raw room)))) := by
    rw [h.stored, layout_base]
    unfold gap
    rw [hsplit]
    simp
  apply fill_spec h
  · rw [replicate_same hm ?_ (by rw [filled_length, hlen]), insertAt_cells, hsplit]
    · simp
    · rw [filled_length, filled_length, hlen, length_drop, hindex]
      omega
  · rw [length_append, filled_length, insertAt_length, raw_length, ← h.length, gap_length,
      length_replicate]

theorem copyPtr_spec [Inhabited α] {old : Place}
    (hown : ∀ i, item = some (.own i) → v.base = old ∧ i < (l.take pos).length) :
    ∃ v', v.copyPtr old item index n = some v' ∧ v'.size = v.size ∧ v'.avail = v.avail ∧
      v'.Shape (filled (insertAt l pos (List.replicate n (ptrValue l item))) ++ raw room) := by
  have hgiven : ∀ x, ∃ v', v.fill (Store.constructAll v.base index (List.replicate n x)) = some v' ∧
      v'.size = v.size ∧ v'.avail = v.avail ∧
      v'.Shape (filled (insertAt l pos (List.replicate n x)) ++ raw room) := by
    intro x
    apply fill_given _ hindex
    rw [length_replicate]
    exact h
  cases item with
  | none => exact hgiven default
  | some p =>
    cases p with
    | given x => exact hgiven x
    | own i =>
      obtain ⟨rfl, hi⟩ := hown i rfl
      exact fill_replicate h hindex hi

end

theorem copyItems_spec {old : Place} (h : v.Shape (gap l items.count pos room))
    (hindex : index = (l.take pos).length)
    (hown : ∀ i n, items = .own i n → v.base = old ∧ i + n ≤ (l.take pos).length) :
    ∃ v', v.copyItems old items index = some v' ∧ v'.size = v.size ∧ v'.avail = v.avail ∧
      v'.Shape (filled (insertAt l pos (items.values l)) ++ raw room) := by
  cases items with
  | given xs => exact fill_given h hindex
  | own i n =>
    obtain ⟨rfl, hi⟩ := hown i n rfl
    exact fill_own h hindex hi

/-! ### Calls that add elements -/

/-- **A call keeps the list or changes it**, by what it returns. -/
def Keeps (o : Option (SAbstractVector α × Result)) (l l' : List α) : Prop :=
  ∃ v r, o = some (v, r) ∧ v.Holds (if r = .noMemory then l else l')

/-- A call that grows keeps the list if it fails, and has a gap to fill if it does not. -/
theorem Holds.grown {l' : List α} (h : v.Holds l) (hcan : v.CanGrow amount 3 env)
    (hpos : pos < v.size → 0 < amount) (hfresh : ∀ b ∈ env.fresh, v.mem (.block b) = none)
    {f : SAbstractVector α → Option (SAbstractVector α × Result)}
    (hf : ∀ v', Grown v v' l amount pos → (¬ v.NeedsBlock amount env → v'.base = v.base) →
      ¬ v.Fails amount env → ∃ v'' m, f v' = some (v'', .value m) ∧ v''.Holds l') :
    Keeps ((v.grow amount 3 pos env).bind fun r => SAbstractVector.grown r f) l l' := by
  rcases grow_spec h (by decide) hcan hpos hfresh with ⟨-, hg⟩ | ⟨hfail, v', hg, hgrown, hbase⟩
  · rw [hg]
    refine ⟨v, .noMemory, rfl, ?_⟩
    rw [if_pos rfl]
    exact h
  · obtain ⟨v'', m, hv'', hholds⟩ := hf v' hgrown hbase hfail
    rw [hg]
    refine ⟨v'', .value m, hv'', ?_⟩
    rw [if_neg (by simp)]
    exact hholds

theorem Shape.holds {avail : ℕ} (h : v.Shape (filled l ++ raw (avail - total)))
    (havail : v.avail = avail) (hlen : l.length = total) (hle : total ≤ avail) :
    Holds { v with size := total } l := by
  refine ⟨hlen.symm, by rw [← havail] at hle; exact hle, h.pos, ?_, ?_, h.bytes, h.base⟩
  · dsimp only
    rw [h.stored, havail]
    rfl
  · dsimp only
    rw [← havail] at h
    exact h.length

/-- A position in the vector, in front of which elements of the vector stay. -/
theorem length_take_min (l : List α) (index : ℕ) :
    (l.take (min index l.length)).length = min index l.length := by
  rw [length_take]
  omega

section

variable (h : v.Holds l)
include h

theorem Holds.add [Inhabited α] (hcan : v.CanGrow 1 3 env) (hitem : ∀ p ∈ item, p.Valid l)
    (hstays : v.PtrStays 1 v.size env item) (hfresh : ∀ b ∈ env.fresh, v.mem (.block b) = none) :
    Keeps (v.add item env) l (l ++ [ptrValue l item]) := by
  have hend : l.length ≤ atEnd := by
    have := hcan.1
    have := h.size
    unfold atEnd
    omega
  refine h.grown hcan (by intro hlt; decide) hfresh fun v' hgrown hbase hfail => ?_
  have htake : (l.take atEnd).length = l.length := by
    rw [take_of_length_le hend]
  have hown : ∀ i, item = some (.own i) → v'.base = v.base ∧ i < (l.take atEnd).length := by
    rintro i rfl
    have hi : i < l.length := hitem _ rfl
    rcases hstays _ rfl with hf | ⟨hno, -⟩
    · exact absurd hf hfail
    · exact ⟨hbase hno, by omega⟩
  obtain ⟨v'', hv'', h1, h2, h3⟩ := copyPtr_spec hgrown.shape
    (by rw [htake, hgrown.size, h.size] : v'.size = (l.take atEnd).length) hown
  rw [hv'']
  refine ⟨_, _, rfl, ?_⟩
  rw [insertAt_of_length_le _ hend] at h3
  rw [h1, hgrown.size, wrap_of_lt hcan.1]
  exact h3.holds h2 (by simp [h.size]) hgrown.le_avail

theorem Holds.addAt [Inhabited α] (hcan : v.CanGrow 1 3 env) (hitem : ∀ p ∈ item, p.Valid l)
    (hstays : v.PtrStays 1 (min index v.size) env item)
    (hfresh : ∀ b ∈ env.fresh, v.mem (.block b) = none) :
    Keeps (v.addAt item index env) l (insertAt l index [ptrValue l item]) := by
  refine h.grown hcan (by intro hlt; decide) hfresh fun v' hgrown hbase hfail => ?_
  have hown : ∀ i, item = some (.own i) →
      v'.base = v.base ∧ i < (l.take (min index v.size)).length := by
    rintro i rfl
    rcases hstays _ rfl with hf | ⟨hno, hi⟩
    · exact absurd hf hfail
    · rw [h.size, length_take_min]
      rw [h.size] at hi
      exact ⟨hbase hno, hi⟩
  have hshape : Shape { v' with size := wrap (v'.size + 1) }
      (gap l 1 (min index v.size) (v'.avail - (v.size + 1))) :=
    ⟨hgrown.shape.pos, hgrown.shape.stored, hgrown.shape.length, hgrown.shape.bytes,
      hgrown.shape.base⟩
  have hindex : min index v.size = (l.take (min index v.size)).length := by
    rw [h.size, length_take_min]
  obtain ⟨v'', hv'', h1, h2, h3⟩ := copyPtr_spec hshape hindex hown
  rw [hv'']
  refine ⟨_, _, rfl, ?_⟩
  rw [h.size, insertAt_min, ← h.size] at h3
  have hholds := h3.holds h2 (by rw [insertAt_length, h.size]; rfl) hgrown.le_avail
  have hsize : v''.size = v.size + 1 := by
    rw [h1]
    rw [hgrown.size, wrap_of_lt hcan.1]
  rw [← hsize] at hholds
  exact hholds

theorem Holds.addArrayAt (hcan : v.CanInsert items index env)
    (hfresh : ∀ b ∈ env.fresh, v.mem (.block b) = none) (hlen : (items.values l).length = items.count) :
    Keeps (v.addArrayAt items index env) l (insertAt l index (items.values l)) := by
  unfold SAbstractVector.addArrayAt
  by_cases hcount : 0 < items.count
  · obtain ⟨hcan, hstays⟩ := hcan hcount
    rw [if_pos hcount]
    refine h.grown hcan (fun _ => hcount) hfresh fun v' hgrown hbase hfail => ?_
    have hown : ∀ i n, items = .own i n →
        v'.base = v.base ∧ i + n ≤ (l.take (min index v.size)).length := by
      rintro i n rfl
      rcases hstays with hf | ⟨hno, hi⟩
      · exact absurd hf hfail
      · rw [h.size, length_take_min]
        rw [h.size] at hi
        exact ⟨hbase hno, hi⟩
    have hindex : min index v.size = (l.take (min index v.size)).length := by
      rw [h.size, length_take_min]
    obtain ⟨v'', hv'', h1, h2, h3⟩ := copyItems_spec hgrown.shape hindex hown
    rw [hv'']
    refine ⟨_, _, rfl, ?_⟩
    rw [h.size, insertAt_min, ← h.size] at h3
    rw [h1, hgrown.size, wrap_of_lt hcan.1]
    exact h3.holds h2 (by rw [insertAt_length, h.size, hlen]) hgrown.le_avail
  · have hnil : items.values l = [] := length_eq_zero_iff.1 (by omega)
    rw [if_neg hcount, hnil]
    refine ⟨v, .value v.size, rfl, ?_⟩
    rw [if_neg (by simp)]
    unfold insertAt
    rw [append_nil, take_append_drop]
    exact h

/-! ### Calls that take elements away -/

theorem destroyAll_spec {count : ℕ} (hle : index + count ≤ l.length) :
    Store.destroyAll v.base index count v.mem = some (layout v.localSpace v.base
      (gap (l.take index ++ l.drop (index + count)) count index (v.avail - v.size))) := by
  have hcount : ((l.drop index).take count).length = count := by
    rw [length_take, length_drop]
    omega
  have htake : (l.take index).length = index := by
    rw [length_take]
    omega
  have hm : v.mem v.base = some (filled (l.take index) ++ (filled ((l.drop index).take count) ++
      (filled (l.drop (index + count)) ++ raw (v.avail - v.size)))) := by
    rw [h.shape.stored, layout_base, filled_take_drop l index,
      filled_take_drop (l.drop index) count, drop_drop]
    simp
  rw [destroyAll_eq hm (by rw [filled_length, htake]) hcount.symm, h.shape.stored, layout_put,
    hcount]
  unfold gap
  rw [take_left' htake, drop_left' htake]

theorem Holds.removeItemsAt {count : ℕ}
    (hcan : 0 < count → index < v.size → index + count < 2 ^ 32 ∧
      v.CanShrink (min count (v.size - index)) env)
    (hfresh : ∀ b ∈ env.fresh, v.mem (.block b) = none) :
    ∃ v', v.removeItemsAt index count env = some v' ∧
      v'.Holds (l.take index ++ l.drop (index + count)) := by
  unfold SAbstractVector.removeItemsAt
  by_cases hdo : 0 < count ∧ index < v.size
  · obtain ⟨hwrap, hcan⟩ := hcan hdo.1 hdo.2
    have hclamp : (if v.size < wrap (index + count) then v.size - index else count) =
        min count (v.size - index) := by
      rw [wrap_of_lt hwrap]
      split <;> omega
    rw [if_pos hdo]
    dsimp only
    rw [hclamp]
    have hdrop : l.drop (index + count) = l.drop (index + min count (v.size - index)) := by
      rcases le_total count (v.size - index) with hc | hc
      · rw [min_eq_left hc]
      · rw [min_eq_right hc, drop_of_length_le (by rw [← h.size]; omega),
          drop_of_length_le (by rw [← h.size]; omega)]
    rw [hdrop]
    generalize hn : min count (v.size - index) = n at hcan ⊢
    have hsize := h.size
    have hlen : (l.take index ++ l.drop (index + n)).length + n = v.size := by
      rw [length_append, length_take, length_drop]
      omega
    rw [destroyAll_spec h (by omega)]
    dsimp only [Option.bind]
    have hshape : Shape { v with
        mem := layout v.localSpace v.base
          (gap (l.take index ++ l.drop (index + n)) n index (v.avail - v.size)) }
        (gap (l.take index ++ l.drop (index + n)) n index (v.avail - v.size)) := by
      refine ⟨h.shape.pos, rfl, ?_, h.shape.bytes, h.shape.base⟩
      rw [gap_length]
      have := h.le_avail
      dsimp only
      omega
    obtain ⟨v', hv', hshrunk⟩ := shrink_spec hshape h.le_avail hlen.symm (by omega) (by omega)
      h.size_lt hcan (h.shape.fresh hfresh)
    rw [hv']
    refine ⟨_, rfl, ?_⟩
    have hwrap' : wrap (v'.size + 2 ^ 32 - n) = (l.take index ++ l.drop (index + n)).length := by
      rw [hshrunk.size]
      have := h.size_lt
      unfold wrap
      dsimp only
      omega
    dsimp only
    rw [hwrap']
    exact hshrunk.shape.holds rfl rfl hshrunk.le_avail
  · rw [if_neg hdo]
    have hsize := h.size
    have heq : l.take index ++ l.drop (index + count) = l := by
      by_cases hc : count = 0
      · rw [hc, add_zero, take_append_drop]
      · rw [take_of_length_le (by omega), drop_of_length_le (by omega), append_nil]
    rw [heq]
    exact ⟨v, rfl, h⟩

theorem Holds.destroyed :
    Store.destroyAll v.base 0 v.size v.mem = some (layout v.localSpace v.base (raw v.avail)) := by
  have hsize := h.size
  have hle := h.le_avail
  have hcells : gap (l.take 0 ++ l.drop (0 + v.size)) v.size 0 (v.avail - v.size) =
      (raw v.avail : Cells α) := by
    rw [Nat.zero_add, drop_of_length_le (by omega)]
    show (raw v.size ++ ([] ++ raw (v.avail - v.size)) : Cells α) = raw v.avail
    rw [nil_append, ← raw_add]
    congr 1
    omega
  rw [destroyAll_spec h (by omega : 0 + v.size ≤ l.length), hcells]

theorem Holds.emptied :
    Holds { v with mem := layout v.localSpace v.base (raw v.avail), size := 0 } ([] : List α) := by
  refine ⟨rfl, Nat.zero_le _, h.shape.pos, rfl, ?_, h.shape.bytes, h.shape.base⟩
  simp

theorem Holds.makeEmpty_local : ∃ v', v.makeEmpty = some v' ∧ v'.Holds [] ∧
    v'.base = .localSpace ∧ v'.elementSize = v.elementSize := by
  have hempty : v.makeEmpty = some { v with
      mem := layout v.localSpace .localSpace (raw v.localSpace)
      avail := v.localSpace
      size := 0
      base := .localSpace } := by
    unfold SAbstractVector.makeEmpty
    rw [h.destroyed]
    dsimp only [Option.bind]
    rcases h.shape.base with ⟨hb, havail⟩ | ⟨b, hb, -, -⟩
    · rw [if_neg (by rw [hb]; simp), hb, havail]
      rfl
    · have hput : (layout v.localSpace (.block b) (raw v.avail) : Store Place α).put .localSpace
          (raw v.localSpace) = layout v.localSpace (.block b) (raw v.avail) :=
        put_eq (layout_local (by simp))
      rw [if_pos (by rw [hb]; simp), hb, free_eq layout_base, ← hput, layout_to_local]
      rfl
  rw [hempty]
  refine ⟨_, rfl, ⟨rfl, Nat.zero_le _, h.shape.pos, rfl, ?_, ?_, .inl ⟨rfl, rfl⟩⟩, rfl, rfl⟩
  · simp
  · have h8 : v.localSpace * v.elementSize ≤ 8 := div_mul_le_self 8 v.elementSize
    show v.localSpace * v.elementSize < 2 ^ 32
    omega

theorem Holds.makeEmpty : ∃ v', v.makeEmpty = some v' ∧ v'.Holds [] := by
  obtain ⟨v', hv', hholds, -⟩ := h.makeEmpty_local
  exact ⟨v', hv', hholds⟩

/-! ### Calls that set the size or the elements -/

theorem Holds.setSize [Inhabited α] (hitem : ∀ p ∈ item, p.Valid l)
    (hcan : if v.size < total then v.CanGrow (total - v.size) 3 env ∧
      v.PtrStays (total - v.size) v.size env item else v.CanShrink (v.size - total) env)
    (hfresh : ∀ b ∈ env.fresh, v.mem (.block b) = none) :
    Keeps (v.setSize total item env) l
      (l.take total ++ List.replicate (total - l.length) (ptrValue l item)) := by
  have hsize := h.size
  unfold SAbstractVector.setSize
  by_cases hlt : v.size < total
  · rw [if_pos hlt] at hcan ⊢
    obtain ⟨hcan, hstays⟩ := hcan
    have hend : l.length ≤ atEnd := by
      have := hcan.1
      unfold atEnd
      omega
    refine h.grown hcan (fun _ => by omega) hfresh fun v' hgrown hbase hfail => ?_
    have hown : ∀ i, item = some (.own i) → v'.base = v.base ∧ i < (l.take atEnd).length := by
      rintro i rfl
      have hi : i < l.length := hitem _ rfl
      rcases hstays _ rfl with hf | ⟨hno, -⟩
      · exact absurd hf hfail
      · rw [take_of_length_le hend]
        exact ⟨hbase hno, hi⟩
    have hindex : v'.size = (l.take atEnd).length := by
      rw [take_of_length_le hend, hgrown.size, hsize]
    obtain ⟨v'', hv'', h1, h2, h3⟩ := copyPtr_spec hgrown.shape hindex hown
    rw [hgrown.size] at hv'' ⊢
    rw [hv'']
    refine ⟨_, _, rfl, ?_⟩
    rw [insertAt_of_length_le _ hend, hsize] at h3
    rw [take_of_length_le (by omega)]
    have htot : l.length + (total - l.length) = total := by omega
    have hle := hgrown.le_avail
    rw [htot] at h3
    exact h3.holds h2 (by simp; omega) (by omega)
  · rw [if_neg hlt] at hcan ⊢
    have hremove : 0 < v.size - total → total < v.size → total + (v.size - total) < 2 ^ 32 ∧
        v.CanShrink (min (v.size - total) (v.size - total)) env := by
      intro _ _
      have := h.size_lt
      rw [min_self]
      exact ⟨by omega, hcan⟩
    obtain ⟨v', hv', hholds⟩ := h.removeItemsAt hremove hfresh
    rw [hv']
    refine ⟨v', .value 0, rfl, ?_⟩
    rw [if_neg (by simp)]
    have hnone : total - l.length = 0 := by omega
    rw [hnone, replicate_zero]
    rw [drop_of_length_le (by omega)] at hholds
    exact hholds

theorem Holds.setCapacity (hcan : v.CanGrow (total - v.size) 2 env)
    (hfresh : ∀ b ∈ env.fresh, v.mem (.block b) = none) :
    ∃ v', v.setCapacity total env = some v' ∧ v'.Holds l := by
  have hmax : max total v.size - v.size = total - v.size := by omega
  have hend : l.length ≤ atEnd := by
    have := hcan.1
    have := h.size
    unfold atEnd
    omega
  unfold SAbstractVector.setCapacity
  dsimp only
  rw [hmax]
  have hpos : atEnd < v.size → 0 < total - v.size := by
    intro hlt
    have := h.size
    omega
  rcases grow_spec h (by decide) hcan hpos hfresh with ⟨-, hg⟩ | ⟨-, v', hg, hgrown, -⟩
  · rw [hg]
    exact ⟨v, rfl, h⟩
  · rw [hg]
    refine ⟨v', rfl, ?_⟩
    have hshape := hgrown.shape
    have hle := hgrown.le_avail
    rw [gap_end hend] at hshape
    refine ⟨hgrown.size.trans h.size, by rw [hgrown.size]; omega, ?_⟩
    have hroom : total - v.size + (v'.avail - (v.size + (total - v.size))) = v'.avail - v'.size := by
      rw [hgrown.size]
      omega
    rw [← hroom]
    exact hshape

theorem Holds.assign {o : Option (List α)}
    (hcan : match o with
      | some xs => xs.length < 2 ^ 32 ∧ { v with size := 0 }.Sized xs.length 3 ∧
          ¬ { v with size := 0 }.Fails xs.length env
      | none => v.size = 0) (hfresh : ∀ b ∈ env.fresh, v.mem (.block b) = none) :
    ∃ v', v.assign o env = some v' ∧ v'.Holds (o.getD l) := by
  have hsize := h.size
  unfold SAbstractVector.assign
  cases o with
  | none =>
    dsimp only at hcan ⊢
    obtain rfl : l = [] := length_eq_zero_iff.1 (by omega)
    rw [if_neg (by omega)]
    exact h.makeEmpty
  | some xs =>
    by_cases hxs : 0 < xs.length
    · obtain ⟨hlen, hsized, hfails⟩ := hcan
      rw [if_pos hxs, h.destroyed]
      dsimp only [Option.bind]
      have hgrow : @CanGrow α { v with mem := layout v.localSpace v.base (raw v.avail), size := 0 }
          xs.length 3 env := by
        refine ⟨?_, .inr hsized⟩
        show 0 + xs.length < 2 ^ 32
        omega
      have hpos : atEnd < 0 → 0 < xs.length := fun _ => hxs
      rcases grow_spec h.emptied (by decide : 2 ≤ 3) hgrow hpos (h.shape.fresh hfresh) with
        ⟨hf, -⟩ | ⟨-, v', hg, hgrown, -⟩
      · exact absurd hf hfails
      · unfold Items.count
        rw [hg]
        obtain ⟨v'', hv'', h1, h2, h3⟩ := fill_given hgrown.shape
          (rfl : 0 = (([] : List α).take atEnd).length)
        unfold copyItems
        dsimp only
        rw [hv'']
        refine ⟨_, rfl, ?_⟩
        have hle := hgrown.le_avail
        rw [Nat.zero_add] at h3 hle
        rw [insertAt_of_length_le _ (Nat.zero_le _), nil_append] at h3
        exact h3.holds h2 rfl hle
    · obtain rfl : xs = [] := length_eq_zero_iff.1 (by omega)
      rw [if_neg hxs]
      exact h.makeEmpty

theorem assign_spec (hindex : index < l.length) (x : α) :
    ∃ mem, v.mem.assign v.base index x = some mem ∧ Holds { v with mem := mem } (l.set index x) := by
  have hm : v.mem v.base = some (filled (l.take index) ++ some l[index] ::
      (filled (l.drop (index + 1)) ++ raw (v.avail - v.size))) := by
    rw [h.shape.stored, layout_base, filled_take_drop l index, ← getElem_cons_drop hindex,
      filled_cons]
    simp
  have hlen : (filled (l.take index)).length = index := by
    rw [filled_length, length_take]
    omega
  have hset : (filled (l.set index x) ++ raw (v.avail - v.size) : Cells α) =
      filled (l.take index) ++ some x :: (filled (l.drop (index + 1)) ++ raw (v.avail - v.size)) := by
    rw [set_eq_take_append_cons_drop, if_pos hindex, filled_append, filled_cons]
    simp
  have hassign := assign_eq (y := x) hm
  rw [hlen] at hassign
  rw [hassign, h.shape.stored, layout_put, ← hset]
  refine ⟨_, rfl, ?_, h.le_avail, h.shape.pos, rfl, ?_, h.shape.bytes, h.shape.base⟩
  · rw [length_set]
    exact h.size
  · dsimp only
    have h1 := h.le_avail
    have h2 := h.size
    rw [length_append, filled_length, raw_length, length_set]
    omega

theorem Holds.replaceAt [Inhabited α] {item : Ptr α} (hitem : item.Valid l)
    (hindex : index < v.size) :
    Keeps (v.replaceAt item index) l (l.set index (ptrValue l (some item))) := by
  rw [h.size] at hindex
  unfold SAbstractVector.replaceAt
  cases item with
  | given x =>
    obtain ⟨mem, hmem, hholds⟩ := assign_spec h hindex x
    dsimp only
    rw [hmem]
    exact ⟨_, .value index, rfl, hholds⟩
  | own i =>
    have hi : i < l.length := hitem
    have hread : v.mem.read v.base i = some (l.getD i default) := by
      have hx : l[i] = l.getD i default := by
        rw [getD_eq_getElem?_getD, List.getElem?_eq_getElem hi]
        rfl
      have hm : v.mem v.base = some (filled (l.take i) ++ some l[i] ::
          (filled (l.drop (i + 1)) ++ raw (v.avail - v.size))) := by
        rw [h.shape.stored, layout_base, filled_take_drop l i, ← getElem_cons_drop hi,
          filled_cons]
        simp
      have hread := read_eq hm
      rw [filled_length, length_take, min_eq_left (by omega)] at hread
      rw [hread, hx]
    obtain ⟨mem, hmem, hholds⟩ := assign_spec h hindex (l.getD i default)
    dsimp only
    rw [hread]
    dsimp only [Option.bind]
    rw [hmem]
    exact ⟨_, .value index, rfl, hholds⟩

end

/-! ### Moving elements -/

section Move

variable {m : Store Place α} {newIndex oldIndex : ℕ}

theorem gap_down (hm : m v.base = some (gap l n oldIndex room)) (hn : 0 < n)
    (hlt : newIndex < oldIndex) (hle : oldIndex ≤ l.length) :
    Store.moveAfter v.base (newIndex + n) v.base newIndex (oldIndex - newIndex) m =
      some (m.put v.base (gap l n newIndex room)) := by
  have htake : l.take oldIndex = l.take newIndex ++ (l.drop newIndex).take (oldIndex - newIndex) := by
    rw [← take_add]
    congr 1
    omega
  have hdrop : l.drop newIndex =
      (l.drop newIndex).take (oldIndex - newIndex) ++ l.drop oldIndex := by
    conv_lhs => rw [← take_append_drop (oldIndex - newIndex) (l.drop newIndex)]
    rw [drop_drop]
    congr 2
    omega
  have hm' : m v.base = some (filled (l.take newIndex) ++
      (filled ((l.drop newIndex).take (oldIndex - newIndex)) ++ (raw n ++
        (filled (l.drop oldIndex) ++ raw room)))) := by
    rw [hm]
    unfold gap
    rw [htake]
    simp
  have hlen : (filled (l.take newIndex)).length = newIndex := by
    rw [filled_length, length_take]
    omega
  rw [moveAfter_same hn hm' (by rw [hlen]) hlen.symm (by
    rw [length_take, length_drop]
    omega)]
  unfold gap
  conv_rhs => rw [hdrop]
  simp

theorem gap_up (hm : m v.base = some (gap l n oldIndex room)) (hn : 0 < n)
    (hlt : oldIndex < newIndex) (hle : newIndex ≤ l.length) :
    Store.moveBefore v.base v.base oldIndex (oldIndex + n) (newIndex - oldIndex) m =
      some (m.put v.base (gap l n newIndex room)) := by
  have htake : l.take newIndex = l.take oldIndex ++ (l.drop oldIndex).take (newIndex - oldIndex) := by
    rw [← take_add]
    congr 1
    omega
  have hdrop : l.drop oldIndex =
      (l.drop oldIndex).take (newIndex - oldIndex) ++ l.drop newIndex := by
    conv_lhs => rw [← take_append_drop (newIndex - oldIndex) (l.drop oldIndex)]
    rw [drop_drop]
    congr 2
    omega
  have hm' : m v.base = some (filled (l.take oldIndex) ++ (raw n ++
      (filled ((l.drop oldIndex).take (newIndex - oldIndex)) ++
        (filled (l.drop newIndex) ++ raw room)))) := by
    rw [hm]
    unfold gap
    conv_lhs => rw [hdrop]
    simp
  have hlen : (filled (l.take oldIndex)).length = oldIndex := by
    rw [filled_length, length_take]
    omega
  rw [moveBefore_same hn hm' hlen.symm (by rw [hlen]) (by
    rw [length_take, length_drop]
    omega)]
  unfold gap
  rw [htake]
  simp

theorem le_bufferSize (hes : 0 < v.elementSize) (hbytes : n * v.elementSize < 2 ^ 32) :
    n ≤ v.bufferSize n := by
  unfold bufferSize
  rw [mul_comm, wrap_of_lt hbytes]
  split
  · rw [Nat.mul_div_cancel _ hes]
  · rw [le_div_iff_mul_le hes]
    omega

theorem layout_buffer {ls : ℕ} {base : Place} {cells cells' : Cells α} (h : base ≠ .buffer) :
    update ((layout ls base cells).put .buffer cells') .buffer none =
      layout ls base cells := by
  funext p
  unfold Store.put layout
  by_cases hp : p = .buffer
  · subst hp
    rw [update_self, if_neg h.symm, if_neg (by decide)]
  · rw [update_of_ne hp, update_of_ne hp]

theorem Shape.base_ne_buffer {cells : Cells α} (h : v.Shape cells) : v.base ≠ .buffer := by
  rcases h.base with ⟨hb, -⟩ | ⟨b, hb, -, -⟩ <;> rw [hb] <;> simp

/-- **Elements move by way of a buffer**: there is a gap where they were, then where they go. -/
theorem move_spec (h : v.Holds l) (hn : 0 < n) (hold : oldIndex + n ≤ l.length)
    (hnew : newIndex + n ≤ l.length) (hne : oldIndex ≠ newIndex) :
    ((Store.moveBefore .buffer v.base 0 oldIndex n
      (v.mem.put .buffer (raw (v.bufferSize n)))).bind fun mem =>
    (if newIndex < oldIndex then
      Store.moveAfter v.base (wrap (newIndex + n)) v.base newIndex (oldIndex - newIndex) mem
    else
      Store.moveBefore v.base v.base oldIndex (wrap (oldIndex + n)) (newIndex - oldIndex)
        mem).bind fun mem =>
    (Store.moveBefore v.base .buffer newIndex 0 n mem).bind fun mem =>
    (mem.free .buffer).map fun mem => ({ v with mem := mem }, Result.value 0)) =
      some ({ v with
        mem := layout v.localSpace v.base
          (filled (insertAt (l.take oldIndex ++ l.drop (oldIndex + n)) newIndex
            ((l.drop oldIndex).take n)) ++ raw (v.avail - v.size)) }, .value 0) := by
  have hsize := h.size
  have hlt := h.size_lt
  have hbuf := h.shape.base_ne_buffer
  have hmid : ((l.drop oldIndex).take n).length = n := by
    rw [length_take, length_drop]
    omega
  have htake : (l.take oldIndex).length = oldIndex := by
    rw [length_take]
    omega
  have hrest : (l.take oldIndex ++ l.drop (oldIndex + n)).length = l.length - n := by
    rw [length_append, htake, length_drop]
    omega
  have hbytes : n * v.elementSize < 2 ^ 32 :=
    Nat.lt_of_le_of_lt (mul_le_mul_right _ (by have := h.le_avail; omega)) h.shape.bytes
  obtain ⟨k, hk⟩ := Nat.exists_eq_add_of_le (le_bufferSize h.shape.pos hbytes)
  have hl : (filled l : Cells α) = filled (l.take oldIndex) ++
      (filled ((l.drop oldIndex).take n) ++ filled (l.drop (oldIndex + n))) := by
    rw [filled_take_drop l oldIndex, filled_take_drop (l.drop oldIndex) n, drop_drop]
  have hgap : (filled (l.take oldIndex) ++ (raw n ++ (filled (l.drop (oldIndex + n)) ++
      raw (v.avail - v.size))) : Cells α) =
      gap (l.take oldIndex ++ l.drop (oldIndex + n)) n oldIndex (v.avail - v.size) := by
    unfold gap
    rw [take_left' htake, drop_left' htake]
  generalize hrestl : l.take oldIndex ++ l.drop (oldIndex + n) = rest at hrest hgap ⊢
  generalize hmidl : (l.drop oldIndex).take n = mid at hmid hl ⊢
  -- the elements go to the buffer
  have hp : v.mem.put .buffer (raw (v.bufferSize n)) .buffer =
      some ([] ++ (raw mid.length ++ raw k)) := by
    rw [put_self, hk, raw_add, hmid]
    rfl
  have hq : v.mem.put .buffer (raw (v.bufferSize n)) v.base =
      some (filled (l.take oldIndex) ++ (filled mid ++ (filled (l.drop (oldIndex + n)) ++
        raw (v.avail - v.size)))) := by
    rw [put_ne _ hbuf, h.shape.stored, layout_base, hl]
    simp
  rw [moveBefore_other (i := 0) hbuf.symm hp hq rfl (by rw [filled_length, htake]) hmid.symm,
    hmid, hgap, put_put, put_comm _ _ hbuf.symm, h.shape.stored, layout_put]
  dsimp only [Option.bind]
  -- the others make room for them
  have hshift : (if newIndex < oldIndex then
      Store.moveAfter v.base (wrap (newIndex + n)) v.base newIndex (oldIndex - newIndex)
        ((layout v.localSpace v.base (gap rest n oldIndex (v.avail - v.size))).put .buffer
          ([] ++ (filled mid ++ raw k)))
    else
      Store.moveBefore v.base v.base oldIndex (wrap (oldIndex + n)) (newIndex - oldIndex)
        ((layout v.localSpace v.base (gap rest n oldIndex (v.avail - v.size))).put .buffer
          ([] ++ (filled mid ++ raw k)))) =
      some ((layout v.localSpace v.base (gap rest n newIndex (v.avail - v.size))).put .buffer
        ([] ++ (filled mid ++ raw k))) := by
    have hm : (layout v.localSpace v.base (gap rest n oldIndex (v.avail - v.size))).put .buffer
        ([] ++ (filled mid ++ raw k)) v.base = some (gap rest n oldIndex (v.avail - v.size)) := by
      rw [put_ne _ hbuf, layout_base]
    by_cases hdown : newIndex < oldIndex
    · rw [if_pos hdown, wrap_of_lt (by omega : newIndex + n < 2 ^ 32),
        gap_down hm hn hdown (by omega), put_comm _ _ hbuf.symm, layout_put]
    · rw [if_neg hdown, wrap_of_lt (by omega : oldIndex + n < 2 ^ 32),
        gap_up hm hn (by omega) (by omega), put_comm _ _ hbuf.symm, layout_put]
  rw [hshift]
  dsimp only
  -- the elements come back from the buffer
  have hp' : (layout v.localSpace v.base (gap rest n newIndex (v.avail - v.size))).put .buffer
      ([] ++ (filled mid ++ raw k)) v.base =
      some (filled (rest.take newIndex) ++ (raw mid.length ++ (filled (rest.drop newIndex) ++
        raw (v.avail - v.size)))) := by
    rw [put_ne _ hbuf, layout_base, hmid]
    rfl
  have hnew' : (filled (rest.take newIndex)).length = newIndex := by
    rw [filled_length, length_take]
    omega
  rw [moveBefore_other (j := 0) hbuf hp' (put_self _) hnew'.symm rfl hmid.symm,
    put_comm _ _ hbuf.symm, put_put, layout_put, ← insertAt_cells, hmid,
    nil_append, ← raw_add]
  dsimp only
  rw [free_eq (put_self _), layout_buffer hbuf]
  rfl

theorem Holds.moveItems {count : ℕ} (h : v.Holds l) (hnew : newIndex < 2 ^ 32)
    (hcan : 0 < count → oldIndex < v.size → oldIndex + count < 2 ^ 32 ∧
      (newIndex + min count (v.size - oldIndex) < 2 ^ 32 ∨
        32 < v.elementSize * min count (v.size - oldIndex) ∧ env.fresh = none)) :
    Keeps (v.moveItems newIndex oldIndex count env) l
      (insertAt (l.take oldIndex ++ l.drop (oldIndex + count)) newIndex
        ((l.drop oldIndex).take count)) := by
  have hsize := h.size
  unfold SAbstractVector.moveItems
  by_cases hdo : 0 < count ∧ oldIndex < v.size
  · obtain ⟨hwrap, hcan⟩ := hcan hdo.1 hdo.2
    have hclamp : (if v.size < wrap (oldIndex + count) then v.size - oldIndex else count) =
        min count (v.size - oldIndex) := by
      rw [wrap_of_lt hwrap]
      split <;> omega
    have hdrop : l.drop (oldIndex + count) = l.drop (oldIndex + min count (v.size - oldIndex)) := by
      rcases le_total count (v.size - oldIndex) with hc | hc
      · rw [min_eq_left hc]
      · rw [min_eq_right hc, drop_of_length_le (by omega),
          drop_of_length_le (by omega)]
    have htake : (l.drop oldIndex).take count =
        (l.drop oldIndex).take (min count (v.size - oldIndex)) := by
      rw [hsize, ← length_drop, take_eq_take_min]
    rw [if_pos hdo]
    dsimp only
    rw [hclamp, hdrop, htake]
    generalize hn : min count (v.size - oldIndex) = n at hcan ⊢
    have hbytes : v.elementSize * n < 2 ^ 32 := by
      rw [mul_comm]
      exact Nat.lt_of_le_of_lt (mul_le_mul_right _ (by have := h.le_avail; omega)) h.shape.bytes
    rw [wrap_of_lt hbytes]
    have hnone : Keeps (some (v, .noMemory)) l (insertAt
        (l.take oldIndex ++ l.drop (oldIndex + n)) newIndex ((l.drop oldIndex).take n)) := by
      refine ⟨v, .noMemory, rfl, ?_⟩
      rw [if_pos rfl]
      exact h
    by_cases hw : newIndex + n < 2 ^ 32
    · have hrest : (l.take oldIndex ++ l.drop (oldIndex + n)).length = v.size - n := by
        rw [length_append, length_take, length_drop]
        omega
      have hclamp' : (if v.size < wrap (newIndex + n) then v.size - n else newIndex) =
          min newIndex (v.size - n) := by
        rw [wrap_of_lt hw]
        split <;> omega
      rw [hclamp', ← insertAt_min, hrest]
      rw [← insertAt_min, hrest] at hnone
      by_cases hne : oldIndex ≠ min newIndex (v.size - n)
      · rw [if_pos hne]
        by_cases hmem : 32 < v.elementSize * n ∧ env.fresh = none
        · rw [if_pos hmem]
          exact hnone
        · rw [if_neg hmem, move_spec h (by omega) (by omega) (by omega) hne]
          refine ⟨_, .value 0, rfl, ?_⟩
          rw [if_neg (by simp)]
          have hlen : (insertAt (l.take oldIndex ++ l.drop (oldIndex + n)) (min newIndex (v.size - n))
              ((l.drop oldIndex).take n)).length = v.size := by
            rw [insertAt_length, hrest, length_take, length_drop]
            omega
          have hle := h.le_avail
          refine ⟨hlen.symm, hle, h.shape.pos, rfl, ?_, h.shape.bytes, h.shape.base⟩
          dsimp only
          rw [length_append, filled_length, raw_length, hlen]
          omega
      · rw [if_neg hne]
        refine ⟨v, .value 0, rfl, ?_⟩
        rw [if_neg (by simp), ← not_not.1 hne]
        have htake' : (l.take oldIndex).length = oldIndex := by
          rw [length_take]
          omega
        have heq : insertAt (l.take oldIndex ++ l.drop (oldIndex + n)) oldIndex
            ((l.drop oldIndex).take n) = l := by
          unfold insertAt
          rw [take_left' htake', drop_left' htake', append_assoc, ← drop_drop,
            take_append_drop, take_append_drop]
        rw [heq]
        exact h
    · -- a new index that wraps around is another one, and there is no memory to go there
      have hmem := hcan.resolve_left hw
      have hnowrap : ¬ v.size < wrap (newIndex + n) := by
        unfold wrap
        omega
      rw [if_neg hnowrap, if_pos (by omega), if_pos hmem]
      exact hnone
  · rw [if_neg hdo]
    refine ⟨v, .value 0, rfl, ?_⟩
    rw [if_neg (by simp)]
    have heq : insertAt (l.take oldIndex ++ l.drop (oldIndex + count)) newIndex
        ((l.drop oldIndex).take count) = l := by
      by_cases hc : count = 0
      · rw [hc, add_zero, take_append_drop, take_zero]
        unfold insertAt
        rw [append_nil, take_append_drop]
      · rw [take_of_length_le (by omega), drop_of_length_le (by omega), append_nil,
          drop_of_length_le (by omega), take_nil]
        unfold insertAt
        rw [append_nil, take_append_drop]
    rw [heq]
    exact h

end Move

/-! ### Runs -/

/-- **The invariant**: nothing was lost and the vector holds the list. -/
structure Inv (s : State α) : Prop where
  defined : s.faulted = false
  holds : s.vec.Holds s.items

theorem Inv.refines (h : Inv s) : Refines s :=
  ⟨h.defined, h.holds.size, h.holds.le_avail, h.holds.shape.stored, h.holds.shape.base⟩

theorem Inv.init {elementSize : ℕ} (hpos : 0 < elementSize) :
    Inv (⟨SAbstractVector.init elementSize, [], false⟩ : State α) := by
  refine ⟨rfl, rfl, Nat.zero_le _, hpos, ?_, ?_, ?_, .inl ⟨rfl, rfl⟩⟩
  · funext p
    unfold layout SAbstractVector.init localSpace
    by_cases hp : p = .localSpace
    · simp [hp]
    · simp [hp]
  · simp [SAbstractVector.init]
  · have h8 : 8 / elementSize * elementSize ≤ 8 := div_mul_le_self 8 elementSize
    show 8 / elementSize * elementSize < 2 ^ 32
    omega

theorem Keeps.of_some {l' : List α} {o : Option (SAbstractVector α)} (h : ∃ v', o = some v' ∧ v'.Holds l') :
    Keeps (o.map fun v => (v, .value 0)) l l' := by
  obtain ⟨v', hv', hholds⟩ := h
  rw [hv']
  refine ⟨v', .value 0, rfl, ?_⟩
  rw [if_neg (by simp)]
  exact hholds

theorem Items.values_length (h : items.Valid l) :
    (items.values l).length = items.count := by
  cases items with
  | given xs => rfl
  | own i n =>
    have hi : i + n ≤ l.length := h
    show ((l.drop i).take n).length = n
    rw [length_take, length_drop]
    omega

/-- **A call that does not go wrong** is the operation on the list, or fails and keeps it. -/
theorem Holds.perform [Inhabited α] {a : Action α × Env} (h : s.vec.Holds s.items)
    (hvalid : a.1.Valid s.items) (hfresh : ∀ b ∈ a.2.fresh, s.vec.mem (.block b) = none)
    (hq : Observes s a) : Keeps (s.vec.perform a.2 a.1) s.items (a.1.apply s.items) := by
  obtain ⟨action, env⟩ := a
  cases action with
  | add item => exact h.add hq.1 hvalid hq.2 hfresh
  | addAt item index => exact h.addAt hq.1 hvalid hq.2 hfresh
  | addArrayAt array index => exact h.addArrayAt hq hfresh (Items.values_length hvalid)
  | addVectorAt o index =>
    cases o with
    | some xs => exact h.addArrayAt hq hfresh rfl
    | none =>
      have hall := h.addArrayAt hq hfresh (Items.values_length (by
        show 0 + s.vec.size ≤ s.items.length
        rw [h.size]
        omega))
      have hvalues : (Items.own 0 s.vec.size : Items α).values s.items = s.items := by
        show (s.items.drop 0).take s.vec.size = s.items
        rw [drop_zero, h.size, take_length]
      rw [hvalues] at hall
      exact hall
  | assign o =>
    apply Keeps.of_some
    cases o with
    | some xs => exact h.assign ⟨hvalid xs rfl, hq⟩ hfresh
    | none => exact h.assign hq hfresh
  | setSize totalCount item => exact h.setSize hvalid hq hfresh
  | setCapacity totalSpace => exact Keeps.of_some (h.setCapacity hq hfresh)
  | replaceAt item index => exact h.replaceAt hvalid hq
  | removeItemsAt index count => exact Keeps.of_some (h.removeItemsAt hq hfresh)
  | moveItems newIndex oldIndex count => exact h.moveItems newIndex.isLt hq
  | makeEmpty => exact Keeps.of_some h.makeEmpty

/-- **A step that does not go wrong keeps the invariant.** -/
theorem Inv.step [Inhabited α] {s' : State α} {a : Action α × Env} (h : Inv s)
    (hs : SAbstractVector.step s a = some s') (hq : Observes s a) : Inv s' := by
  obtain ⟨⟨hvalid, hfresh⟩, hs⟩ := Option.ite_none_right_eq_some.1 hs
  obtain ⟨v, r, hv, hholds⟩ := h.holds.perform hvalid hfresh hq
  rw [hv] at hs
  obtain ⟨⟩ := hs
  exact ⟨h.defined, hholds⟩

/-- **A vector is a list**, for every size of its elements and in every state of a run of calls
that do not go wrong. -/
theorem refines_of_observes [Inhabited α] {elementSize : ℕ} (hpos : 0 < elementSize)
    (actions : List (Action α × Env))
    (h : AllSteps step Observes ⟨SAbstractVector.init elementSize, [], false⟩ actions) :
    AllStates step Refines ⟨SAbstractVector.init elementSize, [], false⟩ actions :=
  AllStates.imp (fun _ => Inv.refines) actions _
    (AllSteps.states (fun _ _ _ => Inv.step) actions _ (Inv.init hpos) h)

/-- Elements of four bytes go to the heap, with one of their own, and come back. -/
theorem refines_of_observes_words :
    AllStates step Refines ⟨SAbstractVector.init 4, ([] : List ℕ), false⟩
      [(.add (some (.given 7)), ⟨false, some 0⟩), (.add (some (.own 0)), ⟨false, some 0⟩),
        (.addAt (some (.given 9)) 1, ⟨false, some 0⟩), (.moveItems 0 1 2, ⟨false, none⟩),
        (.removeItemsAt 1 5, ⟨false, none⟩)] := by
  apply refines_of_observes (by decide)
  refine AllSteps.cons rfl ⟨⟨by decide, .inr fun _ => ⟨by decide, by decide⟩⟩, ?_⟩ ?_
  · rintro _ ⟨⟩
    trivial
  refine AllSteps.cons rfl ⟨⟨by decide, .inr fun _ => ⟨by decide, by decide⟩⟩, ?_⟩ ?_
  · rintro _ ⟨⟩
    exact .inr ⟨fun hn => absurd hn.1 (by decide), by decide⟩
  refine AllSteps.cons rfl ⟨⟨by decide, .inr fun _ => ⟨by decide, by decide⟩⟩, ?_⟩ ?_
  · rintro _ ⟨⟩
    trivial
  refine AllSteps.cons rfl (fun _ _ => ⟨by decide, .inl (by decide)⟩) ?_
  exact AllSteps.cons rfl (fun _ _ => ⟨by decide, fun hlt => absurd hlt (by decide)⟩) trivial

/-- A vector that is assigned to itself loses its elements. -/
theorem not_refines :
    ¬ AllStates step Refines ⟨SAbstractVector.init 4, ([] : List ℕ), false⟩
      [(.add (some (.given 7)), ⟨false, none⟩), (.assign none, ⟨false, none⟩)] := by
  intro h
  have hlast := h.last (rfl : run step (⟨SAbstractVector.init 4, [], false⟩ : State ℕ) _ = some _)
  exact absurd hlast.size (by decide)

end OpenBinder.SAbstractVector
