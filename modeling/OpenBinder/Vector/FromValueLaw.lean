import OpenBinder.Vector.FromValue

/-!
# Vectors are set from values

* `setCapacity_spec`, `constructFrom_spec`: the storage for the elements, and the elements.
* `Holds.safe_iff`: what is safe.
-/

namespace OpenBinder.SAbstractVector

open Lib Nat

variable {α : Type} {v w : SAbstractVector α} {l : List α} {m : Marshal α} {value : SValue}
  {env : Env} {count : ℕ}

/-! ### Storage -/

theorem roundUp_canUse (v : SAbstractVector α) (count : ℕ) :
    v.roundUp (wrap (wrap (count + 1) * 2) / 2) = capacity v.elementSize count := by
  have hmod : wrap (wrap (count + 1) * 2) / 2 = (count + 1) % 2 ^ 31 := by
    unfold wrap
    omega
  rw [hmod]
  rfl

theorem setCapacity_spec (env : Env) (h : w.Holds []) (hbase : w.base = .localSpace) (hcount : count < 2 ^ 32) :
    (count ≤ w.localSpace ∨ env.fresh = none) ∧ w.setCapacity count env = some w ∨
      w.localSpace < count ∧ ∃ b, env.fresh = some b ∧ w.setCapacity count env = some { w with
        heap := some b
        avail := capacity w.elementSize count
        base := .block b
        mem := layout w.localSpace (.block b) (raw (capacity w.elementSize count)) } := by
  have hsize : w.size = 0 := h.size
  have havail : w.avail = w.localSpace := by
    rcases h.shape.base with ⟨-, havail⟩ | ⟨b, hb, -⟩
    · exact havail
    · rw [hbase] at hb
      exact absurd hb (by simp)
  have hstored : w.mem = layout w.localSpace .localSpace (raw w.localSpace) := by
    rw [h.shape.stored, hbase, hsize, havail]
    rfl
  have htotal : wrap (w.size + (max count w.size - w.size)) = count := by
    rw [hsize, Nat.zero_add, Nat.sub_zero, Nat.max_zero, wrap_of_lt hcount]
  unfold setCapacity grow
  dsimp only
  rw [htotal, havail]
  by_cases hle : count ≤ w.localSpace
  · refine .inl ⟨.inl hle, ?_⟩
    rw [if_neg (not_lt.2 hle), growGap, if_neg (by rw [hsize]; exact not_lt_zero _)]
    rfl
  · have hlt := not_le.1 hle
    rw [if_pos hlt, if_pos hlt, if_neg fun hno => absurd hno.1 (lt_irrefl _)]
    cases hfresh : env.fresh with
    | none => exact .inl ⟨.inr rfl, rfl⟩
    | some b =>
      refine .inr ⟨hlt, b, rfl, ?_⟩
      dsimp only
      rw [roundUp_canUse, moveOut, if_pos hsize, Option.bind_some,
        if_neg (lt_irrefl _), Option.bind_some, hstored, layout_to_block, setHeap_spec,
        ← roundUp_canUse, blockSize_roundUp h.shape.pos]
      rfl

/-- A new block has its storage where it says, if it has more room than the local one. -/
theorem holds_block (h : w.Holds []) {b : ℕ}
    (hlt : w.localSpace < capacity w.elementSize count) : Holds { w with
      heap := some b
      avail := capacity w.elementSize count
      base := .block b
      mem := layout w.localSpace (.block b) (raw (capacity w.elementSize count)) } ([] : List α) := by
  have hsize : w.size = 0 := h.size
  refine ⟨hsize, ?_, h.shape.pos, ?_, ?_, ?_, .inr ⟨b, rfl, rfl, hlt⟩⟩
  · rw [hsize]
    exact zero_le _
  · dsimp only
    rw [hsize]
    rfl
  · dsimp only
    rw [hsize]
    simp
  · show capacity w.elementSize count * w.elementSize < 2 ^ 32
    rw [← roundUp_canUse]
    exact roundUp_mul_lt w _

/-! ### Elements -/

theorem constructed [Inhabited α] (h : w.Holds []) (hle : count ≤ w.avail) :
    ∃ w', w.fill (Store.constructAll w.base 0 (List.replicate count default)) = some w' ∧
      w'.avail = w.avail ∧
      w'.Shape (filled (List.replicate count default) ++ raw (w.avail - count)) := by
  have hraw : (raw (w.avail - w.size) : Cells α) = raw count ++ raw (w.avail - count) := by
    rw [h.size, ← raw_add, List.length_nil]
    congr 1
    omega
  have hm : w.mem w.base = some ([] ++ (raw (List.replicate count (default : α)).length ++
      raw (w.avail - count))) := by
    rw [h.shape.stored, layout_base, List.length_replicate, hraw]
    rfl
  have hconstruct : Store.constructAll w.base 0 (List.replicate count default) w.mem =
      some (w.mem.put w.base (filled (List.replicate count default) ++ raw (w.avail - count))) :=
    Store.constructAll_eq (a := []) hm rfl
  obtain ⟨w', hw', -, havail, hshape⟩ := fill_spec h.shape hconstruct (by simp [hle])
  exact ⟨w', hw', havail, hshape⟩

/-- **The elements are assigned to** what the value has, where they are constructed once. -/
theorem constructFrom_spec [Inhabited α] (value : SValue) (h : w.Holds []) (hle : count ≤ w.avail)
    (hagain : m.again = false) : ∃ w', w.constructFrom m value count =
        some (w', (m.construct value (List.replicate count default)).2) ∧
      Holds { w' with size := count } (m.construct value (List.replicate count default)).1 := by
  obtain ⟨w1, h1, havail1, hshape1⟩ := constructed h hle
  have hlen : (m.construct value (List.replicate count default)).1.length = count := by
    rw [m.length_construct, List.length_replicate]
  have hm : w1.mem w1.base = some ([] ++ (filled (List.replicate count (default : α)) ++
      raw (w.avail - count))) := by
    rw [hshape1.stored, layout_base]
    rfl
  have hassign : Store.assignAll w1.base 0 (m.construct value (List.replicate count default)).1
      w1.mem = some _ := Store.assignAll_eq hm rfl (by rw [hlen, List.length_replicate])
  obtain ⟨w2, h2, -, havail2, hshape2⟩ := fill_spec hshape1 hassign (by simp [hlen, havail1, hle])
  refine ⟨w2, ?_, Shape.holds hshape2 (havail2.trans havail1) hlen hle⟩
  rw [constructFrom, h1, Option.bind_some, hagain, if_neg Bool.false_ne_true, Option.bind_some]
  exact congrArg (Option.map _) h2

theorem constructFrom_again [Inhabited α] (h : w.Holds []) (hle : count ≤ w.avail)
    (hpos : 0 < count) (hagain : m.again = true) : w.constructFrom m value count = none := by
  obtain ⟨w1, h1, -, hshape1⟩ := constructed h hle
  obtain ⟨n, rfl⟩ := Nat.exists_eq_add_of_lt hpos
  have hm : w1.mem w1.base = some (some default :: (filled (List.replicate n default) ++
      raw (w.avail - (0 + n + 1)))) := by
    rw [hshape1.stored, layout_base, Nat.zero_add, List.replicate_succ]
    rfl
  have hlost : w1.fill (Store.constructAll w1.base 0 (List.replicate (0 + n + 1) default)) = none := by
    rw [fill, Nat.zero_add, List.replicate_succ, Store.constructAll, Store.construct, hm]
    rfl
  rw [constructFrom, h1, Option.bind_some, hagain, if_pos rfl, hlost]
  rfl

/-! ### Vectors -/

theorem countOf_lt (v : SAbstractVector α) (value : SValue) : v.countOf value < 2 ^ 32 := by
  have hwrap : ∀ n, wrap n < 2 ^ 32 := fun n => mod_lt _ (by decide)
  unfold countOf
  split
  · split
    · exact lt_of_le_of_lt (div_le_self _ _) (hwrap _)
    · decide
  · exact hwrap _

/-- **What `SetFromValue` does**: nothing but empty the vector, for no elements or where there is no
room, or construct the elements. -/
theorem Holds.setFromValue_cases [Inhabited α] (h : v.Holds l) (m : Marshal α) (value : SValue)
    (env : Env) :
    v.countOf value = 0 ∧ (∃ w, v.setFromValue m value env = some (w, .ok) ∧ w.Holds []) ∨
    v.countOf value ≠ 0 ∧ HasNone v.elementSize (v.countOf value) env ∧
      (∃ w, v.setFromValue m value env = some (w, .noMemory) ∧
        (w.Holds [] ↔ HasRoom v.elementSize (v.countOf value) env)) ∨
    ¬HasNone v.elementSize (v.countOf value) env ∧
      HasRoom v.elementSize (v.countOf value) env ∧
      ∃ w : SAbstractVector α, w.Holds [] ∧ v.countOf value ≤ w.avail ∧
        v.setFromValue m value env = (w.constructFrom m value (v.countOf value)).map fun r =>
          ({ r.1 with size := v.countOf value }, if r.2 = true then .ok else .badData) := by
  obtain ⟨w, hempty, hw, hbase, hes⟩ := h.makeEmpty_local
  have hlocal : w.localSpace = 8 / v.elementSize := by rw [localSpace, hes]
  have hset : v.setFromValue m value env = if v.countOf value = 0 then some (w, .ok) else
      (w.setCapacity (v.countOf value) env).bind fun w =>
        if w.avail < v.countOf value then some (w, .noMemory)
        else (w.constructFrom m value (v.countOf value)).map fun r =>
          ({ r.1 with size := v.countOf value }, if r.2 = true then .ok else .badData) := by
    rw [setFromValue, hempty]
    rfl
  have havail : w.avail = w.localSpace := by
    rcases hw.shape.base with ⟨-, havail⟩ | ⟨b, hb, -⟩
    · exact havail
    · rw [hbase] at hb
      exact absurd hb (by simp)
  have hcount := countOf_lt v value
  rw [hset]
  generalize v.countOf value = count at *
  unfold HasNone HasRoom
  rw [← hlocal, ← hes]
  by_cases hzero : count = 0
  · rw [if_pos hzero]
    exact .inl ⟨hzero, w, rfl, hw⟩
  rw [if_neg hzero]
  refine .inr ?_
  rcases setCapacity_spec env hw hbase hcount with ⟨hfit, hcap⟩ | ⟨hlt, b, hfresh, hcap⟩
  · rw [hcap, Option.bind_some]
    by_cases hle : count ≤ w.localSpace
    · rw [if_neg (by omega)]
      exact .inr ⟨by omega, .inl hle, w, hw, by omega, rfl⟩
    · have hnone := hfit.resolve_left hle
      rw [if_pos (by omega)]
      exact .inl ⟨hzero, .inr ⟨by omega, .inl hnone⟩, w, rfl,
        iff_of_true hw (.inr (.inl hnone))⟩
  · rw [hcap, Option.bind_some]
    have hsome : ¬env.fresh = none := by simp [hfresh]
    by_cases hle : capacity w.elementSize count < count
    · rw [if_pos hle]
      refine .inl ⟨hzero, .inr ⟨hlt, .inr hle⟩, _, rfl, fun hholds => ?_, fun hroom => ?_⟩
      · rcases hholds.shape.base with ⟨hb, -⟩ | ⟨b', -, -, hroom⟩
        · exact absurd hb (by simp)
        · exact .inr (.inr hroom)
      · rcases hroom with hno | hno | hroom
        · omega
        · exact absurd hno hsome
        · exact holds_block hw hroom
    · have hroom : w.localSpace < capacity w.elementSize count := by omega
      rw [if_neg hle]
      refine .inr ⟨?_, .inr (.inr hroom), _, holds_block hw hroom, not_lt.1 hle, rfl⟩
      rintro (hno | ⟨-, hno | hno⟩)
      · exact hzero hno
      · exact hsome hno
      · exact hle hno

/-- **`SetFromValue` is safe** where the storage is what it says to be, and no element is constructed
twice. -/
theorem Holds.safe_iff [Inhabited α] (h : v.Holds l) (m : Marshal α) (value : SValue) (env : Env) :
    v.Safe m value env ↔ HasRoom v.elementSize (v.countOf value) env ∧
      (m.again = true → HasNone v.elementSize (v.countOf value) env) := by
  unfold Safe
  rcases h.setFromValue_cases m value env with ⟨hzero, w, hset, hw⟩ | ⟨-, hnone, w, hset, hw⟩ |
    ⟨hnone, hroom, w, hw, hle, hset⟩
  · rw [hset, hzero]
    exact iff_of_true ⟨w, .ok, [], rfl, hw, rfl⟩ ⟨.inl (zero_le _), fun _ => .inl rfl⟩
  · rw [hset, ← hw]
    constructor
    · rintro ⟨v', r, l', hv', hholds, hlen⟩
      obtain ⟨⟩ := hv'
      rw [if_pos rfl] at hlen
      exact ⟨List.length_eq_zero_iff.1 hlen ▸ hholds, fun _ => hnone⟩
    · rintro ⟨hholds, -⟩
      exact ⟨w, .noMemory, [], rfl, hholds, rfl⟩
  · rw [hset]
    have hpos : 0 < v.countOf value := pos_of_ne_zero fun hzero => hnone (.inl hzero)
    cases hagain : m.again with
    | true =>
      rw [constructFrom_again hw hle hpos hagain]
      refine iff_of_false ?_ fun hno => hnone (hno.2 rfl)
      rintro ⟨v', r, l', hno, -⟩
      exact absurd hno (by simp)
    | false =>
      obtain ⟨w', hfrom, hholds⟩ := constructFrom_spec value hw hle hagain
      rw [hfrom]
      refine iff_of_true ⟨_, _, _, rfl, hholds, ?_⟩ ⟨hroom, fun hno => absurd hno (by simp)⟩
      rw [m.length_construct, List.length_replicate, if_neg]
      split <;> simp

end OpenBinder.SAbstractVector
