import OpenBinder.Lib.Kmp
import OpenBinder.Lib.Occurs
import OpenBinder.Text.Search
import Mathlib.Data.List.TakeWhile

/-!
# What searches find

* `findAfter_isFirst`: the search with the table gives the first occurrence, in as many steps as it has.
* `isFirst_searchAfter_iff`: the search that goes by the zeros gives it exactly where no zero of the
  string hides it.
* `scanBefore_isLast`: the search backwards gives the last occurrence.
* `searches_iff`: all searches agree with this, and the overloads with each other, exactly for patterns
  that are not empty and not hidden.
-/

namespace OpenBinder.SString

open Lib List Nat

section Characters

variable {α : Type*} [DecidableEq α] {nul : α} {lower : α → α} {s str p pattern : List α}
  {o offset : ℕ} {limit r : ℤ}

/-- What makes characters lower case leaves the zero alone. -/
structure Lowers (nul : α) (lower : α → α) : Prop where
  iff : ∀ c, lower c = nul ↔ c = nul

omit [DecidableEq α] in
theorem lowers_id (nul : α) : Lowers nul (id : α → α) := ⟨fun _ => Iff.rfl⟩

omit [DecidableEq α] in
theorem Lowers.notMem (h : Lowers nul lower) (hp : nul ∉ p) : nul ∉ p.map lower := by
  intro hmem
  obtain ⟨c, hc, heq⟩ := mem_map.1 hmem
  exact hp ((h.iff c).1 heq ▸ hc)

/-! ### With the table -/

theorem nextLoop_spec {q : ℕ → α} {length : ℕ} :
    ∀ (fuel : ℕ) {next : ℕ → ℤ} {i : ℕ} {j : ℤ}, Kmp.Building q next i j → i < length →
      2 * (length : ℤ) ≤ fuel + 2 * i - j →
      ∃ next', nextLoop q length fuel next i j = some next' ∧
        ∀ k ≤ length, Kmp.IsNext q k (next' k) := by
  intro fuel
  -- every step moves `2 * i - j` up
  induction fuel with
  | zero =>
    intro next i j h hi hfuel
    have := h.le
    omega
  | succ fuel ih =>
    intro next i j h hi hfuel
    rw [nextLoop]
    by_cases hj : j = -1 ∨ q i = q j.toNat
    · rw [if_pos hj]
      have hmatch := h.match hj
      by_cases hlt : i + 1 < length
      · simp only [if_pos hlt]
        exact ih hmatch hlt (by push_cast at hfuel ⊢; omega)
      · simp only [if_neg hlt]
        exact ⟨_, rfl, fun k hk => hmatch.table k (by omega)⟩
    · rw [if_neg hj]
      obtain ⟨hne, hsym⟩ := not_or.1 hj
      have hfall := h.fall_lt hne
      exact ih (h.fall hne hsym) hi (by push_cast at hfuel; omega)

theorem kmpLoop_spec {q t : ℕ → α} {length n : ℕ} {next : ℕ → ℤ} (hm : 0 < length)
    (htable : ∀ k ≤ length, Kmp.IsNext q k (next k)) :
    ∀ (fuel : ℕ) {ii : ℕ} {jj : ℤ}, Kmp.Scanning q length t o ii jj → ii ≤ n →
      2 * (n : ℤ) + 2 ≤ fuel + 2 * ii - jj →
      ∃ r, kmpLoop q length next t n fuel ii jj = some r ∧
        ((∃ k : ℕ, r = k ∧ o ≤ k ∧ k + length ≤ n ∧ Kmp.Matches q length t k ∧
            ∀ j, o ≤ j → Kmp.Matches q length t j → k ≤ j) ∨
          r = -1 ∧ ∀ k, o ≤ k → k + length ≤ n → ¬ Kmp.Matches q length t k) := by
  intro fuel
  induction fuel with
  | zero =>
    intro ii jj h hi hfuel
    have := h.le
    omega
  | succ fuel ih =>
    intro ii jj h hi hfuel
    rw [kmpLoop]
    by_cases hii : ii < n
    · rw [if_pos hii]
      by_cases hj : jj = -1 ∨ q jj.toNat = t ii
      · rw [if_pos hj]
        by_cases hge : (length : ℤ) ≤ jj + 1
        · simp only [if_pos hge]
          obtain ⟨k, hk, hok, hmatch, hleast⟩ := h.found hm hj hge
          refine ⟨_, rfl, .inl ⟨k, ?_, hok, by omega, hmatch, hleast⟩⟩
          exact hk
        · simp only [if_neg hge]
          exact ih (h.match hj (not_le.1 hge)) hii (by push_cast at hfuel ⊢; omega)
      · rw [if_neg hj]
        obtain ⟨hne, hsym⟩ := not_or.1 hj
        have hfall := h.fall (fun k hk => htable k hk.le) hne hsym
        have hlt : next jj.toNat < jj := by
          rcases h.border with ⟨rfl, -⟩ | ⟨b, rfl, hb, -⟩
          · exact absurd rfl hne
          · rw [Int.toNat_natCast]
            exact (htable b hb.le).lt
        exact ih hfall hi (by push_cast at hfuel; omega)
    · rw [if_neg hii]
      exact ⟨-1, rfl, .inr ⟨rfl, fun k hk hkn => h.over hm (by omega) hk hkn⟩⟩

omit [DecidableEq α] in
theorem matches_iff {k : ℕ} (hk : k + p.length ≤ s.length) :
    Kmp.Matches (charAt nul p) p.length (charAt nul s) k ↔ OccursAt p s k := by
  rw [occursAt_iff]
  refine forall₂_congr fun t ht => ?_
  rw [charAt, charAt, getD_eq_getElem?_getD, getD_eq_getElem?_getD,
    List.getElem?_eq_getElem ht, List.getElem?_eq_getElem (show k + t < s.length by omega)]
  simp

theorem findAfter_isFirst (hp : p ≠ []) (ho : o ≤ s.length) :
    ∃ r, findAfter nul s p p.length o = some r ∧ IsFirst p s o r := by
  have hpos := length_pos_of_ne_nil hp
  unfold findAfter
  by_cases hlong : p.length > s.length
  · rw [if_pos hlong]
    refine ⟨-1, rfl, .inr ⟨rfl, fun j _ hj => ?_⟩⟩
    have := hj.add_le hp
    omega
  · rw [if_neg hlong]
    obtain ⟨next, hnext, htable⟩ := @nextLoop_spec _ _ (charAt nul p) p.length
      (2 * p.length + 1) _ _ _ (Kmp.Building.start rfl : Kmp.Building _ (fun _ => -1) _ _) hpos (by push_cast; omega)
    obtain ⟨r, hr, hres⟩ := kmpLoop_spec (o := o) (t := charAt nul s) (n := s.length) hpos htable
      (2 * s.length + 2) (Kmp.Scanning.start hpos) ho (by push_cast; omega)
    refine ⟨r, by rw [hnext]; exact hr, ?_⟩
    rcases hres with ⟨k, rfl, hok, hkn, hmatch, hleast⟩ | ⟨rfl, hnone⟩
    · refine .inl ⟨k, rfl, hok, (matches_iff hkn).1 hmatch, fun j hj hocc => ?_⟩
      exact hleast j hj ((matches_iff (hocc.add_le hp)).2 hocc)
    · refine .inr ⟨rfl, fun j hj hocc => ?_⟩
      exact hnone j hj (hocc.add_le hp) ((matches_iff (hocc.add_le hp)).2 hocc)

/-! ### By the zeros -/

/-- Comparing a string with a pattern that has no zero stops at the end of the pattern exactly where
the pattern is in front. -/
theorem compares_iff (hl : Lowers nul lower) (hp : nul ∉ p) (w : List α) :
    compares nul lower (w ++ [nul]) (p ++ [nul]) = true ↔ p <+: w.map lower := by
  induction p generalizing w with
  | nil =>
    cases w <;> simp [compares]
  | cons c2 p ih =>
    obtain ⟨hc, hp⟩ := not_or.1 (mt mem_cons.2 hp)
    cases w with
    | nil =>
      have hne : lower nul ≠ c2 := fun h => hc (((hl.iff nul).2 rfl).symm.trans h)
      simp [compares, hne, Ne.symm hc]
    | cons c1 w =>
      rw [cons_append, cons_append, compares, map_cons, cons_prefix_cons]
      by_cases heq : lower c1 = c2
      · rw [if_pos ⟨heq, Ne.symm hc⟩, ih hp]
        exact ⟨fun h => ⟨heq.symm, h⟩, fun h => h.2⟩
      · rw [if_neg (fun h => heq h.1)]
        simp [Ne.symm hc, Ne.symm heq]

/-- No zero of the string is between an offset and a position. -/
def Visible (nul : α) (s : List α) (o k : ℕ) : Prop := nul ∉ (s.drop o).take (k - o)

/-- The loop over the string gives the first occurrence in front of the zero. -/
theorem scanAfter_spec (hl : Lowers nul lower) {firstc : α} {p1 : List α} (hp : nul ∉ firstc :: p1)
    (t : List α) (index : ℕ) :
    (∃ k : ℕ, scanAfter nul lower firstc (p1 ++ [nul]) (t ++ [nul]) index = ((index + k : ℕ) : ℤ) ∧
        OccursAt (firstc :: p1) (t.map lower) k ∧ nul ∉ t.take k ∧
        ∀ j, OccursAt (firstc :: p1) (t.map lower) j → nul ∉ t.take j → k ≤ j) ∨
      scanAfter nul lower firstc (p1 ++ [nul]) (t ++ [nul]) index = -1 ∧
        ∀ j, OccursAt (firstc :: p1) (t.map lower) j → nul ∉ t.take j → False := by
  obtain ⟨hfirst, hp1⟩ := not_or.1 (mt mem_cons.2 hp)
  induction t generalizing index with
  | nil =>
    right
    refine ⟨by simp [scanAfter], fun j hj _ => ?_⟩
    have := hj.length_le
    simp at this
  | cons c1 t ih =>
    rw [cons_append, scanAfter]
    by_cases hzero : c1 = nul
    · rw [if_pos hzero]
      refine .inr ⟨rfl, fun j hj hvis => ?_⟩
      -- the occurrence is at the zero, or behind it
      cases j with
      | zero =>
        rw [OccursAt, drop_zero, map_cons, cons_prefix_cons] at hj
        exact hfirst (hj.1.trans ((hl.iff c1).2 hzero)).symm
      | succ j => exact hvis (by simp [hzero])
    · rw [if_neg hzero]
      have hat : OccursAt (firstc :: p1) ((c1 :: t).map lower) 0 ↔
          lower c1 = firstc ∧ compares nul lower (t ++ [nul]) (p1 ++ [nul]) = true := by
        rw [OccursAt, drop_zero, map_cons, cons_prefix_cons, compares_iff hl hp1,
          eq_comm]
      by_cases hfound : lower c1 = firstc ∧ compares nul lower (t ++ [nul]) (p1 ++ [nul]) = true
      · rw [if_pos hfound]
        exact .inl ⟨0, rfl, hat.2 hfound, by simp, fun j _ _ => zero_le j⟩
      · rw [if_neg hfound]
        have htake : ∀ j, nul ∉ (c1 :: t).take (j + 1) ↔ nul ∉ t.take j := by
          intro j
          rw [take_succ_cons, mem_cons, not_or]
          exact ⟨fun h => h.2, fun h => ⟨Ne.symm hzero, h⟩⟩
        have hsucc : ∀ j, OccursAt (firstc :: p1) ((c1 :: t).map lower) (j + 1) ↔
            OccursAt (firstc :: p1) (t.map lower) j := fun j => Iff.rfl
        rcases ih (index + 1) with ⟨k, hk, hocc, hvis, hleast⟩ | ⟨hk, hnone⟩
        · refine .inl ⟨k + 1, ?_, (hsucc k).2 hocc, (htake k).2 hvis, fun j hj hv => ?_⟩
          · rw [hk]
            congr 1
            omega
          · cases j with
            | zero => exact absurd (hat.1 hj) hfound
            | succ j => exact succ_le_succ (hleast j ((hsucc j).1 hj) ((htake j).1 hv))
        · refine .inr ⟨hk, fun j hj hv => ?_⟩
          cases j with
          | zero => exact hfound (hat.1 hj)
          | succ j => exact hnone j ((hsucc j).1 hj) ((htake j).1 hv)

/-- A pattern that zeros of the string do not hide: where it occurs at or after an offset, it occurs
there or before with no zero between the offset and it. -/
def Shown (nul : α) (p s : List α) (o : ℕ) : Prop :=
  ∀ k, o ≤ k → OccursAt p s k → ∃ k', o ≤ k' ∧ k' ≤ k ∧ OccursAt p s k' ∧ Visible nul s o k'

omit [DecidableEq α] in
theorem visible_map_iff (hl : Lowers nul lower) {k : ℕ} :
    Visible nul (s.map lower) o (o + k) ↔ nul ∉ (s.drop o).take k := by
  rw [Visible, Nat.add_sub_cancel_left, ← map_drop, ← map_take]
  constructor
  · intro h hmem
    exact h (mem_map.2 ⟨nul, hmem, (hl.iff nul).2 rfl⟩)
  · exact fun h => hl.notMem h

/-- **The search that goes by the zeros** gives the first occurrence exactly where none is hidden. -/
theorem isFirst_searchAfter_iff (hl : Lowers nul lower) (hne : p ≠ []) (hp : nul ∉ p)
    (ho : o ≤ s.length) :
    IsFirst p (s.map lower) o (searchAfter nul lower s p o) ↔ Shown nul p (s.map lower) o := by
  obtain ⟨firstc, p1, rfl⟩ := exists_cons_of_ne_nil hne
  have hfirst : firstc ≠ nul := fun h => hp (h ▸ mem_cons_self ..)
  have hdrop : (s ++ [nul]).drop o = s.drop o ++ [nul] := drop_append_of_le_length ho
  -- positions behind the offset
  have hocc : ∀ k, OccursAt (firstc :: p1) ((s.drop o).map lower) k ↔
      OccursAt (firstc :: p1) (s.map lower) (o + k) := by
    intro k
    rw [OccursAt, OccursAt, map_drop, drop_drop]
  have hvis : ∀ k, nul ∉ (s.drop o).take k ↔ Visible nul (s.map lower) o (o + k) :=
    fun k => (visible_map_iff hl).symm
  rw [searchAfter, if_neg hfirst, hdrop]
  rcases scanAfter_spec hl hp (s.drop o) o with ⟨k, hk, hat, hv, hleast⟩ | ⟨hk, hnone⟩
  · rw [hk]
    constructor
    · rintro (⟨k', hk', -, -, hmin⟩ | ⟨h, -⟩) j hj hjocc
      · have : k' ≤ j := hmin j hj hjocc
        exact ⟨o + k, by omega, by omega, (hocc k).1 hat, (hvis k).1 hv⟩
      · omega
    · intro hshown
      refine .inl ⟨o + k, rfl, by omega, (hocc k).1 hat, fun j hj hjocc => ?_⟩
      obtain ⟨j', hoj, hle, hj', hvj⟩ := hshown j hj hjocc
      obtain ⟨i, rfl⟩ := Nat.exists_eq_add_of_le hoj
      have := hleast i ((hocc i).2 hj') ((hvis i).2 hvj)
      omega
  · rw [hk]
    constructor
    · rintro (⟨k', hk', -⟩ | ⟨-, h⟩) j hj hjocc
      · omega
      · exact absurd hjocc (h j hj)
    · intro hshown
      refine .inr ⟨rfl, fun j hj hjocc => ?_⟩
      obtain ⟨j', hoj, -, hj', hvj⟩ := hshown j hj hjocc
      obtain ⟨i, rfl⟩ := Nat.exists_eq_add_of_le hoj
      exact hnone i ((hocc i).2 hj') ((hvis i).2 hvj)

/-! ### Backwards -/

theorem scanBefore_spec (hl : Lowers nul lower) (hp : nul ∉ p) {n : ℕ} (hn : n ≤ s.length + 1) :
    (∃ k : ℕ, scanBefore nul lower s p n = k ∧ k < n ∧ OccursAt p (s.map lower) k ∧
        ∀ j < n, OccursAt p (s.map lower) j → j ≤ k) ∨
      scanBefore nul lower s p n = -1 ∧ ∀ j < n, ¬ OccursAt p (s.map lower) j := by
  induction n with
  | zero => exact .inr ⟨rfl, fun j hj => absurd hj (not_lt_zero j)⟩
  | succ n ih =>
    have hat : compares nul lower ((s ++ [nul]).drop n) (p ++ [nul]) = true ↔
        OccursAt p (s.map lower) n := by
      rw [drop_append_of_le_length (by omega), compares_iff hl hp, OccursAt, map_drop]
    rw [scanBefore]
    by_cases hfound : compares nul lower ((s ++ [nul]).drop n) (p ++ [nul]) = true
    · rw [if_pos hfound]
      exact .inl ⟨n, rfl, Nat.lt_succ_self n, hat.1 hfound, fun j hj _ => Nat.lt_succ_iff.1 hj⟩
    · rw [if_neg hfound]
      have hstep : ∀ j < n + 1, OccursAt p (s.map lower) j → j < n := by
        intro j hj hocc
        rcases Nat.lt_succ_iff_lt_or_eq.1 hj with hj | rfl
        · exact hj
        · exact absurd (hat.2 hocc) hfound
      rcases ih (by omega) with ⟨k, hk, hkn, hocc, hmost⟩ | ⟨hk, hnone⟩
      · exact .inl ⟨k, hk, by omega, hocc, fun j hj h => hmost j (hstep j hj h) h⟩
      · exact .inr ⟨hk, fun j hj h => hnone j (hstep j hj h) h⟩

/-- **The search backwards** gives the last occurrence that ends at or before the limit. -/
theorem scanBefore_isLast (hl : Lowers nul lower) (hp : nul ∉ p) {before : ℕ}
    (hle : p.length ≤ before) (hs : before ≤ s.length) :
    IsLast p (s.map lower) before (scanBefore nul lower s p (before - p.length + 1)) := by
  rcases scanBefore_spec hl hp (s := s) (n := before - p.length + 1) (by omega) with
    ⟨k, hk, hkn, hocc, hmost⟩ | ⟨hk, hnone⟩
  · exact .inl ⟨k, hk, by omega, hocc, fun j hj h => hmost j (by omega) h⟩
  · exact .inr ⟨hk, fun j hj h => hnone j (by omega) h⟩

omit [DecidableEq α] in
theorem isLast_limited (hne : p ≠ []) : IsLast p s (limited s limit) r ↔ IsLast p s limit r := by
  have hiff : ∀ j : ℕ, OccursAt p s j →
      ((j : ℤ) + p.length ≤ limited s limit ↔ (j : ℤ) + p.length ≤ limit) := by
    intro j hj
    have := hj.add_le hne
    unfold limited
    split <;> omega
  unfold IsLast
  constructor
  · rintro (⟨k, hk, hle, hocc, hmost⟩ | ⟨hk, hnone⟩)
    · exact .inl ⟨k, hk, (hiff k hocc).1 hle, hocc, fun j hj h => hmost j ((hiff j h).2 hj) h⟩
    · exact .inr ⟨hk, fun j hj h => hnone j ((hiff j h).2 hj) h⟩
  · rintro (⟨k, hk, hle, hocc, hmost⟩ | ⟨hk, hnone⟩)
    · exact .inl ⟨k, hk, (hiff k hocc).2 hle, hocc, fun j hj h => hmost j ((hiff j h).1 hj) h⟩
    · exact .inr ⟨hk, fun j hj h => hnone j ((hiff j h).1 hj) h⟩

/-! ### The searches -/

/-- A search that comes to an end with a result as it is to be. -/
def Finds (P : ℤ → Prop) (result : Option ℤ) : Prop := ∃ r, result = some r ∧ P r

/-- What is claimed of the searches for a pattern that is not empty. -/
structure SearchesRight (nul : α) (lower : α → α) (s p : List α) (offset : ℕ) (limit : ℤ) :
    Prop where
  table : findAfter nul s p p.length offset = some (shortFindAfter nul s p offset)
  findFirst : Finds (IsFirst p s 0) (findFirst nul s p)
  findFirstChars : IsFirst p s 0 (findFirstChars nul s p)
  findFirstFrom : Finds (IsFirst p s offset) (findFirstFrom nul s p offset)
  findFirstCharsFrom : IsFirst p s offset (findFirstCharsFrom nul s p offset)
  iFindFirst : ∀ o ∈ [0, offset],
    IsFirst (p.map lower) (s.map lower) o (iFindFirst nul lower s p o)
  iFindFirstChars : ∀ o ∈ [0, offset],
    IsFirst (p.map lower) (s.map lower) o (iFindFirstChars nul lower s p o)
  findLast : IsLast p s s.length (findLast nul s p)
  findLastChars : IsLast p s s.length (findLastChars nul s p)
  findLastBefore : IsLast p s limit (findLastBefore nul s p limit)
  findLastCharsBefore : IsLast p s limit (findLastCharsBefore nul s p limit)
  iFindLast : IsLast (p.map lower) (s.map lower) s.length (iFindLast nul lower s p)
  iFindLastChars : IsLast (p.map lower) (s.map lower) s.length (iFindLastChars nul lower s p)
  iFindLastBefore : IsLast (p.map lower) (s.map lower) limit (iFindLastBefore nul lower s p limit)
  iFindLastCharsBefore :
    IsLast (p.map lower) (s.map lower) limit (iFindLastCharsBefore nul lower s p limit)

/-- The overloads for an `SString` and a `const char *` give the same. -/
structure OverloadsAgree (nul : α) (lower : α → α) (s p : List α) (offset : ℕ) (limit : ℤ) :
    Prop where
  findFirst : findFirst nul s p = some (findFirstChars nul s p)
  findFirstFrom : findFirstFrom nul s p offset = some (findFirstCharsFrom nul s p offset)
  iFindFirst : ∀ o ∈ [0, offset], iFindFirst nul lower s p o = iFindFirstChars nul lower s p o
  findLast : findLast nul s p = findLastChars nul s p
  findLastBefore : findLastBefore nul s p limit = findLastCharsBefore nul s p limit
  iFindLast : iFindLast nul lower s p = iFindLastChars nul lower s p
  iFindLastBefore : iFindLastBefore nul lower s p limit = iFindLastCharsBefore nul lower s p limit

/-- The searches agree with their meaning and with each other. -/
structure Searches (nul : α) (lower : α → α) (s p : List α) (offset : ℕ) (limit : ℤ) : Prop where
  right : p ≠ [] → SearchesRight nul lower s p offset limit
  agree : OverloadsAgree nul lower s p offset limit

theorem strlen_eq (hp : nul ∉ p) : strlen nul p = p.length := by
  rw [strlen, takeWhile_eq_self_iff.2]
  intro c hc
  simpa using fun h : c = nul => hp (h ▸ hc)

omit [DecidableEq α] in
theorem isFirst_none (hne : p ≠ []) (hlong : s.length < o + p.length) : IsFirst p s o (-1) := by
  refine .inr ⟨rfl, fun j hj hocc => ?_⟩
  have := hocc.add_le hne
  omega

omit [DecidableEq α] in
theorem isLast_none (hlong : limit < p.length) : IsLast p s limit (-1) :=
  .inr ⟨rfl, fun j hj _ => by omega⟩

/-- `FindFirst` of a pattern that is not empty and an `SString`, where no zero hides it. -/
theorem findFirstFrom_isFirst (hne : p ≠ []) (hp : nul ∉ p) (ho : o ≤ s.length)
    (hshown : Shown nul p s o) : Finds (IsFirst p s o) (findFirstFrom nul s p o) := by
  have hpos := length_pos_of_ne_nil hne
  have hshort := (isFirst_searchAfter_iff (lowers_id nul) hne hp ho).2
    (by rwa [map_id])
  rw [map_id] at hshort
  unfold findFirstFrom
  by_cases hlong : p.length > s.length - o
  · refine ⟨-1, ?_, isFirst_none hne (by omega)⟩
    by_cases hs : s.length = 0
    · rw [if_pos hs]
    · rw [if_neg hs, if_neg (by omega), if_pos hlong]
  · rw [if_neg (by omega), if_neg (by omega), if_neg hlong]
    by_cases hlt : s.length < kShortFindAfterTreshold
    · rw [if_pos hlt]
      exact ⟨_, rfl, hshort⟩
    · rw [if_neg hlt]
      exact findAfter_isFirst hne ho

/-- Without an offset it is the same as with the offset 0, but for empty strings. -/
theorem findFirst_eq (hne : p ≠ []) : findFirst nul s p = findFirstFrom nul s p 0 := by
  have hpos := length_pos_of_ne_nil hne
  unfold findFirst findFirstFrom
  by_cases hs : s.length = 0
  · rw [if_neg (by omega), if_pos (by omega), if_pos hs]
  · rw [if_neg hs, Nat.sub_zero]

theorem findFirstChars_eq : findFirstChars nul s p = findFirstCharsFrom nul s p 0 := by
  unfold findFirstChars findFirstCharsFrom
  rw [Nat.sub_zero]
  by_cases hs : s.length = 0
  · rw [if_pos hs, if_pos hs.le]
  · rw [if_neg hs, if_neg (by omega)]

/-- `FindFirst` of a `const char *` gives the first occurrence exactly where no zero hides it. -/
theorem findFirstCharsFrom_iff (hne : p ≠ []) (hp : nul ∉ p) (ho : o ≤ s.length) :
    IsFirst p s o (findFirstCharsFrom nul s p o) ↔ Shown nul p s o := by
  have hpos := length_pos_of_ne_nil hne
  have hshort := isFirst_searchAfter_iff (lowers_id nul) hne hp ho
  rw [map_id] at hshort
  unfold findFirstCharsFrom
  by_cases hend : s.length - o ≤ 0
  · rw [if_pos hend]
    refine iff_of_true (isFirst_none hne (by omega)) fun k hk hocc => ?_
    have := hocc.add_le hne
    omega
  · rw [if_neg hend]
    exact hshort

/-- The four `IFindFirst` give the first occurrence exactly where no zero hides it. -/
theorem iFindFirst_iff (hl : Lowers nul lower) (hne : p ≠ []) (hp : nul ∉ p) (ho : o ≤ s.length) :
    IsFirst (p.map lower) (s.map lower) o (iFindFirst nul lower s p o) ↔
      Shown nul (p.map lower) (s.map lower) o := by
  have hpos := length_pos_of_ne_nil hne
  have hne' : p.map lower ≠ [] := by simpa using hne
  have hsearch := isFirst_searchAfter_iff hl hne' (hl.notMem hp) ho
  unfold iFindFirst iFindFirstLength
  by_cases hlong : p.length > s.length - o
  · have hnone : IsFirst (p.map lower) (s.map lower) o (-1) :=
      isFirst_none hne' (by rw [length_map, length_map]; omega)
    have hshown : Shown nul (p.map lower) (s.map lower) o := by
      intro k hk hocc
      have := hocc.add_le hne'
      rw [length_map, length_map] at this
      omega
    refine iff_of_true ?_ hshown
    by_cases hs : s.length = 0
    · rwa [if_pos hs]
    · rwa [if_neg hs, if_neg (by omega), if_pos hlong]
  · rw [if_neg (by omega), if_neg (by omega), if_neg hlong, iFindAfter, take_length]
    exact hsearch

theorem iFindLastBefore_isLast (hl : Lowers nul lower) (hne : p ≠ []) (hp : nul ∉ p) :
    IsLast (p.map lower) (s.map lower) limit (iFindLastBefore nul lower s p limit) := by
  have hpos := length_pos_of_ne_nil hne
  have hne' : p.map lower ≠ [] := by simpa using hne
  have hlimited : limited s limit = limited (s.map lower) limit := by
    rw [limited, limited, length_map]
  rw [← isLast_limited hne', ← hlimited]
  have hle : limited s limit ≤ s.length := by
    unfold limited
    split <;> omega
  unfold iFindLastBefore
  by_cases hlong : (p.length : ℤ) > limited s limit
  · have hnone : IsLast (p.map lower) (s.map lower) (limited s limit) (-1) :=
      isLast_none (by rw [length_map]; omega)
    by_cases hs : s.length = 0
    · rwa [if_pos hs]
    · rwa [if_neg hs, if_neg (by omega), if_pos hlong]
  · rw [if_neg (by omega), if_neg (by omega), if_neg hlong, iFindBefore, take_length]
    have h := @scanBefore_isLast _ _ _ _ s _ hl (hl.notMem hp) (limited s limit).toNat
      (by rw [length_map]; omega) (by omega)
    rwa [length_map, Int.toNat_of_nonneg (by omega)] at h

theorem iFindLast_eq : iFindLast nul lower s p = iFindLastBefore nul lower s p s.length := by
  unfold iFindLast iFindLastBefore limited
  simp

theorem findLastBefore_eq : findLastBefore nul s p limit = iFindLastBefore nul id s p limit := by
  simp [findLastBefore, iFindLastBefore, findBefore, iFindBefore]

theorem findLast_eq : findLast nul s p = iFindLast nul id s p := by
  simp [findLast, iFindLast, findBefore, iFindBefore]

theorem findLast_chars (hne : p ≠ []) (hp : nul ∉ p) :
    findLastChars nul s p = findLast nul s p ∧
      findLastCharsBefore nul s p limit = findLastBefore nul s p limit ∧
      iFindLastChars nul lower s p = iFindLast nul lower s p ∧
      iFindLastCharsBefore nul lower s p limit = iFindLastBefore nul lower s p limit := by
  have hpos := length_pos_of_ne_nil hne
  have hzero : p.length ≠ 0 := by omega
  simp only [findLastChars, findLast, findLastCharsBefore, findLastBefore, iFindLastChars,
    iFindLast, iFindLastCharsBefore, iFindLastBefore, strlen_eq hp, if_neg hzero, true_and]

theorem findLastBefore_isLast (hne : p ≠ []) (hp : nul ∉ p) :
    IsLast p s limit (findLastBefore nul s p limit) := by
  have h := @iFindLastBefore_isLast _ _ _ _ s _ limit (lowers_id nul) hne hp
  rwa [map_id, map_id, ← findLastBefore_eq] at h

theorem findLast_isLast (hne : p ≠ []) (hp : nul ∉ p) :
    IsLast p s s.length (findLast nul s p) := by
  rw [findLast_eq, iFindLast_eq, ← findLastBefore_eq]
  exact findLastBefore_isLast hne hp

theorem iFindFirstChars_eq (hp : nul ∉ p) :
    iFindFirstChars nul lower s p o = iFindFirst nul lower s p o := by
  rw [iFindFirstChars, iFindFirst, strlen_eq hp]

/-- With no zero that hides the pattern, all is as it is to be. -/
theorem searchesRight_iff (hl : Lowers nul lower) (hne : p ≠ []) (hp : nul ∉ p)
    (ho : offset ≤ s.length) :
    SearchesRight nul lower s p offset limit ↔
      ∀ o ∈ [0, offset], Shown nul p s o ∧ Shown nul (p.map lower) (s.map lower) o := by
  have hle : ∀ o ∈ [0, offset], o ≤ s.length := by
    intro o h
    rcases mem_pair.1 h with rfl | rfl
    · exact zero_le _
    · exact ho
  constructor
  · intro h o hmem
    refine ⟨(findFirstCharsFrom_iff hne hp (hle o hmem)).1 ?_,
      (iFindFirst_iff hl hne hp (hle o hmem)).1 (h.iFindFirst o hmem)⟩
    rcases mem_pair.1 hmem with rfl | rfl
    · rw [← findFirstChars_eq]
      exact h.findFirstChars
    · exact h.findFirstCharsFrom
  · intro h
    have h0 := h 0 (by simp)
    have ho' := h offset (by simp)
    obtain ⟨hchars, hcharsBefore, hichars, hicharsBefore⟩ :=
      @findLast_chars _ _ _ lower s _ limit hne hp
    have hilast : ∀ {limit}, IsLast (p.map lower) (s.map lower) limit
        (iFindLastBefore nul lower s p limit) := iFindLastBefore_isLast hl hne hp
    have hiFindFirst : ∀ o ∈ [0, offset],
        IsFirst (p.map lower) (s.map lower) o (iFindFirst nul lower s p o) :=
      fun o hmem => (iFindFirst_iff hl hne hp (hle o hmem)).2 (h o hmem).2
    exact {
      table := by
        obtain ⟨r, hr, hfirst⟩ := @findAfter_isFirst _ _ nul s _ _ hne ho
        have hshort := (isFirst_searchAfter_iff (lowers_id nul) hne hp ho).2
          (by rw [map_id]; exact ho'.1)
        rw [map_id] at hshort
        rw [hr, hfirst.unique hshort, shortFindAfter]
      findFirst := by
        rw [findFirst_eq hne]
        exact findFirstFrom_isFirst hne hp (zero_le _) h0.1
      findFirstChars := by
        rw [findFirstChars_eq]
        exact (findFirstCharsFrom_iff hne hp (zero_le _)).2 h0.1
      findFirstFrom := findFirstFrom_isFirst hne hp ho ho'.1
      findFirstCharsFrom := (findFirstCharsFrom_iff hne hp ho).2 ho'.1
      iFindFirst := hiFindFirst
      iFindFirstChars := fun o hmem => by
        rw [iFindFirstChars_eq hp]
        exact hiFindFirst o hmem
      findLast := findLast_isLast hne hp
      findLastChars := by
        rw [hchars]
        exact findLast_isLast hne hp
      findLastBefore := findLastBefore_isLast hne hp
      findLastCharsBefore := by
        rw [hcharsBefore]
        exact findLastBefore_isLast hne hp
      iFindLast := by
        rw [iFindLast_eq]
        exact hilast
      iFindLastChars := by
        rw [hichars, iFindLast_eq]
        exact hilast
      iFindLastBefore := hilast
      iFindLastCharsBefore := by
        rw [hicharsBefore]
        exact hilast }

theorem SearchesRight.agree (h : SearchesRight nul lower s p offset limit) :
    OverloadsAgree nul lower s p offset limit where
  findFirst := by
    obtain ⟨r, hr, hfirst⟩ := h.findFirst
    rw [hr, hfirst.unique h.findFirstChars]
  findFirstFrom := by
    obtain ⟨r, hr, hfirst⟩ := h.findFirstFrom
    rw [hr, hfirst.unique h.findFirstCharsFrom]
  iFindFirst o hmem := (h.iFindFirst o hmem).unique (h.iFindFirstChars o hmem)
  findLast := h.findLast.unique h.findLastChars
  findLastBefore := h.findLastBefore.unique h.findLastCharsBefore
  iFindLast := h.iFindLast.unique h.iFindLastChars
  iFindLastBefore := h.iFindLastBefore.unique h.iFindLastCharsBefore

/-- The overloads of `FindFirst` or those of `FindLast` do not agree on the empty pattern. -/
theorem not_agree_nil : ¬ OverloadsAgree nul lower s [] offset limit := by
  intro h
  by_cases hs : s.length = 0
  · have hfirst := h.findFirst
    simp [findFirst, findFirstChars, hs] at hfirst
  · have hlast := h.findLast
    have hchars : findLastChars nul s [] = s.length := by
      rw [findLastChars, if_neg hs]
      simp [strlen, findBefore, scanBefore, compares]
    rw [hchars, findLast, if_neg hs, if_pos length_nil] at hlast
    omega

end Characters

theorem lowers_utf8SafeToLower : Lowers (0 : Byte) utf8SafeToLower := by
  refine ⟨fun c => ?_⟩
  unfold utf8SafeToLower
  by_cases h : 0x41#8 ≤ c ∧ c ≤ 0x5a#8
  · rw [if_pos h]
    bv_omega
  · rw [if_neg h]

/-- **Searches agree** with their meaning and with each other exactly for the patterns that are not
empty and that no zero of the string hides, as they are and in lower case. -/
theorem searches_iff (s p : List Byte) (offset : ℕ) (limit : ℤ) (hp : 0 ∉ p)
    (ho : offset ≤ s.length) :
    Searches 0 utf8SafeToLower s p offset limit ↔
      p ≠ [] ∧ ∀ o ∈ [0, offset],
        Shown 0 p s o ∧ Shown 0 (p.map utf8SafeToLower) (s.map utf8SafeToLower) o := by
  constructor
  · intro h
    have hne : p ≠ [] := by
      rintro rfl
      exact absurd h.agree not_agree_nil
    exact ⟨hne, (searchesRight_iff lowers_utf8SafeToLower hne hp ho).1 (h.right hne)⟩
  · rintro ⟨hne, hshown⟩
    have hright := (@searchesRight_iff _ _ _ _ _ _ _ limit lowers_utf8SafeToLower hne hp ho).2 hshown
    exact ⟨fun _ => hright, hright.agree⟩

theorem searches_iff_abab :
    Searches 0 utf8SafeToLower [0x61, 0x42, 0x61, 0x62] [0x61, 0x62] 1 3 ↔
      [(0x61 : Byte), 0x62] ≠ [] ∧ ∀ o ∈ [0, 1],
        Shown (0 : Byte) [0x61, 0x62] [0x61, 0x42, 0x61, 0x62] o ∧
          Shown (0 : Byte) ([0x61, 0x62].map utf8SafeToLower)
            ([0x61, 0x42, 0x61, 0x62].map utf8SafeToLower) o :=
  searches_iff _ _ 1 3 (by decide) (by decide)

/-- The last occurrence of the empty pattern in `ab` is at 0 for one overload of `FindLast` and at 2
for the other. -/
theorem searches_fails_empty :
    findLast 0 [(0x61 : Byte), 0x62] [] = 0 ∧ findLastChars 0 [(0x61 : Byte), 0x62] [] = 2 ∧
      ¬ Searches 0 utf8SafeToLower [0x61, 0x62] [] 0 2 := by
  refine ⟨by decide, by decide, fun h => ?_⟩
  exact absurd h.agree.findLast (by decide)

end OpenBinder.SString
