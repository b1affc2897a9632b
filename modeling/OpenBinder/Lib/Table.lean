import OpenBinder.Lib.Bisect
import Mathlib.Data.List.Forall2

/-!
# Strictly sorted tables

A **table** is a list of entries that is strictly sorted by the slot of its entries.
It is searched by bisection, changed by inserting at the place where the search
ended, by replacing an entry by one of the same slot and by erasing an entry.

* `search_mem`, `search_found`, `search_not_found`: the search finds exactly the
  entry with the wanted slot, and otherwise the place where it has to be inserted.
* `Table.forall₂`: tables with related entries are related entry by entry.
-/

namespace OpenBinder.Lib

open List

variable {α κ : Type}

/-- Strictly sorted by `slot`. -/
def Table (cmp : κ → κ → Ordering) (slot : α → κ) (l : List α) : Prop :=
  l.Pairwise fun a b => cmp (slot a) (slot b) = .lt

/-- How the entry at position `i` compares with the wanted slot. -/
def verdict (cmp : κ → κ → Ordering) (slot : α → κ) (l : List α) (t : κ) (i : ℕ) : Ordering :=
  match l[i]? with
  | some a => cmp (slot a) t
  | none => .gt

/-- Binary search for a slot. -/
def search (cmp : κ → κ → Ordering) (slot : α → κ) (l : List α) (t : κ) : Bool × ℕ :=
  bisect (verdict cmp slot l t) l.length 0 l.length

variable {cmp : κ → κ → Ordering} {slot : α → κ} {l l' : List α}

variable {i : ℕ} {a b : α}

theorem verdict_of_getElem? {t : κ} (h : l[i]? = some a) :
    verdict cmp slot l t i = cmp (slot a) t := by
  simp [verdict, h]

theorem Table.nil : Table cmp slot [] := List.Pairwise.nil

theorem Table.singleton (a : α) : Table cmp slot [a] := pairwise_singleton _ a

theorem Table.eraseIdx (h : Table cmp slot l) (i : ℕ) : Table cmp slot (l.eraseIdx i) :=
  List.Pairwise.sublist (eraseIdx_sublist l i) h

theorem Table.of_map (h : Table cmp slot l) (he : l.map slot = l'.map slot) :
    Table cmp slot l' := by
  have h1 : (l.map slot).Pairwise fun a b => cmp a b = .lt := pairwise_map.2 h
  rw [he] at h1
  exact pairwise_map.1 h1

theorem Table.set (h : Table cmp slot l) (hi : l[i]? = some a) (hab : slot b = slot a) :
    Table cmp slot (l.set i b) := by
  refine h.of_map (ext_getElem? fun j => ?_)
  simp only [List.getElem?_map, List.getElem?_set]
  by_cases hj : i = j
  · subst hj
    rw [if_pos rfl]
    split
    · simp [hi, hab]
    · rename_i hlt
      rw [List.getElem?_eq_none (by omega)] at hi
      exact absurd hi (by simp)
  · rw [if_neg hj]

theorem Table.lt_of_getElem? (h : Table cmp slot l) {j : ℕ} (hij : i < j) (hi : l[i]? = some a)
    (hj : l[j]? = some b) : cmp (slot a) (slot b) = .lt := by
  obtain ⟨hi', rfl⟩ := List.getElem?_eq_some_iff.1 hi
  obtain ⟨hj', rfl⟩ := List.getElem?_eq_some_iff.1 hj
  exact pairwise_iff_getElem.1 h i j hi' hj' hij

theorem insertIdx_eq_take_drop : ∀ (l : List α) (i : ℕ) (a : α), i ≤ l.length →
    l.insertIdx i a = l.take i ++ a :: l.drop i
  | l, 0, a, _ => by simp
  | [], i + 1, a, h => by simp at h
  | b :: l, i + 1, a, h => by
    simp only [insertIdx_succ_cons, take_succ_cons, drop_succ_cons,
      cons_append]
    rw [insertIdx_eq_take_drop l i a (by simpa using h)]

variable [Std.TransCmp cmp]

omit [Std.TransCmp cmp] in
theorem cmp_irrefl [Std.ReflCmp cmp] (t : κ) : cmp t t ≠ .lt := by
  have h : cmp t t = .eq := Std.ReflCmp.compare_self
  rw [h]; decide

theorem Table.cut (h : Table cmp slot l) (t : κ) : Cut (verdict cmp slot l t) l.length := by
  intro i j hij hj hi
  have hi' : l[i]? = some l[i] := List.getElem?_eq_getElem _
  have hj' : l[j]? = some l[j] := List.getElem?_eq_getElem hj
  have hlt := h.lt_of_getElem? hij hi' hj'
  rw [verdict_of_getElem? hi'] at hi
  rw [verdict_of_getElem? hj', Std.OrientedCmp.gt_iff_lt]
  -- the wanted slot is at most that of entry `i`, which is below that of entry `j`
  have hle : (cmp t (slot l[i])).isLE := by
    rw [← Std.OrientedCmp.isGE_iff_isLE]
    revert hi
    cases cmp (slot l[i]) t <;> simp
  exact Std.TransCmp.lt_of_isLE_of_lt hle hlt

theorem Table.unique (h : Table cmp slot l) (ha : a ∈ l) (hb : b ∈ l) (hab : slot a = slot b) :
    a = b := by
  obtain ⟨i, hi⟩ := mem_iff_getElem?.1 ha
  obtain ⟨j, hj⟩ := mem_iff_getElem?.1 hb
  rcases Nat.lt_trichotomy i j with hij | rfl | hij
  · have := h.lt_of_getElem? hij hi hj
    rw [hab] at this
    exact absurd this (cmp_irrefl _)
  · exact Option.some.inj (hi.symm.trans hj)
  · have := h.lt_of_getElem? hij hj hi
    rw [hab] at this
    exact absurd this (cmp_irrefl _)

theorem Table.nodup (h : Table cmp slot l) : (l.map slot).Nodup := by
  refine pairwise_map.2 (List.Pairwise.imp (fun {a b} hlt heq => ?_) h)
  rw [heq] at hlt
  exact cmp_irrefl _ hlt

theorem Table.getElem?_inj (h : Table cmp slot l) {j : ℕ} (hi : l[i]? = some a)
    (hj : l[j]? = some b) (hab : slot a = slot b) : i = j := by
  rcases Nat.lt_trichotomy i j with hij | rfl | hij
  · have := h.lt_of_getElem? hij hi hj
    rw [hab] at this
    exact absurd this (cmp_irrefl _)
  · rfl
  · have := h.lt_of_getElem? hij hj hi
    rw [hab] at this
    exact absurd this (cmp_irrefl _)

/-- **There is one place of insertion.** -/
theorem Table.insertIdx_inj {j : ℕ} (hi : i ≤ l.length) (hj : j ≤ l.length)
    (h : Table cmp slot (l.insertIdx i a)) (h' : Table cmp slot (l.insertIdx j a)) : i = j := by
  have hle : ∀ {i j : ℕ}, j ≤ l.length → Table cmp slot (l.insertIdx i a) →
      Table cmp slot (l.insertIdx j a) → j ≤ i := by
    intro i j hj h h'
    by_contra hij
    -- the entry at the first place is behind the new one, and in front of it
    have hget : l[i]? = some l[i] := List.getElem?_eq_getElem (by omega)
    have hbehind := h.lt_of_getElem? (Nat.lt_succ_self i)
      (show _ = some a by rw [List.getElem?_insertIdx, if_neg (by omega), if_pos rfl, if_pos (by omega)])
      (show _ = some l[i] by
        rw [List.getElem?_insertIdx, if_neg (by omega), if_neg (by omega), Nat.succ_sub_one, hget])
    have hfront := h'.lt_of_getElem? (show i < j by omega)
      (show _ = some l[i] by rw [List.getElem?_insertIdx, if_pos (by omega), hget])
      (show _ = some a by rw [List.getElem?_insertIdx, if_neg (by omega), if_pos rfl, if_pos hj])
    exact cmp_irrefl _ (Std.TransCmp.lt_trans hbehind hfront)
  exact Nat.le_antisymm (hle hi h' h) (hle hj h h')

variable [Std.LawfulEqCmp cmp]

/-- **A hit is the entry with the wanted slot.** -/
theorem search_found (h : Table cmp slot l) {t : κ} (hs : search cmp slot l t = (true, i)) :
    ∃ a, l[i]? = some a ∧ slot a = t := by
  obtain ⟨-, -, hhit, -⟩ := bisect_spec (h.cut t)
  unfold search at hs
  rw [hs] at hhit
  obtain ⟨hi, hc⟩ := hhit rfl
  have hi' : l[i]? = some l[i] := List.getElem?_eq_getElem hi
  refine ⟨_, hi', ?_⟩
  rw [verdict_of_getElem? hi'] at hc
  exact Std.LawfulEqCmp.eq_of_compare hc

/-- **A miss is the place of insertion.** -/
theorem search_not_found (h : Table cmp slot l) {t : κ} (hs : search cmp slot l t = (false, i)) :
    (∀ a ∈ l, slot a ≠ t) ∧ i ≤ l.length ∧
      ∀ a, slot a = t → Table cmp slot (l.insertIdx i a) := by
  obtain ⟨hn, hlo, -, hhi⟩ := bisect_spec (h.cut t)
  unfold search at hs
  rw [hs] at hn hlo hhi
  simp only at hn hlo hhi
  have hhi := hhi trivial
  have hbelow : ∀ a ∈ l.take i, cmp (slot a) t = .lt := by
    intro a ha
    obtain ⟨j, hj⟩ := mem_iff_getElem?.1 ha
    rw [List.getElem?_take] at hj
    split at hj
    · rename_i hji
      have hv : verdict cmp slot l t j = cmp (slot a) t := verdict_of_getElem? hj
      rw [← hv]
      exact hlo j hji
    · exact absurd hj (by simp)
  have habove : ∀ a ∈ l.drop i, cmp (slot a) t = .gt := by
    intro a ha
    obtain ⟨j, hj⟩ := mem_iff_getElem?.1 ha
    rw [List.getElem?_drop] at hj
    have hv : verdict cmp slot l t (i + j) = cmp (slot a) t := verdict_of_getElem? hj
    rw [← hv]
    exact hhi _ (by omega) (List.getElem?_eq_some_iff.1 hj).1
  refine ⟨fun a ha hat => ?_, hn, fun a hat => ?_⟩
  · rw [← take_append_drop i l] at ha
    rcases mem_append.1 ha with ha | ha
    · have := hbelow a ha
      rw [hat] at this
      exact absurd this (cmp_irrefl _)
    · have := habove a ha
      rw [hat] at this
      exact absurd (Std.OrientedCmp.lt_of_gt this) (cmp_irrefl _)
  · rw [insertIdx_eq_take_drop l i a hn]
    have hsplit : Table cmp slot (l.take i ++ l.drop i) := by rwa [take_append_drop]
    obtain ⟨h1, h2, h3⟩ := pairwise_append.1 hsplit
    refine pairwise_append.2 ⟨h1, pairwise_cons.2 ⟨fun b hb => ?_, h2⟩, ?_⟩
    · rw [hat, ← Std.OrientedCmp.gt_iff_lt]
      exact habove b hb
    · intro b hb c hc
      rcases mem_cons.1 hc with rfl | hc
      · rw [hat]; exact hbelow b hb
      · exact h3 b hb c hc

/-- **An entry is found at its position.** -/
theorem search_mem (h : Table cmp slot l) (hi : l[i]? = some a) :
    search cmp slot l (slot a) = (true, i) := by
  cases hs : search cmp slot l (slot a) with
  | mk hit j =>
    cases hit with
    | true =>
      obtain ⟨b, hj, hb⟩ := search_found h hs
      rw [h.getElem?_inj hi hj hb.symm]
    | false =>
      exact absurd rfl ((search_not_found h hs).1 a (mem_of_getElem? hi))

/-- **Extensionality.** Tables whose entries are related, slot by slot, are related
position by position. -/
theorem Table.forall₂ {R : α → α → Prop} (hR : ∀ a b, R a b → slot a = slot b) :
    ∀ {l l' : List α}, Table cmp slot l → Table cmp slot l' →
      (∀ a ∈ l, ∃ b ∈ l', R a b) → (∀ b ∈ l', ∃ a ∈ l, R a b) → List.Forall₂ R l l' := by
  intro l
  induction l with
  | nil =>
    intro l' _ _ _ h
    cases l' with
    | nil => exact List.Forall₂.nil
    | cons b l' =>
      obtain ⟨a, ha, -⟩ := h b mem_cons_self
      cases ha
  | cons a l ih =>
    intro l' hl hl' h h'
    cases l' with
    | nil =>
      obtain ⟨b, hb, -⟩ := h a mem_cons_self
      cases hb
    | cons b l' =>
      obtain ⟨ha, hl⟩ := pairwise_cons.1 hl
      obtain ⟨hb, hl'⟩ := pairwise_cons.1 hl'
      -- the first entries have the least slots, so they are related to each other
      have hab : R a b := by
        obtain ⟨b', hb', hab'⟩ := h a mem_cons_self
        rcases mem_cons.1 hb' with rfl | hb'
        · exact hab'
        obtain ⟨a', ha', ha'b⟩ := h' b mem_cons_self
        rcases mem_cons.1 ha' with rfl | ha'
        · exact ha'b
        have h1 := ha a' ha'
        have h2 := hb b' hb'
        rw [hR _ _ ha'b] at h1
        rw [← hR _ _ hab'] at h2
        exact absurd (Std.TransCmp.lt_trans h1 h2) (cmp_irrefl _)
      refine List.Forall₂.cons hab (ih hl hl' (fun c hc => ?_) fun d hd => ?_)
      · obtain ⟨d, hd, hcd⟩ := h c (mem_cons_of_mem _ hc)
        rcases mem_cons.1 hd with rfl | hd
        · have h1 := ha c hc
          rw [hR _ _ hab, hR _ _ hcd] at h1
          exact absurd h1 (cmp_irrefl _)
        · exact ⟨d, hd, hcd⟩
      · obtain ⟨c, hc, hcd⟩ := h' d (mem_cons_of_mem _ hd)
        rcases mem_cons.1 hc with rfl | hc
        · have h1 := hb d hd
          rw [← hR _ _ hab, hR _ _ hcd] at h1
          exact absurd h1 (cmp_irrefl _)
        · exact ⟨c, hc, hcd⟩

end OpenBinder.Lib
