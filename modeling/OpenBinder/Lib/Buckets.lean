import Mathlib.Data.List.Nodup
import Mathlib.Data.List.Perm.Basic

/-!
# Hash tables with buckets

A table is a list for every bucket. What it holds is all its buckets one after the other, up to
order.

* `exists_perm_update`: what a table holds that has another list in one bucket.
* `find?_split`, `replaceF_split`: the first element of a bucket that is looked for.
-/

namespace OpenBinder.Lib

open List

open Function

variable {α : Type*} {p : α → Bool} {f : α → Option α} {a b : α} {x y l : List α}

/-- **One bucket is changed**, and the others are kept. -/
theorem exists_perm_update (t : ℕ → List α) {i n : ℕ} (hi : i < n) :
    ∃ rest, ∀ x, ((List.range n).flatMap (update t i x)).Perm (x ++ rest) := by
  obtain ⟨l, m, hrange⟩ := append_of_mem (mem_range.2 hi)
  have hnd : (l ++ i :: m).Nodup := hrange ▸ nodup_range
  rw [nodup_middle, nodup_cons, mem_append, not_or] at hnd
  refine ⟨l.flatMap t ++ m.flatMap t, fun x => ?_⟩
  have hkeep {k : List ℕ} (hk : i ∉ k) : k.flatMap (update t i x) = k.flatMap t :=
    flatMap_congr fun j hj => update_of_ne (fun hji : j = i => hk (hji ▸ hj)) _ _
  rw [hrange, flatMap_append, flatMap_cons, update_self, hkeep hnd.1.1,
    hkeep hnd.1.2]
  exact perm_append_comm_assoc _ _ _

theorem find?_split (h : l.find? p = some a) :
    p a = true ∧ ∃ x y, l = x ++ a :: y ∧ (∀ b ∈ x, p b = false) ∧ l.eraseP p = x ++ y := by
  obtain ⟨ha, x, y, rfl, hx⟩ := List.find?_eq_some_iff_append.1 h
  have hx' : ∀ b ∈ x, ¬p b = true := fun b hb => by simpa using hx b hb
  refine ⟨ha, x, y, rfl, fun b hb => by simpa using hx b hb, ?_⟩
  rw [eraseP_append_right _ hx', eraseP_cons_of_pos ha]

theorem replaceF_split (hx : ∀ c ∈ x, f c = none) (ha : f a = some b) :
    (x ++ a :: y).replaceF f = x ++ b :: y := by
  induction x with
  | nil => rw [nil_append, List.replaceF, ha, nil_append]
  | cons c x ih =>
    rw [cons_append, List.replaceF, hx c mem_cons_self,
      ih fun d hd => hx d (mem_cons_of_mem c hd), cons_append]

end OpenBinder.Lib
