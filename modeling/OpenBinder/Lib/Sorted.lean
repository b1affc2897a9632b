import Mathlib.Data.List.DropRight

/-!
# Walks over a list in order

A walk that goes on while a predicate holds takes exactly the elements that it holds of, if the
predicate holds of all elements before one that it holds of.
-/

namespace OpenBinder.Lib

open List

variable {α : Type*} {p : α → Bool} {l : List α}

theorem takeWhile_eq_filter (h : l.Pairwise fun a b => p b → p a) : l.takeWhile p = l.filter p := by
  induction l with
  | nil => rfl
  | cons a l ih =>
    obtain ⟨ha, hl⟩ := pairwise_cons.1 h
    by_cases hp : p a = true
    · rw [takeWhile_cons_of_pos hp, filter_cons_of_pos hp, ih hl]
    · rw [takeWhile_cons_of_neg hp, eq_comm, filter_eq_nil_iff]
      intro b hb
      rcases mem_cons.1 hb with rfl | hb
      · exact hp
      · exact fun hpb => hp (ha b hb hpb)

theorem dropWhile_eq_filter (h : l.Pairwise fun a b => p b → p a) :
    l.dropWhile p = l.filter (!p ·) := by
  induction l with
  | nil => rfl
  | cons a l ih =>
    obtain ⟨ha, hl⟩ := pairwise_cons.1 h
    by_cases hp : p a = true
    · rw [dropWhile_cons_of_pos hp, filter_cons_of_neg (by simp [hp]), ih hl]
    · rw [dropWhile_cons_of_neg hp, eq_comm, filter_eq_self]
      intro b hb
      rcases mem_cons.1 hb with rfl | hb
      · simpa using hp
      · simpa using fun hpb => hp (ha b hb hpb)

theorem rdropWhile_eq_filter (h : l.Pairwise fun a b => p a → p b) :
    l.rdropWhile p = l.filter (!p ·) := by
  rw [List.rdropWhile, dropWhile_eq_filter (pairwise_reverse.2 h), filter_reverse,
    reverse_reverse]

theorem rtakeWhile_eq_filter (h : l.Pairwise fun a b => p a → p b) :
    l.rtakeWhile p = l.filter p := by
  rw [List.rtakeWhile, takeWhile_eq_filter (pairwise_reverse.2 h), filter_reverse,
    reverse_reverse]

end OpenBinder.Lib
