import OpenBinder.Value.Join

/-!
# The laws of Join

On normalised, error-free values `Join` is union of what they stand for, so it is a
semilattice operation up to `Compare` (`join_semilattice`) with `Undefined` below
everything and `WILD` above.
-/

namespace OpenBinder

open Lib

/-- A normalised value with no error in it. -/
structure NormalValue where
  val : SValue
  normal : val.isNormal = true
  errorFree : val.isErrorFree = true

namespace NormalValue

open SValue

/-- Equality as `Compare` sees it. -/
def Same (a b : NormalValue) : Prop := a.val.compare b.val = .eq

/-- `B_UNDEFINED_VALUE`. -/
def undefined : NormalValue := ⟨SValue.undefined, rfl, by decide⟩

/-- `B_WILD_VALUE`. -/
def wild : NormalValue := ⟨SValue.wild, rfl, by decide⟩

theorem join_isSome (a b : NormalValue) : (SValue.join Flags.none a.val b.val).isSome := by
  obtain ⟨r, hr, -⟩ := join_spec (rfl : Flags.none.noRecursion = false) b.val a.val a.normal b.normal
  rw [hr]; rfl

theorem join_joined (a b : NormalValue) :
    Joined a.val b.val ((SValue.join Flags.none a.val b.val).get (join_isSome a b)) := by
  obtain ⟨r, hr, hj⟩ := join_spec (rfl : Flags.none.noRecursion = false) b.val a.val a.normal b.normal
  simp only [hr, Option.get_some]
  exact hj

/-- `Join` with flags 0, on normalised values. -/
def join (a b : NormalValue) : NormalValue where
  val := (SValue.join Flags.none a.val b.val).get (join_isSome a b)
  normal := (join_joined a b).normal
  errorFree := (join_joined a b).error_free a.errorFree b.errorFree

theorem join_val (a b : NormalValue) : SValue.join Flags.none a.val b.val = some (a.join b).val := by
  simp [join]

@[simp] theorem den_join (a b : NormalValue) : (a.join b).val.den = a.val.den ∪ b.val.den :=
  (join_joined a b).den_eq a.errorFree b.errorFree

@[simp] theorem den_undefined : undefined.val.den = ∅ := SValue.den_undefined (by decide)

@[simp] theorem den_wild : wild.val.den = Set.univ := SValue.den_wild (by decide)

theorem same_of_den {a b : NormalValue} (h : a.val.den = b.val.den) : a.Same b :=
  compare_eq_iff.2 (den_injective a.val b.val a.normal b.normal h)

/-- **`Join` is a semilattice operation** up to `Compare`, with identity `Undefined`
and absorbing element `WILD`; it always has a result, and the result is normalised. -/
theorem join_semilattice (a b c : NormalValue) :
    SValue.join Flags.none a.val b.val = some (a.join b).val ∧
      (a.join a).Same a ∧
      (a.join b).Same (b.join a) ∧
      ((a.join b).join c).Same (a.join (b.join c)) ∧
      (undefined.join a).Same a ∧ (a.join undefined).Same a ∧
      (wild.join a).Same wild ∧ (a.join wild).Same wild := by
  refine ⟨join_val a b, ?_, ?_, ?_, ?_, ?_, ?_, ?_⟩
  · exact same_of_den (by rw [den_join, Set.union_self])
  · exact same_of_den (by rw [den_join, den_join, Set.union_comm])
  · exact same_of_den (by simp only [den_join, Set.union_assoc])
  · exact same_of_den (by rw [den_join, den_undefined, Set.empty_union])
  · exact same_of_den (by rw [den_join, den_undefined, Set.union_empty])
  · exact same_of_den (by rw [den_join, den_wild, Set.univ_union])
  · exact same_of_den (by rw [den_join, den_wild, Set.union_univ])

end NormalValue

end OpenBinder
