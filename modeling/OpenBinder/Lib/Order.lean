import Mathlib.Order.Basic
import Mathlib.Data.Int.Order.Basic

/-!
# Three-way comparison by code words

A comparison of structured data that first looks at a tag, then at a length and
then at the parts in turn is the lexicographic order of code words in which every
part is written out in full. Its laws then come from the order of lists of integers:
it is enough to show `CodeCmp` for every part.
-/

namespace OpenBinder.Lib

/-- Three-way comparison of integers. -/
def cmpInt (a b : ℤ) : Ordering := if a < b then .lt else if a = b then .eq else .gt

/-- Lexicographic three-way comparison of code words. -/
def cmpCode (a b : List ℤ) : Ordering := a.compareLex cmpInt b

instance : Std.TransCmp cmpInt where
  eq_swap := by
    intro a b
    unfold cmpInt
    rcases lt_trichotomy a b with h | h | h
    · rw [if_pos h, if_neg (by omega), if_neg (by omega)]; rfl
    · subst h; simp
    · rw [if_neg (by omega), if_neg (by omega), if_pos h]; rfl
  isLE_trans := by
    intro a b c hab hbc
    unfold cmpInt at *
    split_ifs at * <;> first | rfl | (simp at *; done) | omega

instance : Std.LawfulEqCmp cmpInt where
  compare_self := by intro a; simp [cmpInt]
  eq_of_compare := by
    intro a b h
    unfold cmpInt at h
    split_ifs at h
    assumption

instance : Std.TransCmp cmpCode := inferInstanceAs (Std.TransCmp (List.compareLex cmpInt))

instance : Std.LawfulEqCmp cmpCode := inferInstanceAs (Std.LawfulEqCmp (List.compareLex cmpInt))

@[simp] theorem cmpCode_cons (a b : ℤ) (x y : List ℤ) :
    cmpCode (a :: x) (b :: y) = (cmpInt a b).then (cmpCode x y) := List.compareLex_cons_cons

@[simp] theorem cmpInt_self (a : ℤ) : cmpInt a a = .eq := by simp [cmpInt]

@[simp] theorem cmpCode_self (a : List ℤ) : cmpCode a a = .eq := Std.ReflCmp.compare_self

theorem cmpInt_eq_iff {a b : ℤ} : cmpInt a b = .eq ↔ a = b := Std.LawfulEqCmp.compare_eq_iff_eq

variable {a b : List ℤ}

theorem cmpCode_eq_iff : cmpCode a b = .eq ↔ a = b :=
  Std.LawfulEqCmp.compare_eq_iff_eq

theorem cmpCode_append (h : a.length = b.length) (x y : List ℤ) :
    cmpCode (a ++ x) (b ++ y) = (cmpCode a b).then (cmpCode x y) := by
  induction a generalizing b with
  | nil => cases b with
    | nil => rfl
    | cons _ _ => simp at h
  | cons c a ih => cases b with
    | nil => simp at h
    | cons d b =>
      simp only [List.cons_append, cmpCode_cons]
      rw [ih (by simpa using h), Ordering.then_assoc]

/-- **`o` compares two code words as parts of longer ones**: whatever follows them
is only looked at when `o` is `eq`. -/
def CodeCmp (o : Ordering) (a b : List ℤ) : Prop :=
  ∀ x y, cmpCode (a ++ x) (b ++ y) = o.then (cmpCode x y)

theorem CodeCmp.eq {o : Ordering} (h : CodeCmp o a b) : o = cmpCode a b := by
  have := h [] []
  simpa using this.symm

theorem CodeCmp.nil : CodeCmp .eq [] [] := fun _ _ => rfl

theorem CodeCmp.append {o o' : Ordering} {a' b' : List ℤ} (h : CodeCmp o a b)
    (h' : CodeCmp o' a' b') : CodeCmp (o.then o') (a ++ a') (b ++ b') := by
  intro x y
  rw [List.append_assoc, List.append_assoc, h, h', Ordering.then_assoc]

theorem CodeCmp.cons {o : Ordering} {a b : List ℤ} (s t : ℤ) (h : s = t → CodeCmp o a b) :
    CodeCmp ((cmpInt s t).then o) (s :: a) (t :: b) := by
  intro x y
  simp only [List.cons_append, cmpCode_cons]
  by_cases hst : s = t
  · rw [h hst, Ordering.then_assoc]
  · have hne : cmpInt s t ≠ .eq := fun he => hst (cmpInt_eq_iff.1 he)
    cases hc : cmpInt s t <;> simp_all

theorem CodeCmp.tag {s t : ℤ} (h : s ≠ t) :
    CodeCmp (cmpInt s t) (s :: a) (t :: b) := by
  have := CodeCmp.cons (o := .eq) (a := a) (b := b) s t (fun he => absurd he h)
  simpa using this

theorem CodeCmp.of_length (h : a.length = b.length) : CodeCmp (cmpCode a b) a b :=
  fun x y => cmpCode_append h x y

end OpenBinder.Lib
