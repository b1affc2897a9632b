import Mathlib.Data.Set.Insert

/-!
# Sets of paths

What a nested keyed container holds is a set of **paths**: the keys on the way down
and the terminal they lead to. A terminal alone is a `leaf`; everything under one
key is moved down by `under`.
-/

namespace OpenBinder.Lib

/-- Sets of paths over keys `κ` and terminals `τ`. -/
abbrev PathSet (κ τ : Type) := Set (List κ × τ)

variable {κ τ : Type}

/-- The terminal `t`, under no key. -/
def leaf (t : τ) : PathSet κ τ := {([], t)}

/-- The paths of `S`, all of them under `k`. -/
def under (k : κ) (S : PathSet κ τ) : PathSet κ τ :=
  {p | ∃ ks, p.1 = k :: ks ∧ (ks, p.2) ∈ S}

@[simp] theorem mem_leaf {p : List κ × τ} {t : τ} : p ∈ leaf t ↔ p = ([], t) := Iff.rfl

variable {S : PathSet κ τ}

@[simp] theorem nil_notMem_under {k : κ} {t : τ} : ([], t) ∉ under k S := by
  rintro ⟨ks, h, -⟩; cases h

@[simp] theorem cons_mem_under {k k' : κ} {ks : List κ} {t : τ} :
    (k' :: ks, t) ∈ under k S ↔ k' = k ∧ (ks, t) ∈ S := by
  constructor
  · rintro ⟨ks', h, hS⟩
    cases h
    exact ⟨rfl, hS⟩
  · rintro ⟨rfl, hS⟩
    exact ⟨ks, rfl, hS⟩

theorem under_union (k : κ) (S T : PathSet κ τ) : under k (S ∪ T) = under k S ∪ under k T := by
  ext ⟨ks, t⟩
  cases ks with
  | nil => simp
  | cons k' ks => simp [and_or_left]

theorem under_nonempty {k : κ} (h : S.Nonempty) : (under k S).Nonempty := by
  obtain ⟨⟨ks, t⟩, hS⟩ := h
  exact ⟨(k :: ks, t), cons_mem_under.2 ⟨rfl, hS⟩⟩

end OpenBinder.Lib
