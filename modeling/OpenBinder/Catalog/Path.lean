import Mathlib.Data.List.TakeWhile

/-!
# Paths

An `SString` holding a path has its components between slashes. `PathRemoveRoot` takes the
first one off, in place.

* `pathRemoveRoot_ofNames`: on a path of plain names it takes off the first name.
* `length_pathRemoveRoot`: what is left is shorter.
-/

namespace OpenBinder

open List

/-- The characters of an `SString`, without the final zero. -/
abbrev SString := List Char

namespace SString

def pathDelimiter : Char := '/'

/-- `get_branch_pos`, first result: the position after the slashes a path begins with
(`path_root_length` is one of them). -/
def branchStart (path : SString) : ℕ := path.findIdx (· != pathDelimiter)

/-- `get_branch_pos`, second result: the next slash, or the end of the path. -/
def branchEnd (path : SString) : ℕ :=
  path.branchStart + (path.drop path.branchStart).findIdx (· == pathDelimiter)

/-- `PathRemoveRoot`: the first component, and the path without it and the slash after it. -/
def pathRemoveRoot (path : SString) : SString × SString :=
  ((path.take path.branchEnd).drop path.branchStart,
    path.drop (if path.branchEnd < path.length then path.branchEnd + 1 else path.branchEnd))

/-- A name that is one component of a path and not one of the attributes of a node. -/
structure Plain (name : SString) : Prop where
  ne_nil : name ≠ []
  no_delimiter : pathDelimiter ∉ name
  no_colon : name.head? ≠ some ':'

/-- A path that is a single name, no attribute. -/
structure Single (name : SString) : Prop where
  no_delimiter : pathDelimiter ∉ name
  no_colon : name.head? ≠ some ':'

/-- The path `n1/n2/…/nk`. -/
def ofNames : List SString → SString
  | [] => []
  | [name] => name
  | name :: names => name ++ pathDelimiter :: ofNames names

theorem ofNames_ne_nil {names : List SString} (hne : names ≠ []) (h : ∀ n ∈ names, Plain n) :
    ofNames names ≠ [] := by
  cases names with
  | nil => exact absurd rfl hne
  | cons name names =>
    have hname := (h name (mem_cons_self ..)).ne_nil
    cases names with
    | nil => exact hname
    | cons => simp [ofNames]

variable {name : SString}

theorem branchStart_append (hne : name ≠ []) (h : pathDelimiter ∉ name) (rest : SString) :
    branchStart (name ++ rest) = 0 := by
  obtain ⟨c, name, rfl⟩ := exists_cons_of_ne_nil hne
  have hc : c ≠ pathDelimiter := fun hc => h (hc ▸ mem_cons_self ..)
  have hb : (c != pathDelimiter) = true := by simpa using hc
  rw [branchStart, cons_append, findIdx_cons, hb, cond_true]

theorem findIdx_delimiter (h : pathDelimiter ∉ name) :
    name.findIdx (· == pathDelimiter) = name.length := by
  refine findIdx_eq_length.2 ?_
  intro c hc
  have : c ≠ pathDelimiter := fun h' => h (h' ▸ hc)
  simpa using this

theorem branchEnd_delimiter (hne : name ≠ []) (h : pathDelimiter ∉ name) (rest : SString) :
    branchEnd (name ++ pathDelimiter :: rest) = name.length := by
  have hlt : ¬ name.findIdx (· == pathDelimiter) < name.length := by
    rw [findIdx_delimiter h]; exact lt_irrefl _
  simp [branchEnd, branchStart_append hne h, findIdx_append, hlt, findIdx_cons]

theorem pathRemoveRoot_name (h : pathDelimiter ∉ name) :
    pathRemoveRoot name = (name, []) := by
  have hs : branchStart name = 0 := by
    cases name with
    | nil => rfl
    | cons c name =>
      have hc : (c != pathDelimiter) = true := by
        simpa using fun hc : c = pathDelimiter => h (hc ▸ mem_cons_self ..)
      rw [branchStart, findIdx_cons, hc, cond_true]
  have he : branchEnd name = name.length := by
    simp [branchEnd, hs, findIdx_delimiter h]
  simp [pathRemoveRoot, he, hs]

theorem pathRemoveRoot_delimiter (hne : name ≠ []) (h : pathDelimiter ∉ name) (rest : SString) :
    pathRemoveRoot (name ++ pathDelimiter :: rest) = (name, rest) := by
  simp [pathRemoveRoot, branchEnd_delimiter hne h, branchStart_append hne h, drop_append]

/-- **`PathRemoveRoot` takes off the first name** of a path of plain names. -/
theorem pathRemoveRoot_ofNames {names : List SString} (h : Plain name) :
    pathRemoveRoot (ofNames (name :: names)) = (name, ofNames names) := by
  cases names with
  | nil => exact pathRemoveRoot_name h.no_delimiter
  | cons name' names => exact pathRemoveRoot_delimiter h.ne_nil h.no_delimiter _

theorem branchEnd_le (path : SString) : path.branchEnd ≤ path.length := by
  have h1 : path.branchStart ≤ path.length := findIdx_le_length
  have h2 : (path.drop path.branchStart).findIdx (· == pathDelimiter) ≤
      (path.drop path.branchStart).length := findIdx_le_length
  rw [length_drop] at h2
  unfold branchEnd
  omega

theorem length_pathRemoveRoot_fst (path : SString) :
    (pathRemoveRoot path).1.length ≤ path.length := by
  simp only [pathRemoveRoot, length_drop, length_take]
  omega

theorem length_pathRemoveRoot (path : SString) :
    (pathRemoveRoot path).2.length ≤ path.length - 1 := by
  simp only [pathRemoveRoot, length_drop]
  split <;> omega

end SString

end OpenBinder
