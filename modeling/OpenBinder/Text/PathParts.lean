import OpenBinder.Catalog.Path
import OpenBinder.Parcel.Storage
import OpenBinder.Text.SearchLaw

/-!
# Paths and their parts

A path is put together from a directory and a name, taken apart into its last name and what is in
front, and walked from its first name on.

* `pathSetTo_parts`: `PathLeaf` and `PathGetParent` undo `PathSetTo`.
* `removeRoot_eq`: the loop of `get_branch_pos` finds what `pathRemoveRoot` takes off.
* `walkNames_eq`: a walk gives the names of the path, and an empty one for a path that `Trails`.
* `parts_iff`: where putting together, taking apart and walking are as they are to be.
-/

namespace OpenBinder

open Lib List

def entryNotFound : ℤ := -2

namespace SString

/-- The zero behind a string. -/
def nul : Char := '\x00'

/-- `path_delimiter`. -/
def delimiterString : SString := [pathDelimiter]

/-- `path_equals_delimiter` of the first character. -/
def startsAtRoot (path : SString) : Bool := path.head? = some pathDelimiter

def pathRootLength (path : SString) : ℕ := if path.startsAtRoot then 1 else 0

def pathRootSize : ℕ := 1

/-- What a `const char *` into a string points to. -/
def upToZero (s : SString) : SString := s.takeWhile (· ≠ nul)

/-- `SString::_PathSetTo` of strings that are there, without normalisation: the status, and the
string. `malloc` is whether there is memory for it. -/
def pathSetTo (malloc : Bool) (dir leaf : SString) : ℤ × SString :=
  -- a leaf from the root on stands for itself
  let dir := if leaf.startsAtRoot then [] else dir
  let slash := if dir.length ≠ 0 ∧ leaf.length ≠ 0 ∧ dir.getLast? ≠ some pathDelimiter then
    delimiterString else []
  if malloc then (0, dir ++ slash ++ leaf) else (noMemory, [])

def pathLeaf (path : SString) : SString :=
  let offset := findLastChars nul path delimiterString
  if offset ≥ 0 then upToZero (path.drop (offset + 1).toNat) else upToZero path

/-- `SString::PathGetParent`: the status, and the parent. -/
def pathGetParent (path : SString) : ℤ × SString :=
  let offset := findLastChars nul path delimiterString
  if offset < 0 then (entryNotFound, [])
  else if (pathRootLength path : ℤ) - offset - 1 = 0 then
    if path.length ≤ pathRootSize then (entryNotFound, [])
    else (0, upToZero (path.take (pathRootLength path)))
  else (0, path.take offset.toNat)

/-- The loop of `get_branch_pos`. -/
def branchPosLoop (path : SString) : ℕ → ℕ → Option (ℕ × ℕ)
  | 0, _ => none
  | fuel + 1, start =>
    let p := findFirstCharsFrom nul path delimiterString start
    if p = start then branchPosLoop path fuel (p + 1).toNat
    else some (start, if p < 0 then path.length else p.toNat)

/-- `get_branch_pos`; `none` if the loop does not end in as many steps as there are positions. -/
def getBranchPos (path : SString) : Option (ℕ × ℕ) :=
  branchPosLoop path (path.length + 2) (pathRootLength path)

/-- `SString::PathRemoveRoot`: the branch, and what is left of the path. -/
def removeRoot (path : SString) : Option (SString × SString) := do
  let (start, «end») ← getBranchPos path
  pure (upToZero ((path.drop start).take («end» - start)),
    path.drop (if «end» < path.length then «end» + 1 else «end»))

/-- A walk with `PathRemoveRoot` until the path is empty: the names on it. -/
def walkNames : ℕ → SString → Option (List SString)
  | _, [] => some []
  | 0, _ => none
  | fuel + 1, path => do
    let (branch, path) ← removeRoot path
    let names ← walkNames fuel path
    pure (branch :: names)

/-- The names of a path: what is between its slashes, where that is something. -/
def components (path : SString) : List SString := (path.splitOn pathDelimiter).filter (· ≠ [])

/-- A path that has nothing but a slash left after its last name and the slash behind that. -/
def Trails (path : SString) : Prop :=
  path = delimiterString ∨ delimiterString ++ delimiterString <:+ path

instance (path : SString) : Decidable path.Trails :=
  inferInstanceAs (Decidable (_ ∨ _))

variable {malloc : Bool} {d n name path rest : SString} {c : Char}

/-! ### Together and apart -/

theorem upToZero_eq (h : nul ∉ path) : upToZero path = path := by
  refine takeWhile_eq_self_iff.2 fun c hc => ?_
  simpa using fun h' : c = nul => h (h' ▸ hc)

theorem nul_notMem_upToZero : nul ∉ upToZero path := by
  intro h
  simpa using mem_takeWhile_imp h

theorem nul_ne_delimiter : nul ≠ pathDelimiter := by decide

theorem delimiterString_ne_nil : delimiterString ≠ [] := by simp [delimiterString]

theorem nul_notMem_delimiterString : nul ∉ delimiterString := by decide

theorem findLastChars_leaf (hn : pathDelimiter ∉ n) :
    findLastChars nul (d ++ delimiterString ++ n) delimiterString = d.length := by
  have hne := delimiterString_ne_nil
  have hnul := nul_notMem_delimiterString
  rw [(@findLast_chars _ _ _ id _ _ 0 hne hnul).1]
  refine (findLast_isLast hne hnul).unique (.inl ⟨d.length, rfl, ?_, ?_, ?_⟩)
  · simp only [length_append]
    omega
  · rw [OccursAt, append_assoc, drop_left]
    exact prefix_append ..
  · intro j _ hocc
    by_contra hlt
    -- behind that slash there is none
    have hat := occursAt_iff.1 hocc 0 (by decide)
    have hlen : (d ++ delimiterString).length ≤ j := by
      rw [length_append]
      change d.length + 1 ≤ j
      omega
    rw [Nat.add_zero, List.getElem?_append_right hlen] at hat
    exact hn (mem_of_getElem? hat.symm)

theorem pathSetTo_eq (hd : d ≠ []) (hlast : d.getLast? ≠ some pathDelimiter) (hn : n ≠ [])
    (hname : pathDelimiter ∉ n) : pathSetTo true d n = (0, d ++ delimiterString ++ n) := by
  have hroot : n.startsAtRoot = false := by
    refine decide_eq_false fun h => hname (mem_of_mem_head? h)
  have hdl : d.length ≠ 0 := fun h => hd (length_eq_zero_iff.1 h)
  have hnl : n.length ≠ 0 := fun h => hn (length_eq_zero_iff.1 h)
  simp [pathSetTo, hroot, hdl, hnl, hlast]

theorem pathLeaf_eq (hn : pathDelimiter ∉ n) :
    pathLeaf (d ++ delimiterString ++ n) = upToZero n := by
  have hdrop : ((d.length : ℤ) + 1).toNat = (d ++ delimiterString).length := by
    rw [length_append]
    rfl
  rw [pathLeaf, findLastChars_leaf hn, if_pos (by omega), hdrop, drop_left]

theorem pathGetParent_eq (hd : d ≠ []) (hn : pathDelimiter ∉ n) :
    pathGetParent (d ++ delimiterString ++ n) = (0, d) := by
  have hpos := length_pos_of_ne_nil hd
  have hroot : pathRootLength (d ++ delimiterString ++ n) ≤ 1 := by
    unfold pathRootLength
    split <;> omega
  rw [pathGetParent, findLastChars_leaf hn, if_neg (by omega), if_neg (by omega),
    Int.toNat_natCast, append_assoc, take_left]

/-- What is put together is taken apart again. -/
structure Parts (malloc : Bool) (d n : SString) : Prop where
  status : (pathSetTo malloc d n).1 = 0
  leaf : pathLeaf (pathSetTo malloc d n).2 = n
  parent : pathGetParent (pathSetTo malloc d n).2 = (0, d)

/-- **`PathLeaf` and `PathGetParent` undo `PathSetTo`** where there is memory and no zero in the
name. -/
theorem pathSetTo_parts (hd : d ≠ []) (hlast : d.getLast? ≠ some pathDelimiter) (hn : n ≠ [])
    (hname : pathDelimiter ∉ n) : Parts malloc d n ↔ malloc = true ∧ nul ∉ n := by
  constructor
  · intro h
    have hmalloc : malloc = true := by
      by_contra hno
      have hstatus := h.status
      rw [Bool.eq_false_of_not_eq_true hno] at hstatus
      exact absurd hstatus (by simp [pathSetTo, noMemory])
    subst hmalloc
    have hleaf := h.leaf
    rw [pathSetTo_eq hd hlast hn hname, pathLeaf_eq hname] at hleaf
    exact ⟨rfl, hleaf ▸ nul_notMem_upToZero⟩
  · rintro ⟨rfl, hnul⟩
    have heq := pathSetTo_eq hd hlast hn hname
    exact {
      status := by rw [heq]
      leaf := by rw [heq, pathLeaf_eq hname, upToZero_eq hnul]
      parent := by rw [heq, pathGetParent_eq hd hname] }

/-! ### The first name -/

theorem occursAt_delimiter {k : ℕ} :
    OccursAt delimiterString path k ↔ path[k]? = some pathDelimiter := by
  rw [occursAt_iff]
  constructor
  · intro h
    exact (h 0 (by decide)).symm
  · intro h t ht
    obtain rfl : t = 0 := Nat.lt_one_iff.1 ht
    exact h.symm

theorem findFirst_delimiter (h : nul ∉ path) {o : ℕ} (ho : o ≤ path.length) :
    findFirstCharsFrom nul path delimiterString o =
      if (path.drop o).findIdx (· == pathDelimiter) < (path.drop o).length then
        ((o + (path.drop o).findIdx (· == pathDelimiter) : ℕ) : ℤ) else -1 := by
  have hshown : Shown nul delimiterString path o := by
    intro k hk hocc
    exact ⟨k, hk, le_rfl, hocc, fun hmem => h (mem_of_mem_drop (mem_of_mem_take hmem))⟩
  have hfirst := (findFirstCharsFrom_iff delimiterString_ne_nil nul_notMem_delimiterString ho).2
    hshown
  refine hfirst.unique ?_
  have hbefore : ∀ j, o ≤ j → OccursAt delimiterString path j →
      o + (path.drop o).findIdx (· == pathDelimiter) ≤ j := by
    intro j hj hocc
    by_contra hlt
    have hlt' : j - o < (path.drop o).findIdx (· == pathDelimiter) := by omega
    have hno := not_of_lt_findIdx hlt'
    rw [occursAt_delimiter] at hocc
    obtain ⟨hjlt, hget⟩ := List.getElem?_eq_some_iff.1 hocc
    rw [getElem_drop] at hno
    simp only [Nat.add_sub_cancel' hj, hget, beq_self_eq_true] at hno
    exact Bool.noConfusion hno
  by_cases hlt : (path.drop o).findIdx (· == pathDelimiter) < (path.drop o).length
  · rw [if_pos hlt]
    refine .inl ⟨_, rfl, Nat.le_add_right .., ?_, hbefore⟩
    have hget := findIdx_getElem (w := hlt)
    rw [occursAt_delimiter, ← List.getElem?_drop, List.getElem?_eq_getElem hlt]
    exact congrArg some (by simpa using hget)
  · rw [if_neg hlt]
    refine .inr ⟨rfl, fun j hj hocc => ?_⟩
    have hle := hbefore j hj hocc
    have hend := hocc.add_le delimiterString_ne_nil
    have : delimiterString.length = 1 := rfl
    rw [length_drop] at hlt
    omega

/-- The loop skips the slashes and stops at the next one behind the name. -/
theorem branchPosLoop_eq (h : nul ∉ path) (fuel : ℕ) :
    ∀ start, start ≤ path.length → path.length < fuel + start →
      branchPosLoop path fuel start =
        some (start + branchStart (path.drop start), start + branchEnd (path.drop start)) := by
  induction fuel with
  | zero =>
    intro start hle hlt
    omega
  | succ fuel ih =>
    intro start hle hlt
    rw [branchPosLoop, findFirst_delimiter h hle]
    rcases hdrop : path.drop start with _ | ⟨c, rest⟩
    · have hend : path.length ≤ start := drop_eq_nil_iff.1 hdrop
      simp [branchStart, branchEnd]
      omega
    · have hrest : path.drop (start + 1) = rest := by
        rw [← drop_drop, hdrop, drop_one, tail_cons]
      have hlen : rest.length + 1 + start = path.length := by
        have := congrArg List.length hdrop
        rw [length_drop, length_cons] at this
        omega
      by_cases hc : c = pathDelimiter
      · subst hc
        have ih' := ih (start + 1) (by omega) (by omega)
        rw [hrest] at ih'
        simp [findIdx_cons, ih', branchStart, branchEnd]
        omega
      · have hne : (c == pathDelimiter) = false := beq_eq_false_iff_ne.2 hc
        have hb : (c != pathDelimiter) = true := by rw [bne, hne]; rfl
        have hle' : rest.findIdx (· == pathDelimiter) ≤ rest.length := findIdx_le_length
        simp only [findIdx_cons, hne, cond_false, branchStart, branchEnd, hb, cond_true,
          length_cons, drop_zero]
        by_cases hin : rest.findIdx (· == pathDelimiter) + 1 < rest.length + 1
        · rw [if_pos hin, if_neg (by omega), if_neg (by omega)]
          simp only [Option.some.injEq, Prod.mk.injEq]
          omega
        · rw [if_neg hin, if_neg (by omega), if_pos (by omega)]
          simp only [Option.some.injEq, Prod.mk.injEq]
          omega

theorem getBranchPos_eq (h : nul ∉ path) :
    getBranchPos path = some (path.branchStart, path.branchEnd) := by
  have hroot : pathRootLength path ≤ path.length := by
    unfold pathRootLength startsAtRoot
    cases path <;> simp
    split <;> omega
  rw [getBranchPos, branchPosLoop_eq h _ _ hroot (by omega)]
  rcases path with _ | ⟨c, rest⟩
  · rfl
  · by_cases hc : c = pathDelimiter
    · subst hc
      simp [pathRootLength, startsAtRoot, branchStart, branchEnd, findIdx_cons]
      omega
    · have hroot : pathRootLength (c :: rest) = 0 := by simp [pathRootLength, startsAtRoot, hc]
      rw [hroot, drop_zero, Nat.zero_add, Nat.zero_add]

theorem removeRoot_eq (h : nul ∉ path) : removeRoot path = some (pathRemoveRoot path) := by
  have hsub : nul ∉ (path.drop path.branchStart).take (path.branchEnd - path.branchStart) :=
    fun hmem => h (mem_of_mem_drop (mem_of_mem_take hmem))
  rw [removeRoot, getBranchPos_eq h]
  simp only [Option.bind_eq_bind, Option.bind_some, upToZero_eq hsub, drop_take,
    pathRemoveRoot]
  rfl

/-! ### The walk -/

/-- A path is empty, begins with a slash, or is a name and what is behind the slash after it. -/
theorem pathInduction {P : SString → Prop} (nil : P [])
    (slash : ∀ path, P path → P (pathDelimiter :: path))
    (last : ∀ name, name ≠ [] → pathDelimiter ∉ name → P name)
    (first : ∀ name rest, name ≠ [] → pathDelimiter ∉ name → P rest →
      P (name ++ pathDelimiter :: rest)) (path : SString) : P path := by
  induction hlen : path.length using Nat.strong_induction_on generalizing path with
  | _ length ih =>
    subst hlen
    rcases path with _ | ⟨c, path⟩
    · exact nil
    by_cases hc : c = pathDelimiter
    · subst hc
      exact slash path (ih _ (Nat.lt_succ_self _) _ rfl)
    by_cases hmem : pathDelimiter ∈ path
    · obtain ⟨name, rest, rfl, hname⟩ := eq_append_cons_of_mem hmem
      have hnot : pathDelimiter ∉ c :: name := by
        rw [mem_cons, not_or]
        exact ⟨Ne.symm hc, hname⟩
      refine first (c :: name) rest (cons_ne_nil _ _) hnot (ih _ ?_ _ rfl)
      simp only [length_cons, length_append]
      omega
    · refine last _ (cons_ne_nil _ _) ?_
      rw [mem_cons, not_or]
      exact ⟨Ne.symm hc, hmem⟩

@[simp] theorem components_nil : components [] = [] := by simp [components]

@[simp] theorem components_slash : components (pathDelimiter :: path) = components path := by
  simp [components, splitOn_cons_eq_if_modifyHead]

theorem components_name (hne : name ≠ []) (h : pathDelimiter ∉ name) :
    components name = [name] := by
  simp [components, splitOn_eq_singleton h, hne]

theorem components_first (hne : name ≠ []) (h : pathDelimiter ∉ name) :
    components (name ++ pathDelimiter :: rest) = name :: components rest := by
  simp [components, splitOn_append_cons_self_of_not_mem h, hne]

theorem exists_mem_components (hc : c ≠ pathDelimiter) (hmem : c ∈ path) :
    ∃ name ∈ components path, c ∈ name := by
  induction path using pathInduction with
  | nil => exact absurd hmem not_mem_nil
  | slash path ih =>
    rw [components_slash]
    exact ih ((mem_cons.1 hmem).resolve_left hc)
  | last name hne hname => exact ⟨name, by simp [components_name hne hname], hmem⟩
  | first name rest hne hname ih =>
    rw [components_first hne hname]
    rcases mem_append.1 hmem with hin | hin
    · exact ⟨name, mem_cons_self .., hin⟩
    · obtain ⟨other, hother, hco⟩ := ih ((mem_cons.1 hin).resolve_left hc)
      exact ⟨other, mem_cons_of_mem _ hother, hco⟩

theorem not_trails_nil : ¬ Trails [] := by decide

theorem trails_slash : Trails (pathDelimiter :: path) ↔ path = [] ∨ Trails path := by
  simp only [Trails, delimiterString, suffix_cons_iff, cons_append, nil_append,
    List.cons.injEq, true_and]
  tauto

theorem not_trails_name (hne : name ≠ []) (h : pathDelimiter ∉ name) : ¬ Trails name := by
  rintro (rfl | ⟨front, rfl⟩)
  · exact h (mem_cons_self ..)
  · exact h (by simp [delimiterString])

theorem suffix_first (h : pathDelimiter ∉ name) :
    delimiterString ++ delimiterString <:+ name ++ pathDelimiter :: rest ↔ Trails rest := by
  induction name with
  | nil => simp [Trails, delimiterString, suffix_cons_iff, eq_comm]
  | cons c name ih =>
    obtain ⟨hc, hname⟩ := not_or.1 (mt mem_cons.2 h)
    rw [cons_append, suffix_cons_iff, ih hname]
    simp [delimiterString, hc]

theorem trails_first (hne : name ≠ []) (h : pathDelimiter ∉ name) :
    Trails (name ++ pathDelimiter :: rest) ↔ Trails rest := by
  have hno : name ++ pathDelimiter :: rest ≠ delimiterString := by
    intro heq
    have hlen := congrArg List.length heq
    have hpos := length_pos_of_ne_nil hne
    simp only [length_append, length_cons, delimiterString, length_nil] at hlen
    omega
  rw [Trails, or_iff_right hno, suffix_first h]

theorem pathRemoveRoot_slash : pathRemoveRoot (pathDelimiter :: path) = pathRemoveRoot path := by
  have hstart : branchStart (pathDelimiter :: path) = branchStart path + 1 := by
    simp [branchStart, findIdx_cons]
  have hend : branchEnd (pathDelimiter :: path) = branchEnd path + 1 := by
    simp only [branchEnd, hstart, drop_succ_cons]
    omega
  have hshift : ∀ n, (if n + 1 < (pathDelimiter :: path).length then n + 1 + 1 else n + 1) =
      (if n < path.length then n + 1 else n) + 1 := by
    intro n
    rw [length_cons]
    split <;> split <;> omega
  simp only [pathRemoveRoot, hstart, hend, hshift, take_succ_cons, drop_succ_cons]

theorem pathRemoveRoot_cases (hne : path ≠ []) :
    (pathRemoveRoot path = ([], []) ∧ components path = [] ∧ Trails path) ∨
      ∃ name rest, pathRemoveRoot path = (name, rest) ∧ components path = name :: components rest ∧
        (Trails path ↔ Trails rest) ∧ rest.length < path.length := by
  induction path using pathInduction with
  | nil => exact absurd rfl hne
  | slash path ih =>
    rw [pathRemoveRoot_slash, components_slash, trails_slash]
    by_cases hp : path = []
    · subst hp
      exact .inl ⟨by decide, components_nil, .inl rfl⟩
    · rw [or_iff_right hp]
      rcases ih hp with h | ⟨name, rest, h1, h2, h3, hlt⟩
      · exact .inl h
      · exact .inr ⟨name, rest, h1, h2, h3, hlt.trans (Nat.lt_succ_self _)⟩
  | last name hne hname =>
    refine .inr ⟨name, [], pathRemoveRoot_name hname, ?_, ?_, length_pos_of_ne_nil hne⟩
    · rw [components_name hne hname, components_nil]
    · exact iff_of_false (not_trails_name hne hname) not_trails_nil
  | first name rest hne' hname _ =>
    refine .inr ⟨name, rest, pathRemoveRoot_delimiter hne' hname rest,
      components_first hne' hname, trails_first hne' hname, ?_⟩
    simp only [length_append, length_cons]
    omega

theorem nul_notMem_pathRemoveRoot (h : nul ∉ path) : nul ∉ (pathRemoveRoot path).2 :=
  fun hmem => h (mem_of_mem_drop hmem)

/-- **A walk ends** and gives the names of the path, with an empty one behind them where it trails. -/
theorem walkNames_eq (fuel : ℕ) :
    ∀ path, path.length ≤ fuel → nul ∉ path →
      walkNames fuel path = some (components path ++ if Trails path then [[]] else []) := by
  induction fuel with
  | zero =>
    intro path hle _
    rw [length_eq_zero_iff.1 (Nat.le_zero.1 hle), walkNames, components_nil,
      if_neg not_trails_nil, append_nil]
  | succ fuel ih =>
    intro path hle hnul
    by_cases hne : path = []
    · rw [hne, walkNames, components_nil, if_neg not_trails_nil, append_nil]
    rw [walkNames.eq_3 _ _ hne, removeRoot_eq hnul]
    have hnul' := nul_notMem_pathRemoveRoot hnul
    rcases pathRemoveRoot_cases hne with ⟨h1, h2, h3⟩ | ⟨name, rest, h1, h2, h3, hlt⟩
    · -- nothing but slashes: one empty name, and the path is empty
      rw [h1, h2, if_pos h3]
      cases fuel <;> rfl
    · rw [h1] at hnul' ⊢
      simp [ih rest (by omega) hnul', h2, h3]

theorem nul_notMem_removeRoot {branch : SString} (h : removeRoot path = some (branch, rest)) :
    nul ∉ branch := by
  rw [removeRoot] at h
  obtain ⟨⟨start, last⟩, -, heq⟩ := Option.bind_eq_some_iff.1 h
  obtain ⟨⟩ := heq
  exact nul_notMem_upToZero

theorem nul_notMem_walkNames (fuel : ℕ) :
    ∀ path names, walkNames fuel path = some names → ∀ name ∈ names, nul ∉ name := by
  induction fuel with
  | zero =>
    intro path names h
    rcases path with _ | ⟨c, path⟩
    · rw [walkNames] at h
      rw [← Option.some.inj h]
      exact fun name hmem => absurd hmem not_mem_nil
    · exact absurd h (by simp [walkNames])
  | succ fuel ih =>
    intro path names h
    rcases path with _ | ⟨c, path⟩
    · rw [walkNames] at h
      rw [← Option.some.inj h]
      exact fun name hmem => absurd hmem not_mem_nil
    · rw [walkNames.eq_3 _ _ (cons_ne_nil _ _)] at h
      obtain ⟨⟨branch, rest⟩, hroot, h⟩ := Option.bind_eq_some_iff.1 h
      obtain ⟨names', hwalk, heq⟩ := Option.bind_eq_some_iff.1 h
      rw [← Option.some.inj heq]
      intro name hmem
      rcases mem_cons.1 hmem with rfl | hmem
      · exact nul_notMem_removeRoot hroot
      · exact ih rest names' hwalk name hmem

/-- **A walk visits the names** of the path exactly where no zero is in it and it does not trail. -/
theorem walkNames_iff :
    walkNames path.length path = some (components path) ↔ nul ∉ path ∧ ¬ Trails path := by
  constructor
  · intro h
    have hnul : nul ∉ path := by
      intro hmem
      obtain ⟨name, hname, hin⟩ := exists_mem_components nul_ne_delimiter hmem
      exact nul_notMem_walkNames _ _ _ h name hname hin
    refine ⟨hnul, fun htrails => ?_⟩
    rw [walkNames_eq _ _ le_rfl hnul, if_pos htrails] at h
    simpa using Option.some.inj h
  · rintro ⟨hnul, htrails⟩
    rw [walkNames_eq _ _ le_rfl hnul, if_neg htrails, append_nil]

/-- **Paths are taken apart** as they are put together, and walked by their names, exactly where there
is memory, no zero in the name or the path, and no second slash at the end of the path. -/
theorem parts_iff (malloc : Bool) (d n path : SString) (hd : d ≠ [])
    (hlast : d.getLast? ≠ some pathDelimiter) (hn : n ≠ []) (hname : pathDelimiter ∉ n) :
    Parts malloc d n ∧ walkNames path.length path = some (components path) ↔
      (malloc = true ∧ nul ∉ n) ∧ nul ∉ path ∧ ¬ Trails path := by
  rw [pathSetTo_parts hd hlast hn hname, walkNames_iff]

theorem parts_iff_usr_bin :
    Parts true ['u', 's', 'r'] ['b', 'i', 'n'] ∧ walkNames 7 ['/', 'a', '/', '/', 'b', '/', '/'] =
        some (components ['/', 'a', '/', '/', 'b', '/', '/']) ↔
      (true = true ∧ nul ∉ ['b', 'i', 'n']) ∧ nul ∉ ['/', 'a', '/', '/', 'b', '/', '/'] ∧
        ¬ Trails ['/', 'a', '/', '/', 'b', '/', '/'] :=
  parts_iff true ['u', 's', 'r'] ['b', 'i', 'n'] ['/', 'a', '/', '/', 'b', '/', '/'] (by decide)
    (by decide) (by decide) (by decide)

/-- The walk over `a//` ends with an empty name. -/
theorem walkNames_trails : walkNames 3 ['a', '/', '/'] = some [['a'], []] ∧
    components ['a', '/', '/'] = [['a']] ∧
    ¬ (Parts true ['u', 's', 'r'] ['b', 'i', 'n'] ∧
      walkNames 3 ['a', '/', '/'] = some (components ['a', '/', '/'])) := by
  refine ⟨by decide, by decide, fun h => ?_⟩
  exact absurd h.2 (by decide)

end SString

end OpenBinder
