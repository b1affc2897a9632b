import OpenBinder.Value.JoinItem
import OpenBinder.Value.Lookup
import OpenBinder.Value.Copy
import OpenBinder.Value.Laws

/-!
# Remove and Retain

`Remove` and `Retain` walk through a value in the same way and rebuild it with `JoinItem`;
they differ in what becomes of a simple value. Both are one recursion here (`correctWith`),
with a `Half` for the difference.

* `partDen`: the set of paths that a half stands for, as `JoinItem` puts it together.
* `correctWith_spec`: the recursion has a normalised result that stands for this set.
-/

namespace OpenBinder.SValue

open Lib List

/-- The two halves that a value is cut into. -/
inductive Half where
  | removed
  | retained

/-- What `correct_remove` makes of a simple value. -/
def removeTerminal (lhs rhs : SValue) : SValue :=
  if rhs.isSimple then
    if !rhs.isWild && decide (lhs.compare rhs ≠ .eq) then lhs else undefined
  else if !rhs.hasItem wild lhs then lhs else undefined

/-- What `correct_retain` makes of a simple value. -/
def retainTerminal (lhs rhs : SValue) : SValue :=
  if rhs.isSimple then
    if rhs.isWild || decide (lhs.compare rhs = .eq) then lhs
    else if lhs.isWild then rhs else undefined
  else if rhs.hasItem wild lhs then lhs else undefined

def Half.terminal : Half → SValue → SValue → SValue
  | removed => removeTerminal
  | retained => retainTerminal

/-- Whether an item is taken as a whole, without recursion. -/
def Half.takes : Half → SValue → Bool
  | removed, found => !found.isDefined
  | retained, found => found.isDefined

mutual

/-- The recursion that `correct_remove` and `correct_retain` have in common. -/
def correctWith (half : Half) (flags : Flags) : SValue → SValue → Option SValue
  | map ⟨_, _, maps⟩, rhs =>
    if rhs.errorCheck < 0 then some rhs
    else correctItems half flags maps rhs undefined
  | lhs, rhs =>
    if rhs.errorCheck < 0 then some (if lhs.errorCheck < 0 then lhs else rhs)
    else some (half.terminal lhs rhs)

/-- The loop, with the result so far. -/
def correctItems (half : Half) (flags : Flags) : List Pair → SValue → SValue → Option SValue
  | [], _, result => some result
  | (key, value) :: rest, rhs, result =>
    if flags.noRecursion then
      if half.takes (rhs.valueFor key) then do
        let result ← joinItem result key value { flags with noFlatten := true }
        correctItems half flags rest rhs result
      else correctItems half flags rest rhs result
    else do
      let part ← correctWith half flags value (rhs.valueFor key)
      let result ← joinItem result key part { flags with noFlatten := true }
      correctItems half flags rest rhs result

end

def correctRemove (flags : Flags) (lhs rhs : SValue) : Option SValue :=
  correctWith .removed flags lhs rhs

def correctRetain (flags : Flags) (lhs rhs : SValue) : Option SValue :=
  correctWith .retained flags lhs rhs

def removeCopy (flags : Flags) (this from' : SValue) : Option SValue := correctRemove flags this from'

def retainCopy (flags : Flags) (this from' : SValue) : Option SValue := correctRetain flags this from'

def joinCopy (flags : Flags) (this from' : SValue) : Option SValue := join flags this.copy from'

/-! ## What a half stands for -/

open Classical in
/-- What joining an item adds to a set of paths, where `d` is what its value holds. -/
noncomputable def addPart (acc : PathSet Code Code) (key : SValue) (d : PathSet Code Code) :
    PathSet Code Code :=
  if d = ∅ then acc
  else if key.isWild then if d = leaf null.code ∧ acc ≠ ∅ then Set.univ else acc ∪ d
  else acc ∪ if d = leaf null.code then key.den else under key.code d

mutual

/-- What a half of a value stands for. -/
noncomputable def partDen (half : Half) : SValue → SValue → PathSet Code Code
  | map ⟨_, _, maps⟩, rhs => partItemsDen half maps rhs ∅
  | lhs, rhs => (half.terminal lhs rhs).den

/-- What a half of the pairs of a table adds. -/
noncomputable def partItemsDen (half : Half) :
    List Pair → SValue → PathSet Code Code → PathSet Code Code
  | [], _, acc => acc
  | (key, value) :: rest, rhs, acc =>
    partItemsDen half rest rhs (addPart acc key (partDen half value (rhs.valueFor key)))

end

variable {half : Half} {lhs rhs v key value : SValue} {flags : Flags}

theorem partDen_of_isSimple (h : lhs.isSimple = true) :
    partDen half lhs rhs = (half.terminal lhs rhs).den := by
  cases lhs with
  | map m => rw [isSimple_map] at h; cases h
  | _ => rw [partDen]; simp

theorem correctWith_of_isSimple (h : lhs.isSimple = true) (he : rhs.isError = false) :
    correctWith half flags lhs rhs = some (half.terminal lhs rhs) := by
  have hc : ¬ rhs.errorCheck < 0 := by rw [errorCheck_of_isError he]; decide
  cases lhs with
  | map m => rw [isSimple_map] at h; cases h
  | _ =>
    rw [correctWith, if_neg hc]
    simp

/-- A terminal goes to a half as it is or not at all, except that `WILD` may be cut down. -/
theorem terminal_cases (half : Half) (lhs rhs : SValue) :
    half.terminal lhs rhs = lhs ∨ half.terminal lhs rhs = undefined ∨
      (lhs.isWild = true ∧ half.terminal lhs rhs = rhs) := by
  cases half with
  | removed =>
    simp only [Half.terminal, removeTerminal]
    split
    · split
      · exact .inl rfl
      · exact .inr (.inl rfl)
    · split
      · exact .inl rfl
      · exact .inr (.inl rfl)
  | retained =>
    simp only [Half.terminal, retainTerminal]
    split
    · split
      · exact .inl rfl
      · split
        · rename_i hw
          exact .inr (.inr ⟨hw, rfl⟩)
        · exact .inr (.inl rfl)
    · split
      · exact .inl rfl
      · exact .inr (.inl rfl)

theorem isNull_iff_code : v.isNull = true ↔ v.code = null.code := by
  constructor
  · intro h
    have hty : v.mType = kNullTypeCode := by simpa [isNull] using h
    cases v with
    | small type data =>
      have : type = ⟨kNullTypeCode, by decide⟩ := Subtype.ext hty
      subst this
      rfl
    | large type buffer => exact absurd hty (SmallType.ne_large ⟨kNullTypeCode, by decide⟩ type).symm
    | map m => rw [isNull_map] at h; cases h
  · intro h
    rw [isNull_code h]
    decide

theorem den_eq_empty_iff (hn : v.isNormal = true) : v.den = ∅ ↔ v.isDefined = false := by
  constructor
  · intro h
    by_contra hd
    obtain ⟨x, hx⟩ := den_nonempty v hn (by simpa using hd)
    rw [h] at hx
    exact hx
  · exact den_undefined

theorem den_null (h : v.isNull = true) : v.den = leaf null.code := by
  have hc := isNull_iff_code.1 h
  rw [den_terminal (by rw [isSimple_code hc]; decide) (isWild_of_isNull h)
    (by rw [isDefined_code hc]; decide), hc]

theorem den_eq_null_iff (hn : v.isNormal = true) :
    v.den = leaf null.code ↔ v.isNull = true := by
  refine ⟨fun h => ?_, den_null⟩
  rw [← den_null (by decide : null.isNull = true)] at h
  exact isNull_iff_code.2 (den_injective v null hn rfl h)

theorem joinItem_part (hr : flags.noRecursion = false) (hfl : flags.noFlatten = true)
    {this part : SValue} (hn : this.isNormal = true) (hk : key.isNormal = true)
    (hp : part.isNormal = true) (hf : this.isErrorFree = true) (hkf : key.isErrorFree = true)
    (hpf : part.isErrorFree = true) (hkd : key.isDefined = true)
    (hfresh : isFresh this key part = true) :
    ∃ r, joinItem this key part flags = some r ∧ r.isNormal = true ∧ r.isErrorFree = true ∧
      r.den = addPart this.den key part.den := by
  obtain ⟨nested, r, hjr, hj, hnest⟩ := joinItem_spec hr hn hk hp hfresh
  refine ⟨r, hjr, hj.normal, hj.errorFree hf hkf hpf, ?_⟩
  rw [hj.den_eq hf hkf hpf, hnest hfl, addPart, addedDen, hkd]
  simp only [den_eq_empty_iff hp, den_eq_null_iff hp, ne_eq, den_eq_empty_iff hn]
  cases hpd : part.isDefined with
  | false =>
    have hnull : part.isNull = false := by
      rw [isNull_code (eq_undefined_code hpd)]; decide
    simp [hnull]
  | true =>
    cases hkw : key.isWild with
    | true => simp
    | false => cases part.isNull <;> simp

/-! ## The recursion -/

/-- A result so far that is a single terminal comes from an item that is done: it is its set
item, or its key, which `JoinItem` has put in place of `{key -> NULL}`. -/
def FromDone (done : List Pair) (acc : PathSet Code Code) : Prop :=
  ∀ t, acc = leaf t → ∃ p ∈ done, slot p = t ++ [0] ∨ slot p = t ++ [1]

theorem partDen_setItem (half : Half) (rhs : SValue) (hp : isProper (key, value) = true)
    (hkw : key.isWild = true) :
    half.terminal value rhs = value ∨ half.terminal value rhs = undefined := by
  rcases terminal_cases half value rhs with h | h | ⟨hw, -⟩
  · exact .inl h
  · exact .inr h
  · rw [((isProper_iff.1 hp).2.2 hkw).2] at hw
    cases hw

theorem leaf_ne_empty (t : Code) : (leaf t : PathSet Code Code) ≠ ∅ := by
  intro h
  have : (([], t) : List Code × Code) ∈ (leaf t : PathSet Code Code) := rfl
  rw [h] at this
  exact this

theorem univ_ne_leaf (t : Code) : (Set.univ : PathSet Code Code) ≠ leaf t := by
  intro h
  have : (([[]], []) : List Code × Code) ∈ (leaf t : PathSet Code Code) := by rw [← h]; trivial
  simp at this

theorem eq_leaf_of_union {S T : PathSet Code Code} {t : Code} (h : S ∪ T = leaf t) (hT : T ≠ ∅) :
    T = leaf t := by
  have hsub : T ⊆ leaf t := by rw [← h]; exact Set.subset_union_right
  rcases Set.subset_singleton_iff_eq.1 hsub with h | h
  · exact absurd h hT
  · exact h

theorem FromDone.step {done : List Pair} {acc : PathSet Code Code} {found : SValue}
    (h : FromDone done acc) (hn : key.isNormal = true ∧ value.isNormal = true)
    (hp : isProper (key, value) = true) :
    FromDone (done ++ [(key, value)]) (addPart acc key (partDen half value found)) := by
  intro t ht
  have hnew : ∀ s, slot (key, value) = s → (s = t ++ [0] ∨ s = t ++ [1]) →
      ∃ p ∈ done ++ [(key, value)], slot p = t ++ [0] ∨ slot p = t ++ [1] := fun s hs hst =>
    ⟨_, mem_append_right _ (mem_singleton.2 rfl), by rw [hs]; exact hst⟩
  unfold addPart at ht
  split at ht
  · obtain ⟨p, hp', hs⟩ := h t ht
    exact ⟨p, mem_append_left _ hp', hs⟩
  rename_i hne
  split at ht
  · rename_i hkw
    split at ht
    · exact absurd ht (univ_ne_leaf t)
    · have hd := eq_leaf_of_union ht hne
      obtain ⟨hvd, hvs⟩ := (isProper_iff.1 hp).2
      obtain ⟨hvs, hvw⟩ := hvs hkw
      rw [partDen_of_isSimple hvs] at hd hne
      rcases partDen_setItem half found hp hkw with hterm | hterm
      · rw [hterm, den_terminal hvs hvw hvd] at hd
        have hc : value.code = t := by
          have : (([], value.code) : List Code × Code) ∈ (leaf t : PathSet Code Code) := by
            rw [← hd]; rfl
          simpa using this
        exact hnew _ (slot_wild hkw value) (.inl (by rw [hc]))
      · rw [hterm] at hne
        exact absurd (den_undefined (by decide)) hne
  · rename_i hkw
    have hkw : key.isWild = false := by simpa using hkw
    split at ht
    · have hd := eq_leaf_of_union ht (by
        rw [ne_eq, den_eq_empty_iff hn.1, (isProper_iff.1 hp).1]
        simp)
      have hc : key.code = t := by
        cases hks : key.isSimple with
        | true =>
          rw [den_terminal hks hkw (isProper_iff.1 hp).1] at hd
          have : (([], key.code) : List Code × Code) ∈ (leaf t : PathSet Code Code) := by
            rw [← hd]; rfl
          simpa using this
        | false =>
          obtain ⟨m, rfl⟩ := isSimple_eq_false.1 hks
          exact absurd hd (den_map_ne_leaf hn.1 t)
      exact hnew _ (slot_key hkw value) (.inr (by rw [hc]))
    · have hune : (under key.code (partDen half value found) : PathSet Code Code) ≠ ∅ := by
        rw [← Set.nonempty_iff_ne_empty]
        exact under_nonempty (Set.nonempty_iff_ne_empty.2 hne)
      have hd := eq_leaf_of_union ht hune
      have : (([], t) : List Code × Code) ∈ (under key.code (partDen half value found) :
          PathSet Code Code) := by rw [hd]; rfl
      simp at this

theorem FromDone.fresh {done rest : List Pair} {this found : SValue} (h : FromDone done this.den)
    (hi : Items (done ++ (key, value) :: rest))
    (hthis : this.isSimple = true → this.isSpecified = true → this.den = leaf this.code) :
    isFresh this key (half.terminal value found) = true := by
  cases hkw : key.isWild with
  | false => simp [isFresh, hkw]
  | true =>
  have hin : (key, value) ∈ done ++ (key, value) :: rest := mem_append_right _ mem_cons_self
  have hp := hi.proper _ hin
  by_contra hcon
  simp only [isFresh, Bool.not_eq_true', Bool.not_eq_false, Bool.and_eq_true,
    decide_eq_true_eq] at hcon
  obtain ⟨⟨⟨⟨⟨⟨-, -⟩, hs⟩, hspec⟩, -⟩, -⟩, hcmp⟩ := hcon
  have hcode := compare_eq_iff.1 hcmp
  have hterm : half.terminal value found = value := by
    rcases partDen_setItem half found hp hkw with hterm | hterm
    · exact hterm
    · rw [hterm] at hcode
      have hud : undefined.isDefined = false := by decide
      rw [isSpecified, isDefined_code hcode, hud] at hspec
      cases hspec
  rw [hterm] at hcode
  obtain ⟨p, hp', hs'⟩ := h this.code (hthis hs hspec)
  have hlt : cmpCode (slot p) (slot (key, value)) = .lt :=
    (pairwise_append.1 hi.table).2.2 p hp' _ mem_cons_self
  rw [slot_wild hkw, ← hcode] at hlt
  rcases hs' with hs' | hs'
  · rw [hs'] at hlt
    exact cmp_irrefl _ hlt
  · rw [hs'] at hlt
    have hgt : cmpCode (this.code ++ [1]) (this.code ++ [0]) = .gt := by
      rw [cmpCode_append rfl, cmpCode_self]
      decide
    rw [hgt] at hlt
    cases hlt

theorem isNormal_terminal (h : lhs.isNormal = true) (h' : rhs.isNormal = true) :
    (half.terminal lhs rhs).isNormal = true := by
  rcases terminal_cases half lhs rhs with ht | ht | ⟨-, ht⟩ <;> rw [ht]
  · exact h
  · rfl
  · exact h'

theorem isErrorFree_terminal (h : lhs.isErrorFree = true) (h' : rhs.isErrorFree = true) :
    (half.terminal lhs rhs).isErrorFree = true := by
  rcases terminal_cases half lhs rhs with ht | ht | ⟨-, ht⟩ <;> rw [ht]
  · exact h
  · decide
  · exact h'

/-- What a call of the recursion promises. -/
def Selects (half : Half) (flags : Flags) (lhs : SValue) : Prop :=
  ∀ rhs : SValue, lhs.isNormal = true → lhs.isErrorFree = true → rhs.isNormal = true →
    rhs.isErrorFree = true → ∃ r, correctWith half flags lhs rhs = some r ∧ r.isNormal = true ∧
      r.isErrorFree = true ∧ r.den = partDen half lhs rhs

theorem correctItems_spec (hr : flags.noRecursion = false)
 (hrn : rhs.isNormal = true) (hrf : rhs.isErrorFree = true) :
    ∀ (l done : List Pair) (this : SValue), Items (done ++ l) → allErrorFree l = true →
      (∀ p ∈ l, Selects half flags p.2) → this.isNormal = true → this.isErrorFree = true →
      FromDone done this.den → ∃ r, correctItems half flags l rhs this = some r ∧
        r.isNormal = true ∧ r.isErrorFree = true ∧ r.den = partItemsDen half l rhs this.den := by
  intro l
  induction l with
  | nil =>
    intro done this _ _ _ hn hf _
    exact ⟨this, by rw [correctItems], hn, hf, by rw [partItemsDen]⟩
  | cons p l ih =>
    intro done this hi hl hsel hn hf hdone
    obtain ⟨key, value⟩ := p
    have hin : (key, value) ∈ done ++ (key, value) :: l :=
      mem_append_right _ mem_cons_self
    have hpn := hi.normal _ hin
    have hp := hi.proper _ hin
    rw [allErrorFree_iff] at hl
    have hpf := hl _ mem_cons_self
    have hfn := isNormal_valueFor hrn hpn.1
    have hff := isErrorFree_valueFor hrf hpf.1
    obtain ⟨part, hpart, hprn, hprf, hpd⟩ :=
      hsel _ mem_cons_self (rhs.valueFor key) hpn.2 hpf.2 hfn hff
    have hthis : this.isSimple = true → this.isSpecified = true → this.den = leaf this.code := by
      intro hs hspec
      rw [isSpecified, Bool.and_eq_true, Bool.not_eq_true'] at hspec
      exact den_terminal hs hspec.2 hspec.1
    have hfresh : isFresh this key part = true := by
      cases hkw : key.isWild with
      | false => simp [isFresh, hkw]
      | true =>
        have hvs := ((isProper_iff.1 hp).2.2 hkw).1
        rw [correctWith_of_isSimple hvs (isError_of_isErrorFree hff)] at hpart
        cases hpart
        exact hdone.fresh hi hthis
    have hr' : ({ flags with noFlatten := true } : Flags).noRecursion = false := hr
    obtain ⟨this', hjoin, hn', hf', hden⟩ :=
      joinItem_part hr' rfl hn hpn.1 hprn hf hpf.1 hprf (isProper_iff.1 hp).1 hfresh
    rw [hpd] at hden
    have hdone' : FromDone (done ++ [(key, value)]) this'.den := by
      rw [hden]; exact hdone.step hpn hp
    obtain ⟨r, hres, hrn', hrf', hrd⟩ := ih (done ++ [(key, value)]) this' (by simpa using hi)
      (allErrorFree_iff.2 fun q hq => hl q (mem_cons_of_mem _ hq))
      (fun q hq => hsel q (mem_cons_of_mem _ hq)) hn' hf' hdone'
    refine ⟨r, ?_, hrn', hrf', by rw [hrd, hden, partItemsDen]⟩
    rw [correctItems, if_neg (by simp [hr]), hpart]
    simp only [Option.bind_eq_bind, Option.bind_some]
    rw [hjoin]
    exact hres

/-- **Each half** is a normalised value that stands for what `partDen` says. -/
theorem correctWith_spec (half : Half) (hr : flags.noRecursion = false) :
    ∀ lhs : SValue, Selects half flags lhs := by
  intro lhs
  induction lhs using SValue.ind with
  | map m ih =>
    intro rhs hn hf hrn hrf
    obtain ⟨avail, dataSize, maps⟩ := m
    have hi := (isNormal_map.1 hn).1
    have hc : ¬ rhs.errorCheck < 0 := by
      rw [errorCheck_of_isError (isError_of_isErrorFree hrf)]; decide
    have hfrom : FromDone [] undefined.den := by
      intro t ht
      rw [den_undefined (by decide)] at ht
      exact absurd ht.symm (leaf_ne_empty t)
    obtain ⟨r, hres, hrn', hrf', hrd⟩ := correctItems_spec hr hrn hrf maps [] undefined hi
      (allErrorFree_iff.2 (isErrorFree_map.1 hf)) (fun p hp => (ih p hp).2) rfl (by decide) hfrom
    refine ⟨r, by rw [correctWith, if_neg hc]; exact hres, hrn', hrf', ?_⟩
    rw [hrd, partDen, den_undefined (by decide)]
  | _ =>
    intro rhs hn hf hrn hrf
    refine ⟨_, correctWith_of_isSimple (by simp) (isError_of_isErrorFree hrf),
      isNormal_terminal hn hrn, isErrorFree_terminal hf hrf, (partDen_of_isSimple (by simp)).symm⟩

end OpenBinder.SValue
