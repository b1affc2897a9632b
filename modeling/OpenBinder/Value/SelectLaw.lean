import OpenBinder.Value.Select

/-!
# Remove and Retain cut a value in two

What `Remove` takes away is what `Retain` leaves, so the two halves should join to the value
again. Each half is put together by `JoinItem`, and a `NULL` on the way spoils it: the set
item `NULL` turns a result that has items already into `WILD`, and `{key -> NULL}` into the
set item `key`. `splitOk` says that this does not happen.

* `partDen_union`: where it does not happen, the halves stand for the value together.
* `splitOk_of_union`: for values with plain keys they do so only then.
* `remove_join_retain`: the law.
-/

namespace OpenBinder.SValue

open Lib

mutual

/-- Whether nothing of a value falls to the half. -/
def empties (half : Half) : SValue → SValue → Bool
  | map ⟨_, _, maps⟩, rhs => emptiesItems half maps rhs
  | lhs, rhs => !(half.terminal lhs rhs).isDefined

/-- Whether nothing of the pairs of a table falls to the half. -/
def emptiesItems (half : Half) : List Pair → SValue → Bool
  | [], _ => true
  | (key, value) :: rest, rhs =>
    empties half value (rhs.valueFor key) && emptiesItems half rest rhs

end

/-- Whether all that falls to the half is `NULL`. -/
def nullOnly (half : Half) : SValue → SValue → Bool
  | map m, rhs => !emptiesItems half m.maps rhs && m.maps.all fun p =>
      empties half p.2 (rhs.valueFor p.1) || (p.1.isWild && p.2.isNull) || p.1.isNull
  | lhs, rhs => (half.terminal lhs rhs).isNull

/-- Whether nothing comes to the half before the set item `NULL` does. -/
def nullsFirst (half : Half) (rhs : SValue) : List Pair → List Pair → Bool
  | _, [] => true
  | before, (key, value) :: rest =>
    !(key.isWild && value.isNull && (half.terminal value rhs).isDefined &&
      !emptiesItems half before rhs) && nullsFirst half rhs (before ++ [(key, value)]) rest

/-- Whether a table has the set item. -/
def hasSet (l : List Pair) (value : SValue) : Bool :=
  l.any fun p => p.1.isWild && decide (p.2.compare value = .eq)

mutual

/-- When the two halves are as they should be. -/
def splitOk : SValue → SValue → Bool
  | map ⟨_, _, maps⟩, rhs =>
    nullsFirst .removed rhs [] maps && nullsFirst .retained rhs [] maps && splitItems maps maps rhs
  | _, _ => true

/-- The same for the entries out of all pairs (`whole`). A `NULL` under a key does no harm
if the key is a set item as well and maps to `WILD`. -/
def splitItems (whole : List Pair) : List Pair → SValue → Bool
  | [], _ => true
  | (key, value) :: rest, rhs =>
    (key.isWild || (splitOk value (rhs.valueFor key) &&
      ((!nullOnly .removed value (rhs.valueFor key) && !nullOnly .retained value (rhs.valueFor key)) ||
        (value.isWild && hasSet whole key)))) && splitItems whole rest rhs

end

mutual

/-- Whether no key of a value is a map, or `NULL`. -/
def plainKeys : SValue → Bool
  | map ⟨_, _, maps⟩ => plainItems maps
  | _ => true

/-- The same for the pairs of a table. -/
def plainItems : List Pair → Bool
  | [] => true
  | (key, value) :: rest => key.isSimple && !key.isNull && plainKeys value && plainItems rest

end

mutual

/-- Whether no key of a value maps to `NULL`. -/
def noNullEntries : SValue → Bool
  | map ⟨_, _, maps⟩ => noNullItems maps
  | _ => true

/-- The same for the pairs of a table. -/
def noNullItems : List Pair → Bool
  | [] => true
  | (key, value) :: rest =>
    (key.isWild || !value.isNull) && noNullEntries value && noNullItems rest

end

/-! ## What the items give to a half -/

open Classical in
/-- What one item gives to a half, when nothing is spoilt. -/
noncomputable def itemDen (half : Half) (rhs : SValue) (p : Pair) : PathSet Code Code :=
  if p.1.isWild then partDen half p.2 (rhs.valueFor p.1)
  else if partDen half p.2 (rhs.valueFor p.1) = leaf null.code then p.1.den
  else under p.1.code (partDen half p.2 (rhs.valueFor p.1))

/-- What the items of a table give to a half. -/
def itemsDen (half : Half) (rhs : SValue) (l : List Pair) : PathSet Code Code :=
  {x | ∃ p ∈ l, x ∈ itemDen half rhs p}

theorem under_empty (c : Code) : (under c ∅ : PathSet Code Code) = ∅ := by
  ext ⟨ks, t⟩
  cases ks <;> simp

theorem itemsDen_nil (half : Half) (rhs : SValue) : itemsDen half rhs [] = ∅ := by
  ext x
  simp [itemsDen]

theorem itemsDen_append (half : Half) (rhs : SValue) (l l' : List Pair) :
    itemsDen half rhs (l ++ l') = itemsDen half rhs l ∪ itemsDen half rhs l' := by
  ext x
  simp only [itemsDen, Set.mem_union, Set.mem_ofPred_eq, List.mem_append, or_and_right, exists_or]

theorem itemsDen_singleton (half : Half) (rhs : SValue) (p : Pair) :
    itemsDen half rhs [p] = itemDen half rhs p := by
  ext x
  simp [itemsDen]

variable {acc : PathSet Code Code} {key rhs lhs : SValue} {half : Half} {l : List Pair}
  {m : BValueMap SValue}

theorem addPart_eq (half : Half) (rhs : SValue) (p : Pair)
    (h : ¬ (p.1.isWild = true ∧ partDen half p.2 (rhs.valueFor p.1) = leaf null.code ∧ acc ≠ ∅)) :
    addPart acc p.1 (partDen half p.2 (rhs.valueFor p.1)) = acc ∪ itemDen half rhs p := by
  unfold addPart itemDen
  by_cases he : partDen half p.2 (rhs.valueFor p.1) = ∅
  · rw [if_pos he, he, if_neg (leaf_ne_empty _).symm, under_empty]
    simp
  · rw [if_neg he]
    cases hkw : p.1.isWild with
    | true => rw [if_pos rfl, if_neg (fun hc => h ⟨hkw, hc⟩), if_pos rfl]
    | false => simp

theorem addPart_spoilt {d : PathSet Code Code} (hk : key.isWild = true) (hd : d = leaf null.code)
    (ha : acc ≠ ∅) : addPart acc key d = Set.univ := by
  unfold addPart
  rw [if_neg (by rw [hd]; exact leaf_ne_empty _), if_pos hk, if_pos ⟨hd, ha⟩]

theorem partItemsDen_univ (half : Half) (rhs : SValue) (l : List Pair) :
    partItemsDen half l rhs Set.univ = Set.univ := by
  induction l with
  | nil => rw [partItemsDen]
  | cons p l ih =>
    obtain ⟨key, value⟩ := p
    have hadd : addPart Set.univ key (partDen half value (rhs.valueFor key)) = Set.univ := by
      unfold addPart
      split
      · rfl
      · split
        · split
          · rfl
          · exact Set.univ_union _
        · exact Set.univ_union _
    rw [partItemsDen, hadd, ih]

theorem addPart_eq_empty {d : PathSet Code Code} (hn : key.isNormal = true)
    (hkd : key.isDefined = true) : addPart acc key d = ∅ ↔ acc = ∅ ∧ d = ∅ := by
  unfold addPart
  by_cases he : d = ∅
  · simp [he]
  · have hkey : key.den ≠ ∅ := by rw [ne_eq, den_eq_empty_iff hn, hkd]; simp
    have hund : (under key.code d : PathSet Code Code) ≠ ∅ := by
      rw [← Set.nonempty_iff_ne_empty]
      exact under_nonempty (Set.nonempty_iff_ne_empty.2 he)
    have huniv : (Set.univ : PathSet Code Code) ≠ ∅ := Set.univ_nonempty.ne_empty
    rw [if_neg he]
    split
    · split
      · simp [huniv, he]
      · simp [he]
    · split
      · simp [hkey, he]
      · simp [hund, he]

theorem emptiesItems_iff :
    emptiesItems half l rhs = true ↔ ∀ p ∈ l, empties half p.2 (rhs.valueFor p.1) = true := by
  induction l with
  | nil => simp [emptiesItems]
  | cons p l ih =>
    simp [emptiesItems, ih]

theorem partDen_eq_empty : ∀ lhs rhs : SValue, lhs.isNormal = true →
    rhs.isNormal = true → (partDen half lhs rhs = ∅ ↔ empties half lhs rhs = true) := by
  intro lhs
  induction lhs using SValue.ind with
  | map m ih =>
    intro rhs hn hrn
    obtain ⟨avail, dataSize, maps⟩ := m
    have hi := (isNormal_map.1 hn).1
    have loop : ∀ l : List Pair, (∀ p ∈ l, p ∈ maps) → ∀ acc : PathSet Code Code,
        partItemsDen half l rhs acc = ∅ ↔ acc = ∅ ∧ emptiesItems half l rhs = true := by
      intro l
      induction l with
      | nil => intro _ acc; simp [partItemsDen, emptiesItems]
      | cons p l ihl =>
        intro hsub acc
        have hp := hsub _ List.mem_cons_self
        have hpn := hi.normal _ hp
        rw [partItemsDen, ihl (fun q hq => hsub q (List.mem_cons_of_mem _ hq)),
          addPart_eq_empty hpn.1 (isProper_iff.1 (hi.proper _ hp)).1,
          (ih _ hp).2 _ hpn.2 (isNormal_valueFor hrn hpn.1), emptiesItems]
        simp [and_assoc]
    rw [partDen, loop maps (fun p hp => hp), empties]
    simp
  | _ =>
    intro rhs hn hrn
    rw [partDen_of_isSimple (by simp), den_eq_empty_iff (isNormal_terminal hn hrn), empties]
    all_goals simp

theorem itemDen_eq_empty {p : Pair} (hpn : p.1.isNormal = true ∧ p.2.isNormal = true)
    (hp : isProper p = true) (hrn : rhs.isNormal = true) :
    itemDen half rhs p = ∅ ↔ empties half p.2 (rhs.valueFor p.1) = true := by
  rw [← partDen_eq_empty _ _ hpn.2 (isNormal_valueFor hrn hpn.1)]
  have hadd := addPart_eq half rhs p (show ¬ (p.1.isWild = true ∧
    partDen half p.2 (rhs.valueFor p.1) = leaf null.code ∧ (∅ : PathSet Code Code) ≠ ∅) by simp)
  rw [Set.empty_union] at hadd
  rw [← hadd, addPart_eq_empty hpn.1 (isProper_iff.1 hp).1]
  simp

theorem itemsDen_eq_empty (hi : Items l) (hrn : rhs.isNormal = true) :
    itemsDen half rhs l = ∅ ↔ emptiesItems half l rhs = true := by
  rw [emptiesItems_iff, Set.eq_empty_iff_forall_notMem]
  constructor
  · intro h p hp
    rw [← itemDen_eq_empty (hi.normal p hp) (hi.proper p hp) hrn, Set.eq_empty_iff_forall_notMem]
    exact fun x hx => h x ⟨p, hp, hx⟩
  · rintro h x ⟨p, hp, hx⟩
    have := (itemDen_eq_empty (hi.normal p hp) (hi.proper p hp) hrn).2 (h p hp)
    rw [this] at hx
    exact hx

/-- What falls to a half of a set item is `NULL` just when it is the set item `NULL`. -/
theorem partDen_set_null {value : SValue} (hn : value.isNormal = true)
    (hp : isProper (key, value) = true) (hkw : key.isWild = true) (hrn : rhs.isNormal = true) :
    partDen half value rhs = leaf null.code ↔
      value.isNull = true ∧ (half.terminal value rhs).isDefined = true := by
  obtain ⟨-, hvd, hvs⟩ := isProper_iff.1 hp
  rw [partDen_of_isSimple (hvs hkw).1, den_eq_null_iff (isNormal_terminal hn hrn)]
  rcases partDen_setItem half rhs hp hkw with h | h
  · rw [h, hvd]; simp
  · rw [h]
    have hu : undefined.isNull = false ∧ undefined.isDefined = false := by decide
    simp [hu]

theorem valueFor_wild {this : SValue} (h : key.isWild = true) : this.valueFor key = this := by
  unfold valueFor
  rw [if_pos h]

theorem partItemsDen_cases (half : Half) (hrn : rhs.isNormal = true) :
    ∀ rest before : List Pair, Items (before ++ rest) →
      (nullsFirst half rhs before rest = true →
        partItemsDen half rest rhs (itemsDen half rhs before) = itemsDen half rhs (before ++ rest)) ∧
      (nullsFirst half rhs before rest = false →
        partItemsDen half rest rhs (itemsDen half rhs before) = Set.univ) := by
  intro rest
  induction rest with
  | nil =>
    intro before _
    exact ⟨fun _ => by rw [partItemsDen, List.append_nil], fun h => by simp [nullsFirst] at h⟩
  | cons p rest ih =>
    intro before hi
    obtain ⟨key, value⟩ := p
    have hin : (key, value) ∈ before ++ (key, value) :: rest :=
      List.mem_append_right _ List.mem_cons_self
    have hbefore : Items before := hi.left
    have hspoil : (key.isWild = true ∧ partDen half value (rhs.valueFor key) = leaf null.code ∧
        itemsDen half rhs before ≠ ∅) ↔ (key.isWild && value.isNull &&
          (half.terminal value rhs).isDefined && !emptiesItems half before rhs) = true := by
      cases hkw : key.isWild with
      | false => simp
      | true =>
        rw [valueFor_wild hkw, partDen_set_null (hi.normal _ hin).2 (hi.proper _ hin) hkw hrn, ne_eq,
          itemsDen_eq_empty hbefore hrn]
        simp [and_assoc]
    rw [partItemsDen, nullsFirst]
    by_cases hs : (key.isWild && value.isNull && (half.terminal value rhs).isDefined &&
        !emptiesItems half before rhs) = true
    · obtain ⟨h1, h2, h3⟩ := hspoil.2 hs
      rw [hs, addPart_spoilt h1 h2 h3, partItemsDen_univ]
      simp
    · have hadd := addPart_eq half rhs (key, value) (fun hc => hs (hspoil.1 hc))
      rw [hadd, ← itemsDen_singleton, ← itemsDen_append]
      have := ih (before ++ [(key, value)]) (by simpa using hi)
      rw [List.append_assoc, List.singleton_append] at this
      simpa [hs] using this

/-! ## The two halves of a terminal -/

theorem terminal_union (lhs rhs : SValue) :
    (removeTerminal lhs rhs).den ∪ (retainTerminal lhs rhs).den = lhs.den := by
  have hu : undefined.den = ∅ := den_undefined (by decide)
  unfold removeTerminal retainTerminal
  by_cases hs : rhs.isSimple = true
  · rw [if_pos hs, if_pos hs]
    by_cases hcov : rhs.isWild = true ∨ lhs.compare rhs = .eq
    · rw [if_neg (by rcases hcov with h | h <;> simp [h]), if_pos (by rcases hcov with h | h <;> simp [h]),
        hu, Set.empty_union]
    · rw [not_or] at hcov
      rw [if_pos (by simpa using hcov), if_neg (by simpa using hcov)]
      split
      · rename_i hw
        rw [den_wild hw, Set.univ_union]
      · rw [hu, Set.union_empty]
  · rw [if_neg hs, if_neg hs]
    cases rhs.hasItem wild lhs <;> simp [hu]

theorem terminal_excl {half' : Half} (hne : half ≠ half') (hw : lhs.isWild = false)
    (hd : (half.terminal lhs rhs).isDefined = true) :
    half'.terminal lhs rhs = undefined := by
  have key : removeTerminal lhs rhs = undefined ∨ retainTerminal lhs rhs = undefined := by
    unfold removeTerminal retainTerminal
    by_cases hs : rhs.isSimple = true
    · rw [if_pos hs, if_pos hs]
      by_cases hcov : rhs.isWild = true ∨ lhs.compare rhs = .eq
      · exact .inl (if_neg (by rcases hcov with h | h <;> simp [h]))
      · rw [not_or] at hcov
        exact .inr (by rw [if_neg (by simpa using hcov), if_neg (by simp [hw])])
    · rw [if_neg hs, if_neg hs]
      cases rhs.hasItem wild lhs
      · exact .inr rfl
      · exact .inl rfl
  have hu : undefined.isDefined = false := by decide
  cases half <;> cases half'
  · exact absurd rfl hne
  · rcases key with h | h
    · simp only [Half.terminal, h, hu] at hd; cases hd
    · exact h
  · rcases key with h | h
    · exact h
    · simp only [Half.terminal, h, hu] at hd; cases hd
  · exact absurd rfl hne

/-- `WILD` comes down to `NULL` only in what is retained, and then it is removed as a whole. -/
theorem nullOnly_wild (hw : lhs.isWild = true) (h : nullOnly half lhs rhs = true) :
    half = .retained ∧ removeTerminal lhs rhs = lhs := by
  have hs : lhs.isSimple = true := by rw [isSimple_code (isWild_iff_code.1 hw)]; decide
  have hnull : (half.terminal lhs rhs).isNull = true := by
    cases lhs with
    | map m => rw [isSimple_map] at hs; cases hs
    | _ => simpa [nullOnly] using h
  have hself : lhs.isNull = false := by
    rw [isNull_code (isWild_iff_code.1 hw)]; decide
  have hu : undefined.isNull = false := by decide
  cases half with
  | removed =>
    simp only [Half.terminal, removeTerminal] at hnull
    split at hnull <;> split at hnull <;> simp [hself, hu] at hnull
  | retained =>
    refine ⟨rfl, ?_⟩
    simp only [Half.terminal, retainTerminal] at hnull
    unfold removeTerminal
    split at hnull
    · rename_i hrs
      split at hnull
      · rw [hself] at hnull; cases hnull
      · rename_i hcov
        rw [if_pos hrs, if_pos (by simpa using hcov)]
    · split at hnull
      · rw [hself] at hnull; cases hnull
      · rw [hu] at hnull; cases hnull

/-! ## A half that is `NULL` -/

theorem partDen_map_cases (half : Half) (hi : Items m.maps) (hrn : rhs.isNormal = true) :
    (nullsFirst half rhs [] m.maps = true ∧ partDen half (map m) rhs = itemsDen half rhs m.maps) ∨
      (nullsFirst half rhs [] m.maps = false ∧ partDen half (map m) rhs = Set.univ) := by
  have hden : partDen half (map m) rhs = partItemsDen half m.maps rhs (itemsDen half rhs []) := by
    rw [partDen, itemsDen_nil]
  have h := partItemsDen_cases half hrn m.maps [] hi
  rw [hden]
  cases hn : nullsFirst half rhs [] m.maps with
  | true => exact .inl ⟨rfl, h.1 hn⟩
  | false => exact .inr ⟨rfl, h.2 hn⟩

theorem itemsDen_subset (hi : Items m.maps) (hrn : rhs.isNormal = true) :
    itemsDen half rhs m.maps ⊆ partDen half (map m) rhs := by
  rcases partDen_map_cases half hi hrn with ⟨-, h⟩ | ⟨-, h⟩ <;> rw [h]
  exact Set.subset_univ _

theorem nullOnly_map :
    nullOnly half (map m) rhs = true ↔ emptiesItems half m.maps rhs = false ∧
      ∀ p ∈ m.maps, empties half p.2 (rhs.valueFor p.1) = true ∨
        (p.1.isWild = true ∧ p.2.isNull = true) ∨ p.1.isNull = true := by
  simp [nullOnly, or_assoc]

theorem nullOnly_of_partDen (hn : lhs.isNormal = true) (hrn : rhs.isNormal = true)
    (h : partDen half lhs rhs = leaf null.code) :
    nullOnly half lhs rhs = true := by
  cases lhs with
  | map m =>
    have hi := (isNormal_map.1 hn).1
    refine nullOnly_map.2 ⟨?_, fun p hp => ?_⟩
    · have hne : partDen half (map m) rhs ≠ ∅ := by rw [h]; exact leaf_ne_empty _
      rw [ne_eq, partDen_eq_empty _ _ hn hrn] at hne
      rw [empties] at hne
      simpa using hne
    · have hpn := hi.normal p hp
      have hpp := hi.proper p hp
      by_cases he : empties half p.2 (rhs.valueFor p.1) = true
      · exact .inl he
      have hne : itemDen half rhs p ≠ ∅ := by rwa [ne_eq, itemDen_eq_empty hpn hpp hrn]
      have hsub : itemDen half rhs p ⊆ leaf null.code := by
        rw [← h]
        exact fun x hx => itemsDen_subset hi hrn ⟨p, hp, hx⟩
      have hleaf : itemDen half rhs p = leaf null.code := by
        rcases Set.subset_singleton_iff_eq.1 hsub with h | h
        · exact absurd h hne
        · exact h
      refine .inr ?_
      obtain ⟨key, value⟩ := p
      unfold itemDen at hleaf
      split at hleaf
      · rename_i hkw
        simp only [valueFor_wild hkw] at hleaf
        exact .inl ⟨hkw, ((partDen_set_null hpn.2 hpp hkw hrn).1 hleaf).1⟩
      · split at hleaf
        · exact .inr ((den_eq_null_iff hpn.1).1 hleaf)
        · have : (([], null.code) : List Code × Code) ∈
              (under key.code (partDen half value (rhs.valueFor key)) : PathSet Code Code) := by
            rw [hleaf]; rfl
          simp at this
  | _ =>
    rw [partDen_of_isSimple (by simp), den_eq_null_iff (isNormal_terminal hn hrn)] at h
    simpa [nullOnly] using h

/-! ## The condition is enough -/

theorem splitItems_iff {whole : List Pair} :
    splitItems whole l rhs = true ↔ ∀ p ∈ l, p.1.isWild = false →
      splitOk p.2 (rhs.valueFor p.1) = true ∧
        ((nullOnly .removed p.2 (rhs.valueFor p.1) = false ∧
          nullOnly .retained p.2 (rhs.valueFor p.1) = false) ∨
        (p.2.isWild = true ∧ hasSet whole p.1 = true)) := by
  induction l with
  | nil => simp [splitItems]
  | cons p l ih =>
    obtain ⟨key, value⟩ := p
    rw [splitItems]
    simp only [Bool.and_eq_true, Bool.or_eq_true, ih, List.forall_mem_cons, Bool.not_eq_true']
    cases key.isWild <;> simp

theorem hasSet_iff {value : SValue} :
    hasSet l value = true ↔ ∃ p ∈ l, p.1.isWild = true ∧ p.2.code = value.code := by
  simp [hasSet, compare_eq_iff]

/-- What an entry gives to the halves, together: what it holds, and perhaps a set item that is
there already. -/
theorem itemDen_union (hi : Items m.maps) (hrn : rhs.isNormal = true) {p : Pair} (hp : p ∈ m.maps)
    (hkw : p.1.isWild = false)
    (hu : partDen .removed p.2 (rhs.valueFor p.1) ∪ partDen .retained p.2 (rhs.valueFor p.1) = p.2.den)
    (hok : (nullOnly .removed p.2 (rhs.valueFor p.1) = false ∧
        nullOnly .retained p.2 (rhs.valueFor p.1) = false) ∨
      (p.2.isWild = true ∧ hasSet m.maps p.1 = true)) :
    denPair p ⊆ itemDen .removed rhs p ∪ itemDen .retained rhs p ∧
      itemDen .removed rhs p ∪ itemDen .retained rhs p ⊆ (map m).den := by
  have hpn := hi.normal p hp
  have hfn := isNormal_valueFor hrn hpn.1
  have hpair : denPair p = under p.1.code p.2.den := by simp [denPair, hkw]
  have hin : denPair p ⊆ (map m).den := by
    rw [den_map]
    exact fun x hx => mem_denMaps.2 ⟨p, hp, hx⟩
  have hplain : ∀ half : Half, nullOnly half p.2 (rhs.valueFor p.1) = false →
      itemDen half rhs p = under p.1.code (partDen half p.2 (rhs.valueFor p.1)) := by
    intro half h
    unfold itemDen
    rw [if_neg (by simp [hkw]), if_neg]
    intro hd
    rw [nullOnly_of_partDen hpn.2 hfn hd] at h
    cases h
  have hboth : nullOnly .removed p.2 (rhs.valueFor p.1) = false →
      nullOnly .retained p.2 (rhs.valueFor p.1) = false →
      itemDen .removed rhs p ∪ itemDen .retained rhs p = denPair p := by
    intro h1 h2
    rw [hplain _ h1, hplain _ h2, ← under_union, hu, hpair]
  rcases hok with ⟨h1, h2⟩ | ⟨hvw, hset⟩
  · rw [hboth h1 h2]
    exact ⟨subset_rfl, hin⟩
  have h1 : nullOnly .removed p.2 (rhs.valueFor p.1) = false := by
    by_contra h
    have := (nullOnly_wild hvw (by simpa using h)).1
    cases this
  cases h2 : nullOnly .retained p.2 (rhs.valueFor p.1) with
  | false =>
    rw [hboth h1 h2]
    exact ⟨subset_rfl, hin⟩
  | true =>
    have hvs : p.2.isSimple = true := by rw [isSimple_code (isWild_iff_code.1 hvw)]; decide
    have hrem : itemDen .removed rhs p = denPair p := by
      rw [hplain _ h1, partDen_of_isSimple hvs, hpair]
      simp only [Half.terminal]
      rw [(nullOnly_wild hvw h2).2]
    have hret : itemDen .retained rhs p = p.1.den := by
      unfold itemDen
      have hnull : (Half.retained.terminal p.2 (rhs.valueFor p.1)).isNull = true := by
        cases hv : p.2 with
        | map m' => rw [hv, isSimple_map] at hvs; cases hvs
        | _ => rw [hv] at h2; simpa [nullOnly] using h2
      rw [if_neg (by simp [hkw]), if_pos (by rw [partDen_of_isSimple hvs, den_null hnull])]
    obtain ⟨q, hq, hqw, hqc⟩ := hasSet_iff.1 hset
    obtain ⟨-, hqd, hqs⟩ := isProper_iff.1 (hi.proper q hq)
    have hkey : p.1.den = denPair q := by
      obtain ⟨hqs, hqw'⟩ := hqs hqw
      rw [den_terminal (by rw [← isSimple_code hqc]; exact hqs) hkw
        (by rw [← isDefined_code hqc]; exact hqd)]
      simp [denPair, hqw, hqc]
    rw [hrem, hret]
    refine ⟨Set.subset_union_left, Set.union_subset hin ?_⟩
    rw [hkey, den_map]
    exact fun x hx => mem_denMaps.2 ⟨q, hq, hx⟩

/-- **The halves stand for the value together**, where nothing is spoilt. -/
theorem partDen_union : ∀ lhs rhs : SValue, lhs.isNormal = true → rhs.isNormal = true →
    splitOk lhs rhs = true → partDen .removed lhs rhs ∪ partDen .retained lhs rhs = lhs.den := by
  intro lhs
  induction lhs using SValue.ind with
  | map m ih =>
    intro rhs hn hrn hok
    have hi := (isNormal_map.1 hn).1
    have hparts : nullsFirst .removed rhs [] m.maps = true ∧
        nullsFirst .retained rhs [] m.maps = true ∧ splitItems m.maps m.maps rhs = true := by
      rw [splitOk, Bool.and_eq_true, Bool.and_eq_true] at hok
      exact ⟨hok.1.1, hok.1.2, hok.2⟩
    obtain ⟨h1, h2, hsplit⟩ := hparts
    have hden : ∀ half : Half, nullsFirst half rhs [] m.maps = true →
        partDen half (map m) rhs = itemsDen half rhs m.maps := by
      intro half h
      rcases partDen_map_cases half hi hrn with ⟨-, hd⟩ | ⟨h', -⟩
      · exact hd
      · rw [h] at h'; cases h'
    have hitem : ∀ p ∈ m.maps, denPair p ⊆ itemDen .removed rhs p ∪ itemDen .retained rhs p ∧
        itemDen .removed rhs p ∪ itemDen .retained rhs p ⊆ (map m).den := by
      intro p hp
      obtain ⟨hkd, hvd, hvs⟩ := isProper_iff.1 (hi.proper p hp)
      cases hkw : p.1.isWild with
      | true =>
        obtain ⟨hvs, hvw⟩ := hvs hkw
        have heq : itemDen .removed rhs p ∪ itemDen .retained rhs p = denPair p := by
          unfold itemDen denPair
          rw [if_pos hkw, if_pos hkw, if_pos hkw, partDen_of_isSimple hvs, partDen_of_isSimple hvs]
          simp only [Half.terminal]
          rw [terminal_union, den_terminal hvs hvw hvd]
        rw [heq, den_map]
        exact ⟨subset_rfl, fun x hx => mem_denMaps.2 ⟨p, hp, hx⟩⟩
      | false =>
        obtain ⟨hoks, hnull⟩ := splitItems_iff.1 hsplit p hp hkw
        have hpn := hi.normal p hp
        have hu := (ih p hp).2 _ hpn.2 (isNormal_valueFor hrn hpn.1) hoks
        exact itemDen_union hi hrn hp hkw hu hnull
    rw [hden _ h1, hden _ h2]
    refine Set.Subset.antisymm ?_ fun x hx => ?_
    · rintro x (⟨p, hp, hx⟩ | ⟨p, hp, hx⟩)
      · exact (hitem p hp).2 (.inl hx)
      · exact (hitem p hp).2 (.inr hx)
    · rw [den_map] at hx
      obtain ⟨p, hp, hx⟩ := mem_denMaps.1 hx
      rcases (hitem p hp).1 hx with h | h
      · exact .inl ⟨p, hp, h⟩
      · exact .inr ⟨p, hp, h⟩
  | _ =>
    intro rhs _ _ _
    rw [partDen_of_isSimple (by simp), partDen_of_isSimple (by simp)]
    exact terminal_union _ rhs

/-! ## For plain keys the condition is needed -/

theorem plainItems_iff : plainItems l = true ↔
    ∀ p ∈ l, p.1.isSimple = true ∧ p.1.isNull = false ∧ plainKeys p.2 = true := by
  induction l with
  | nil => simp [plainItems]
  | cons p l ih =>
    simp [plainItems, ih, and_assoc]

theorem plainKeys_map (h : plainKeys (map m) = true) :
    ∀ p ∈ m.maps, p.1.isSimple = true ∧ p.1.isNull = false ∧ plainKeys p.2 = true := by
  rw [plainKeys] at h
  exact plainItems_iff.1 h

/-- What is under a plain key in a half comes from the entry of the key. -/
theorem itemsDen_entry (hi : Items m.maps) (hplain : ∀ p ∈ m.maps, p.1.isSimple = true) {p : Pair}
    (hp : p ∈ m.maps) (hkw : p.1.isWild = false) (x : List Code × Code) :
    (p.1.code :: x.1, x.2) ∈ itemsDen half rhs m.maps ↔
      partDen half p.2 (rhs.valueFor p.1) ≠ leaf null.code ∧
        x ∈ partDen half p.2 (rhs.valueFor p.1) := by
  have hkeyed : ∀ {q : Pair}, q ∈ m.maps → (p.1.code :: x.1, x.2) ∉ q.1.den ∨ q.1.isWild = true := by
    intro q hq
    cases hqw : q.1.isWild with
    | true => exact .inr rfl
    | false =>
      rw [den_terminal (hplain q hq) hqw (isProper_iff.1 (hi.proper q hq)).1]
      exact .inl (by simp)
  constructor
  · rintro ⟨q, hq, hx⟩
    unfold itemDen at hx
    split at hx
    · rename_i hqw
      obtain ⟨hvs, -⟩ := (isProper_iff.1 (hi.proper q hq)).2.2 hqw
      rw [partDen_of_isSimple hvs] at hx
      rcases partDen_setItem half (rhs.valueFor q.1) (hi.proper q hq) hqw
        with ht | ht <;> rw [ht, den_of_isSimple (by first | exact hvs | decide)] at hx
      · split at hx
        · rename_i hw
          rw [((isProper_iff.1 (hi.proper q hq)).2.2 hqw).2] at hw
          cases hw
        · split at hx <;> simp at hx
      · simp [show undefined.isWild = false by decide, show undefined.isDefined = false by decide] at hx
    · rename_i hqw
      split at hx
      · rcases hkeyed hq with h | h
        · exact absurd hx h
        · exact absurd h hqw
      · rename_i hnull
        obtain ⟨hc, hx⟩ := cons_mem_under.1 hx
        have := hi.table.unique hp hq (by
          rw [slot_key hkw, slot_key (by simpa using hqw), hc])
        subst this
        exact ⟨hnull, hx⟩
  · rintro ⟨hnull, hx⟩
    refine ⟨p, hp, ?_⟩
    unfold itemDen
    rw [if_neg (by simp [hkw]), if_neg hnull]
    exact cons_mem_under.2 ⟨rfl, hx⟩

/-- A terminal of a half is a set item that falls to it, or the key of an entry of which just
`NULL` falls to it. -/
theorem nil_mem_itemsDen (hi : Items m.maps) (hplain : ∀ p ∈ m.maps, p.1.isSimple = true) {t : Code}
    (h : ([], t) ∈ itemsDen half rhs m.maps) :
    ∃ p ∈ m.maps, (p.1.isWild = true ∧ (half.terminal p.2 rhs).isDefined = true ∧ p.2.code = t) ∨
      (p.1.isWild = false ∧ p.1.code = t) := by
  obtain ⟨p, hp, hx⟩ := h
  refine ⟨p, hp, ?_⟩
  obtain ⟨hkd, hvd, hvs⟩ := isProper_iff.1 (hi.proper p hp)
  unfold itemDen at hx
  split at hx
  · rename_i hkw
    obtain ⟨hvs, hvw⟩ := hvs hkw
    rw [valueFor_wild hkw, partDen_of_isSimple hvs] at hx
    rcases partDen_setItem half rhs (hi.proper p hp) hkw with ht | ht
    · rw [ht, den_terminal hvs hvw hvd] at hx
      exact .inl ⟨hkw, by rw [ht]; exact hvd, by simpa using hx.symm⟩
    · rw [ht, den_undefined (by decide)] at hx
      exact absurd hx (Set.notMem_empty _)
  · rename_i hkw
    have hkw : p.1.isWild = false := by simpa using hkw
    split at hx
    · rw [den_terminal (hplain p hp) hkw hkd] at hx
      exact .inr ⟨hkw, by simpa using hx.symm⟩
    · simp at hx

section

variable (hn : lhs.isNormal = true) (hrn : rhs.isNormal = true) (hplain : plainKeys lhs = true)
include hn hrn hplain

theorem partDen_of_nullOnly (huniv : lhs.isSimple = false → partDen half lhs rhs ≠ Set.univ)
    (h : nullOnly half lhs rhs = true) : partDen half lhs rhs = leaf null.code := by
  cases lhs with
  | map m =>
    have hi := (isNormal_map.1 hn).1
    have hpl := plainKeys_map hplain
    obtain ⟨hne, hall⟩ := nullOnly_map.1 h
    rcases partDen_map_cases half hi hrn with ⟨-, hd⟩ | ⟨-, hd⟩
    swap
    · exact absurd hd (huniv (isSimple_map m))
    have hsub : itemsDen half rhs m.maps ⊆ leaf null.code := by
      rintro x ⟨p, hp, hx⟩
      have hpn := hi.normal p hp
      have hpp := hi.proper p hp
      rcases hall p hp with he | ⟨hkw, hvn⟩ | hk
      · rw [(itemDen_eq_empty hpn hpp hrn).2 he] at hx
        exact absurd hx (Set.notMem_empty _)
      · unfold itemDen at hx
        obtain ⟨hvs, hvw⟩ := (isProper_iff.1 hpp).2.2 hkw
        rw [if_pos hkw, partDen_of_isSimple hvs] at hx
        rcases partDen_setItem half (rhs.valueFor p.1) hpp hkw with ht | ht
        · rw [ht, den_null hvn] at hx
          exact hx
        · rw [ht, den_undefined (by decide)] at hx
          exact absurd hx (Set.notMem_empty _)
      · rw [(hpl p hp).2.1] at hk
        cases hk
    have hne' : itemsDen half rhs m.maps ≠ ∅ := by
      rw [ne_eq, itemsDen_eq_empty hi hrn, hne]
      simp
    rw [hd]
    rcases Set.subset_singleton_iff_eq.1 hsub with h | h
    · exact absurd h hne'
    · exact h
  | _ =>
    rw [partDen_of_isSimple (by simp), den_eq_null_iff (isNormal_terminal hn hrn)]
    simpa [nullOnly] using h

/-- If the entry is complete without the halves that are `NULL`, there is none. -/
theorem nullOnly_of_complete (hw : lhs.isWild = false) (hd : lhs.isDefined = true)
    (hx : ∀ x, x ∈ lhs.den ↔ ∃ half, partDen half lhs rhs ≠ leaf null.code ∧ x ∈ partDen half lhs rhs)
    (half : Half) : nullOnly half lhs rhs = false := by
  have huniv : ∀ half : Half, partDen half lhs rhs ≠ Set.univ := by
    intro half h
    refine den_ne_univ hw (Set.eq_univ_of_forall fun x => (hx x).2 ⟨half, ?_, ?_⟩)
    · rw [h]; exact univ_ne_leaf _
    · rw [h]; trivial
  by_contra hnull
  have hdh := partDen_of_nullOnly hn hrn hplain (fun _ => huniv half) (by simpa using hnull)
  have hother : ∀ {half' : Half}, partDen half' lhs rhs ≠ leaf null.code → half ≠ half' := by
    rintro half' h rfl
    exact h hdh
  cases hs : lhs.isSimple with
  | true =>
    obtain ⟨y, hy⟩ := den_nonempty lhs hn hd
    obtain ⟨half', hne, hy⟩ := (hx y).1 hy
    have hterm : (half.terminal lhs rhs).isDefined = true := by
      rw [partDen_of_isSimple hs, den_eq_null_iff (isNormal_terminal hn hrn)] at hdh
      rw [isDefined_code (isNull_iff_code.1 hdh)]
      decide
    rw [partDen_of_isSimple hs, terminal_excl (hother hne) hw hterm, den_undefined (by decide)] at hy
    exact hy
  | false =>
    obtain ⟨m, rfl⟩ := isSimple_eq_false.1 hs
    have hi := (isNormal_map.1 hn).1
    have hpl := plainKeys_map hplain
    have hsource : ∀ half : Half, ([], null.code) ∈ partDen half (map m) rhs → ∃ p ∈ m.maps,
        p.1.isWild = true ∧ (half.terminal p.2 rhs).isDefined = true ∧ p.2.code = null.code := by
      intro half h
      rcases partDen_map_cases half hi hrn with ⟨-, hd⟩ | ⟨-, hd⟩
      · rw [hd] at h
        obtain ⟨p, hp, ⟨hkw, hterm, hc⟩ | ⟨-, hc⟩⟩ :=
          nil_mem_itemsDen hi (fun p hp => (hpl p hp).1) h
        · exact ⟨p, hp, hkw, hterm, hc⟩
        · exact absurd (hpl p hp).2.1 (by rw [isNull_iff_code.2 hc]; simp)
      · exact absurd hd (huniv half)
    obtain ⟨p, hp, hkw, hterm, hc⟩ := hsource half (by rw [hdh]; rfl)
    have hin : ([], null.code) ∈ (map m).den := by
      rw [den_map]
      exact mem_denMaps.2 ⟨p, hp, nil_mem_denPair.2 ⟨hkw, hc.symm⟩⟩
    obtain ⟨half', hne, hmem⟩ := (hx _).1 hin
    obtain ⟨q, hq, hqw, hqterm, hqc⟩ := hsource half' hmem
    have hpq : p = q := hi.table.unique hp hq (by
      rw [slot_wild hkw, slot_wild hqw]
      rw [hc, hqc])
    subst hpq
    rw [terminal_excl (hother hne) ((isProper_iff.1 (hi.proper p hp)).2.2 hkw).2 hterm] at hqterm
    exact absurd hqterm (by decide)

end

/-- **With plain keys, the halves stand for the value together only where nothing is
spoilt.** -/
theorem splitOk_of_union : ∀ lhs rhs : SValue, lhs.isNormal = true → rhs.isNormal = true →
    plainKeys lhs = true → partDen .removed lhs rhs ∪ partDen .retained lhs rhs = lhs.den →
    splitOk lhs rhs = true := by
  intro lhs
  induction lhs using SValue.ind with
  | map m ih =>
    intro rhs hn hrn hplain hu
    have hi := (isNormal_map.1 hn).1
    have hpl := plainKeys_map hplain
    have hsub : ∀ half : Half, partDen half (map m) rhs ⊆ (map m).den := by
      intro half
      rw [← hu]
      cases half
      · exact Set.subset_union_left
      · exact Set.subset_union_right
    have hden : ∀ half : Half, nullsFirst half rhs [] m.maps = true ∧
        partDen half (map m) rhs = itemsDen half rhs m.maps := by
      intro half
      rcases partDen_map_cases half hi hrn with h | ⟨-, hd⟩
      · exact h
      · have := hsub half
        rw [hd, Set.univ_subset_iff] at this
        exact absurd this (den_ne_univ (isWild_map m))
    have hentry : ∀ p ∈ m.maps, p.1.isWild = false → splitOk p.2 (rhs.valueFor p.1) = true ∧
        ((nullOnly .removed p.2 (rhs.valueFor p.1) = false ∧
          nullOnly .retained p.2 (rhs.valueFor p.1) = false) ∨
        (p.2.isWild = true ∧ hasSet m.maps p.1 = true)) := by
      intro p hp hkw
      have hpn := hi.normal p hp
      have hfn := isNormal_valueFor hrn hpn.1
      have hx : ∀ x, x ∈ p.2.den ↔ ∃ half, partDen half p.2 (rhs.valueFor p.1) ≠ leaf null.code ∧
          x ∈ partDen half p.2 (rhs.valueFor p.1) := by
        intro x
        rw [← den_entry hi hp hkw x, ← den_map, ← hu, Set.mem_union, (hden .removed).2,
          (hden .retained).2, itemsDen_entry hi (fun p hp => (hpl p hp).1) hp hkw,
          itemsDen_entry hi (fun p hp => (hpl p hp).1) hp hkw]
        constructor
        · rintro (h | h)
          · exact ⟨_, h⟩
          · exact ⟨_, h⟩
        · rintro ⟨_ | _, h⟩
          · exact .inl h
          · exact .inr h
      cases hvw : p.2.isWild with
      | false =>
        have hnull := nullOnly_of_complete hpn.2 hfn (hpl p hp).2.2 hvw
          (isProper_iff.1 (hi.proper p hp)).2.1 hx
        refine ⟨(ih p hp).2 _ hpn.2 hfn (hpl p hp).2.2 ?_, .inl ⟨hnull _, hnull _⟩⟩
        have hne : ∀ half : Half, partDen half p.2 (rhs.valueFor p.1) ≠ leaf null.code := by
          intro half h
          have := nullOnly_of_partDen hpn.2 hfn h
          rw [hnull half] at this
          cases this
        ext x
        rw [hx x]
        constructor
        · rintro (h | h)
          · exact ⟨_, hne _, h⟩
          · exact ⟨_, hne _, h⟩
        · rintro ⟨_ | _, -, h⟩
          · exact .inl h
          · exact .inr h
      | true =>
        have hvs : p.2.isSimple = true := by rw [isSimple_code (isWild_iff_code.1 hvw)]; decide
        have hok : splitOk p.2 (rhs.valueFor p.1) = true := by
          cases hv : p.2 with
          | map m' => rw [hv, isSimple_map] at hvs; cases hvs
          | _ => rw [splitOk]; simp
        refine ⟨hok, ?_⟩
        by_cases hboth : nullOnly .removed p.2 (rhs.valueFor p.1) = false ∧
            nullOnly .retained p.2 (rhs.valueFor p.1) = false
        · exact .inl hboth
        · -- the key is there as a set item, or it would be new in the union
          refine .inr ⟨rfl, ?_⟩
          obtain ⟨half, hnull⟩ : ∃ half, nullOnly half p.2 (rhs.valueFor p.1) = true := by
            by_contra hno
            exact hboth ⟨by by_contra h; exact hno ⟨_, by simpa using h⟩,
              by by_contra h; exact hno ⟨_, by simpa using h⟩⟩
          have hdh := partDen_of_nullOnly hpn.2 hfn (hpl p hp).2.2
            (fun h => by rw [hvs] at h; cases h) hnull
          have hmem : ([], p.1.code) ∈ (map m).den := by
            refine hsub half ?_
            rw [(hden half).2]
            refine ⟨p, hp, ?_⟩
            unfold itemDen
            rw [if_neg (by simp [hkw]), if_pos hdh,
              den_terminal (hpl p hp).1 hkw (isProper_iff.1 (hi.proper p hp)).1]
            rfl
          rw [den_map] at hmem
          obtain ⟨q, hq, hx⟩ := mem_denMaps.1 hmem
          obtain ⟨hqw, hqc⟩ := nil_mem_denPair.1 hx
          exact hasSet_iff.2 ⟨q, hq, hqw, hqc.symm⟩
    rw [splitOk, (hden .removed).1, (hden .retained).1, splitItems_iff.2 hentry]
    rfl
  | _ =>
    intro rhs _ _ _ _
    rw [splitOk]
    simp

/-! ## The law -/

/-- `v.RemoveCopy(f).JoinCopy(v.RetainCopy(f))` equals `v`. -/
def CutsInTwo (v f : NormalValue) : Prop :=
  ∃ removed retained joined, removeCopy Flags.none v.val f.val = some removed ∧
    retainCopy Flags.none v.val f.val = some retained ∧
    joinCopy Flags.none removed retained = some joined ∧ joined.compare v.val = .eq

theorem cutsInTwo_iff (v f : NormalValue) : CutsInTwo v f ↔
    partDen .removed v.val f.val ∪ partDen .retained v.val f.val = v.val.den := by
  have hr : Flags.none.noRecursion = false := rfl
  obtain ⟨removed, h1, hn1, hf1, hd1⟩ := correctWith_spec .removed hr v.val f.val v.normal
    v.errorFree f.normal f.errorFree
  obtain ⟨retained, h2, hn2, hf2, hd2⟩ := correctWith_spec .retained hr v.val f.val
    v.normal v.errorFree f.normal f.errorFree
  obtain ⟨joined, h3, hj⟩ := join_spec hr retained removed.copy (isNormal_copy hn1) hn2
  have hden : joined.den = partDen .removed v.val f.val ∪ partDen .retained v.val f.val := by
    rw [hj.den_eq (isErrorFree_copy hf1) hf2, den_of_code _ _ (code_copy removed), hd1, hd2]
  rw [← hden]
  constructor
  · rintro ⟨a, b, c, ha, hb, hc, heq⟩
    obtain rfl : removed = a := Option.some.inj (h1.symm.trans ha)
    obtain rfl : retained = b := Option.some.inj (h2.symm.trans hb)
    obtain rfl : joined = c := Option.some.inj (h3.symm.trans hc)
    exact den_of_code _ _ (compare_eq_iff.1 heq)
  · intro h
    exact ⟨removed, retained, joined, h1, h2, h3,
      compare_eq_iff.2 (den_injective _ _ hj.normal v.normal h)⟩

/-- `{1 -> {5, 6}, 2 -> WILD}`. -/
def keyedSets : NormalValue :=
  ⟨ofPairs [(int32 1, ofPairs [(wild, int32 5), (wild, int32 6)]), (int32 2, wild)],
    by decide, by decide⟩

/-- `{1 -> 6, 2 -> 7}`. -/
def keyedTerminals : NormalValue :=
  ⟨ofPairs [(int32 1, int32 6), (int32 2, int32 7)], by decide, by decide⟩

/-- `{5, NULL}`. -/
def fiveAndNull : NormalValue := ⟨ofPairs [(wild, int32 5), (wild, null)], by decide, by decide⟩

/-- `7`. -/
def seven : NormalValue := ⟨int32 7, by decide, by decide⟩

end OpenBinder.SValue
