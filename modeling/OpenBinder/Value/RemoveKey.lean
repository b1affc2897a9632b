import Mathlib.Data.Set.Finite.Lemmas
import OpenBinder.Value.LookupLaw
import OpenBinder.Value.SelectLaw
import OpenBinder.Value.RemoveItem

/-!
# Removing a key

`Remove` of the mapping `(k -> WILD)` is to remove the key `k`, with all that is under it, and to
leave the rest as it is. `correct_remove` goes down into the value of the key with `WILD` on the
other side, which has every key for itself, so that only what is its own key goes; and it rebuilds
the rest with `JoinItem`.

* `survives`: the values that are rebuilt as they are.
* `partDen_undefined`: **rebuilding a value** leaves it as it is where `survives`, and only there.
* `removeKey_correct_iff`: **when removing a key is right**, and the same as `RemoveItem`.
-/

namespace OpenBinder.SValue

open Lib List Bool Bool

/-- Whether no set item `NULL` comes after another pair; `started` is whether one came before. -/
def nullFirst : Bool → List Pair → Bool
  | _, [] => true
  | started, (key, value) :: rest => !(started && key.isWild && value.isNull) && nullFirst true rest

mutual

/-- Whether `JoinItem` rebuilds a value from its items as it is. -/
def survives : SValue → Bool
  | map ⟨_, _, maps⟩ => nullFirst false maps && survivesItems maps
  | _ => true

/-- The same for the mappings of a table. -/
def survivesItems : List Pair → Bool
  | [] => true
  | (key, value) :: rest => (key.isWild || (!value.isNull && survives value)) && survivesItems rest

end

variable {l : List Pair} {rhs v k : SValue} {m : BValueMap SValue}

theorem survivesItems_iff : survivesItems l = true ↔
    ∀ p ∈ l, p.1.isWild = false → p.2.isNull = false ∧ survives p.2 = true := by
  induction l with
  | nil => simp [survivesItems]
  | cons p l ih =>
    obtain ⟨key, value⟩ := p
    rw [survivesItems, and_eq_true, ih, forall_mem_cons]
    refine and_congr ?_ Iff.rfl
    cases key.isWild <;> simp

/-! ## What the items give -/

theorem empties_of_isSimple {half : Half} (h : v.isSimple = true) :
    empties half v rhs = !(half.terminal v rhs).isDefined := by
  cases v with
  | map m => cases (isSimple_map m).symm.trans h
  | _ => rw [empties]; simp

/-- **The set item `NULL` spoils nothing** where no pair comes before it of which something is
left. -/
theorem nullsFirst_removed (hp : ∀ p ∈ l, isProper p = true) (before : List Pair) :
    nullsFirst .removed rhs before l = nullFirst (!emptiesItems .removed before rhs)
      (l.filter fun p => !empties .removed p.2 (rhs.valueFor p.1)) := by
  induction l generalizing before with
  | nil => rfl
  | cons p l ih =>
    obtain ⟨key, value⟩ := p
    have ih := ih (fun q hq => hp q (mem_cons_of_mem _ hq)) (before ++ [(key, value)])
    have hbefore : emptiesItems .removed (before ++ [(key, value)]) rhs =
        (emptiesItems .removed before rhs && empties .removed value (rhs.valueFor key)) := by
      rw [Bool.eq_iff_iff, and_eq_true, emptiesItems_iff, emptiesItems_iff]
      simp only [mem_append, mem_singleton]
      constructor
      · exact fun h => ⟨fun p hp => h p (.inl hp), h _ (.inr rfl)⟩
      · rintro ⟨h1, h2⟩ p (hp | rfl)
        · exact h1 p hp
        · exact h2
    rw [nullsFirst, ih, hbefore, filter_cons]
    have hterm : key.isWild = true →
        (Half.removed.terminal value rhs).isDefined = !empties .removed value (rhs.valueFor key) := by
      intro hk
      obtain ⟨hvs, -⟩ := (isProper_iff.1 (hp _ mem_cons_self)).2.2 hk
      rw [valueFor_wild hk]
      rw [empties_of_isSimple hvs, Bool.not_not]
    cases he : empties .removed value (rhs.valueFor key) with
    | true =>
      rw [he] at hterm
      rw [Bool.and_true]
      cases hk : key.isWild with
      | true => rw [hterm hk]; simp
      | false => simp
    | false =>
      rw [he] at hterm
      rw [Bool.and_false, if_pos (by rfl), nullFirst]
      cases hk : key.isWild with
      | true =>
        rw [hterm hk]
        cases value.isNull <;> cases emptiesItems Half.removed before rhs <;> rfl
      | false => simp

theorem key_shorter {c : Code} {ks : List Code} {t : Code} (hw : v.isWild = false)
    (h : (c :: ks, t) ∈ v.den) : c.length < v.code.length := by
  by_cases hs : v.isSimple = true
  · rw [den_of_isSimple hs, hw] at h
    cases hd : v.isDefined <;> simp [hd] at h
  · obtain ⟨⟨avail, dataSize, maps⟩, rfl⟩ := isSimple_eq_false.1 (by simpa using hs)
    rw [den_map] at h
    obtain ⟨⟨k', x⟩, hmem, hx⟩ := mem_denMaps.1 h
    obtain ⟨-, rfl, -⟩ := cons_mem_denPair.1 hx
    exact (code_length_lt hmem avail dataSize).1

/-- What is left of a mapping. -/
noncomputable abbrev left (rhs : SValue) (p : Pair) : PathSet Code Code :=
  partDen .removed p.2 (rhs.valueFor p.1)

/-- What the items are to give, when `E` is what is to be left of the mappings. -/
def wanted (E : Pair → PathSet Code Code) (l : List Pair) : PathSet Code Code :=
  {x | ∃ p ∈ l, x ∈ if p.1.isWild then leaf p.2.code else under p.1.code (E p)}

variable {E : Pair → PathSet Code Code}

variable {p : Pair} {w a b : SValue}

theorem cons_mem_wanted (hi : Items l) (hp : p ∈ l) (hk : p.1.isWild = false) (y : List Code × Code)
    : (p.1.code :: y.1, y.2) ∈ wanted E l ↔ y ∈ E p := by
  constructor
  · rintro ⟨q, hq, hx⟩
    cases hqw : q.1.isWild with
    | true => simp [hqw] at hx
    | false =>
      rw [hqw, if_neg Bool.false_ne_true] at hx
      obtain ⟨hc, hx⟩ := cons_mem_under.1 hx
      rwa [hi.table.unique hp hq (by
        rw [show p = (p.1, p.2) from rfl, show q = (q.1, q.2) from rfl, slot_key hk, slot_key hqw,
          hc])]
  · intro hy
    refine ⟨p, hp, ?_⟩
    rw [hk, if_neg Bool.false_ne_true]
    exact cons_mem_under.2 ⟨rfl, hy⟩

theorem itemDen_set (hp : isProper p = true) (hk : p.1.isWild = true)
    (hstay : Half.removed.terminal p.2 rhs = p.2) :
    itemDen .removed rhs p = leaf p.2.code := by
  obtain ⟨-, hvd, hwild⟩ := isProper_iff.1 hp
  obtain ⟨hvs, hvw⟩ := hwild hk
  unfold itemDen
  rw [if_pos hk, valueFor_wild hk, partDen_of_isSimple hvs, hstay, den_terminal hvs hvw hvd]

/-- **When the items give what they are to give**: no mapping is left with `NULL` alone, whose key
would go into the set, and of each is left what is to be left. Only a longer key could make up for a
key that is missing. -/
theorem itemsDen_eq_wanted (hi : Items l)
    (hset : ∀ p ∈ l, p.1.isWild = true → itemDen .removed rhs p = leaf p.2.code)
    (hE : ∀ p ∈ l, p.1.isWild = false → left rhs p = leaf null.code → (E p).Nonempty) :
    itemsDen .removed rhs l = wanted E l ↔
      ∀ p ∈ l, p.1.isWild = false → left rhs p ≠ leaf null.code ∧ left rhs p = E p := by
  have hitem : ∀ p : Pair, p.1.isWild = false → left rhs p ≠ leaf null.code →
      itemDen .removed rhs p = under p.1.code (left rhs p) := by
    intro p hk hne
    unfold itemDen
    rw [if_neg (by simp [hk]), if_neg hne]
  constructor
  · intro h
    have hnull : ∀ p ∈ l, p.1.isWild = false → left rhs p ≠ leaf null.code := by
      by_contra hex
      push Not at hex
      obtain ⟨p, hp, hk, hleaf⟩ := hex
      -- the longest such key
      obtain ⟨p, ⟨hp, hk, hleaf⟩, hmax⟩ := Set.exists_max_image
        {p : Pair | p ∈ l ∧ p.1.isWild = false ∧ left rhs p = leaf null.code}
        (fun p => p.1.code.length) (l.finite_toSet.subset fun p hp => hp.1) ⟨p, hp, hk, hleaf⟩
      obtain ⟨y, hy⟩ := hE p hp hk hleaf
      have hx := (cons_mem_wanted hi hp hk y).2 hy
      rw [← h] at hx
      obtain ⟨q, hq, hx⟩ := hx
      cases hqw : q.1.isWild with
      | true =>
        rw [hset q hq hqw] at hx
        simp at hx
      | false =>
        by_cases hql : left rhs q = leaf null.code
        · have hkey : (p.1.code :: y.1, y.2) ∈ q.1.den := by
            unfold itemDen at hx
            rwa [if_neg (by simp [hqw]), if_pos hql] at hx
          exact absurd (hmax q ⟨hq, hqw, hql⟩) (Nat.not_le.2 (key_shorter hqw hkey))
        · rw [hitem q hqw hql] at hx
          obtain ⟨hc, -⟩ := cons_mem_under.1 hx
          have hpq := hi.table.unique hp hq (by
            rw [show p = (p.1, p.2) from rfl, show q = (q.1, q.2) from rfl, slot_key hk,
              slot_key hqw, hc])
          exact hql (hpq ▸ hleaf)
    refine fun p hp hk => ⟨hnull p hp hk, Set.ext fun y => ?_⟩
    have hgive : itemsDen .removed rhs l = wanted (left rhs) l := by
      refine Set.ext fun x => exists_congr fun q => and_congr_right fun hq => ?_
      cases hqw : q.1.isWild with
      | true => rw [hset q hq hqw]; simp
      | false => rw [hitem q hqw (hnull q hq hqw)]; simp
    rw [← cons_mem_wanted hi hp hk y, ← hgive, h, cons_mem_wanted hi hp hk y]
  · intro h
    refine Set.ext fun x => exists_congr fun q => and_congr_right fun hq => ?_
    cases hqw : q.1.isWild with
    | true => rw [hset q hq hqw]; simp
    | false =>
      obtain ⟨hne, he⟩ := h q hq hqw
      rw [hitem q hqw hne, he]
      simp

/-! ## What is rebuilt -/

theorem undefined_valueFor {key : SValue} (h : key.isDefined = true) :
    undefined.valueFor key = undefined := by
  have hu : undefined.isDefined = false := by decide
  have hne : ¬ key.compare undefined = .eq := fun hc => by
    rw [isDefined_code (compare_eq_iff.1 hc), hu] at h
    cases h
  unfold valueFor
  cases key.isWild with
  | true => rfl
  | false => exact if_neg hne

theorem removeTerminal_undefined (h : v.isDefined = true) :
    Half.removed.terminal v undefined = v := by
  have hu : undefined.isDefined = false := by decide
  have hne : ¬ v.compare undefined = .eq := fun hc => by
    rw [isDefined_code (compare_eq_iff.1 hc), hu] at h
    cases h
  have hw : undefined.isWild = false := by decide
  show removeTerminal v undefined = v
  unfold removeTerminal
  rw [if_pos (by decide), if_pos]
  rw [hw, Bool.not_false, Bool.true_and, decide_eq_true_eq]
  exact hne

theorem empties_undefined : ∀ v : SValue, v.isNormal = true → v.isDefined = true →
    empties .removed v undefined = false := by
  intro v
  induction v using SValue.ind with
  | map m ih =>
    intro hn _
    obtain ⟨avail, dataSize, maps⟩ := m
    obtain ⟨hi, hne, -⟩ := isNormal_map.1 hn
    cases maps with
    | nil => exact absurd rfl hne
    | cons p l =>
      obtain ⟨key, value⟩ := p
      have hmem : (key, value) ∈ (key, value) :: l := mem_cons_self
      obtain ⟨hkd, hvd, -⟩ := isProper_iff.1 (hi.proper _ hmem)
      rw [empties, emptiesItems, undefined_valueFor hkd, (ih _ hmem).2 (hi.normal _ hmem).2 hvd]
      rfl
  | _ =>
    intro _ hd
    rw [empties_of_isSimple (by simp), removeTerminal_undefined hd, hd]
    rfl

/-- What is asked for of a value that is to stay under its key. -/
theorem stays_iff (hn : v.isNormal = true)
    (h : partDen .removed v undefined = v.den ↔ survives v = true) :
    (partDen .removed v undefined ≠ leaf null.code ∧ partDen .removed v undefined = v.den) ↔
      v.isNull = false ∧ survives v = true := by
  rw [← h]
  constructor
  · rintro ⟨hne, he⟩
    refine ⟨?_, he⟩
    by_contra hnull
    exact hne (he.trans ((den_eq_null_iff hn).2 (by simpa using hnull)))
  · rintro ⟨hnull, he⟩
    refine ⟨fun h => ?_, he⟩
    rw [(den_eq_null_iff hn).1 (he.symm.trans h)] at hnull
    cases hnull

/-- **Rebuilding a value** leaves it as it is where it survives, and only there. -/
theorem partDen_undefined : ∀ v : SValue, v.isNormal = true → v.isDefined = true →
    (partDen .removed v undefined = v.den ↔ survives v = true) := by
  intro v
  induction v using SValue.ind with
  | map m ih =>
    intro hn _
    obtain ⟨hi, -, -⟩ := isNormal_map.1 hn
    have hun : undefined.isNormal = true := rfl
    have hleft : ∀ p ∈ m.maps, left undefined p = partDen .removed p.2 undefined := fun p hp => by
      unfold left
      rw [undefined_valueFor (isProper_iff.1 (hi.proper p hp)).1]
    have hset : ∀ p ∈ m.maps, p.1.isWild = true →
        itemDen .removed undefined p = leaf p.2.code := fun p hp hk =>
      itemDen_set (hi.proper p hp) hk
        (removeTerminal_undefined (isProper_iff.1 (hi.proper p hp)).2.1)
    have hwanted : (map m).den = wanted (fun p => p.2.den) m.maps := by
      rw [den_map]
      exact Set.ext fun x => mem_denMaps
    have hiff := itemsDen_eq_wanted (E := fun p => p.2.den) hi hset fun p hp _ _ =>
      den_nonempty p.2 (hi.normal p hp).2 (isProper_iff.1 (hi.proper p hp)).2.1
    -- what each mapping asks for
    have hitems : (∀ p ∈ m.maps, p.1.isWild = false →
        left undefined p ≠ leaf null.code ∧ left undefined p = p.2.den) ↔
        survivesItems m.maps = true := by
      rw [survivesItems_iff]
      refine forall₂_congr fun p hp => imp_congr_right fun _ => ?_
      have hvn := (hi.normal p hp).2
      rw [hleft p hp]
      exact stays_iff hvn ((ih p hp).2 hvn (isProper_iff.1 (hi.proper p hp)).2.1)
    have hfirst : nullsFirst .removed undefined [] m.maps = nullFirst false m.maps := by
      rw [nullsFirst_removed hi.proper, filter_eq_self.2]
      · rfl
      · intro p hp
        obtain ⟨hkd, hvd, -⟩ := isProper_iff.1 (hi.proper p hp)
        rw [undefined_valueFor hkd, empties_undefined p.2 (hi.normal p hp).2 hvd]
        rfl
    have hsurvives : survives (map m) = (nullFirst false m.maps && survivesItems m.maps) := by
      rw [survives]
    rw [hsurvives, and_eq_true, ← hfirst, ← hitems, ← hiff, ← hwanted]
    rcases partDen_map_cases .removed hi hun with ⟨hf, hd⟩ | ⟨hf, hd⟩
    · rw [hd, hf]
      simp
    · rw [hd, hf]
      refine iff_of_false (fun h => den_ne_univ (isWild_map m) h.symm) (by simp)
  | _ =>
    intro _ hd
    rw [partDen_of_isSimple (by simp), removeTerminal_undefined hd]
    refine iff_of_true rfl ?_
    rw [survives]
    simp

/-! ## What is left under the key -/

/-- **A table gives `NULL` alone** only by the set item, or under the key `NULL`. -/
theorem leaf_of_partDen {half : Half} (hn : (map m).isNormal = true) (hrn : rhs.isNormal = true)
    (h : partDen half (map m) rhs = leaf null.code) : ∃ p ∈ m.maps,
      (p.1.isWild = true ∧ p.2.isNull = true ∧ (half.terminal p.2 rhs).isDefined = true) ∨
        (p.1.isWild = false ∧ p.1.isNull = true ∧
          partDen half p.2 (rhs.valueFor p.1) = leaf null.code) := by
  have hi := (isNormal_map.1 hn).1
  have hne : partDen half (map m) rhs ≠ ∅ := by rw [h]; exact leaf_ne_empty _
  rw [ne_eq, partDen_eq_empty _ _ hn hrn] at hne
  have hitems : emptiesItems half m.maps rhs = false := by
    rw [empties] at hne
    simpa using hne
  obtain ⟨p, hp, he⟩ : ∃ p ∈ m.maps, empties half p.2 (rhs.valueFor p.1) ≠ true := by
    by_contra hall
    push Not at hall
    rw [emptiesItems_iff.2 hall] at hitems
    cases hitems
  have hpn := hi.normal p hp
  have hpp := hi.proper p hp
  have hsub : itemDen half rhs p ⊆ leaf null.code := by
    rw [← h]
    exact fun x hx => itemsDen_subset hi hrn ⟨p, hp, hx⟩
  have hleaf : itemDen half rhs p = leaf null.code :=
    (Set.subset_singleton_iff_eq.1 hsub).resolve_left fun hempty =>
      he ((itemDen_eq_empty hpn hpp hrn).1 hempty)
  refine ⟨p, hp, ?_⟩
  unfold itemDen at hleaf
  cases hk : p.1.isWild with
  | true =>
    rw [if_pos hk, valueFor_wild hk] at hleaf
    obtain ⟨hvn, hd⟩ := (partDen_set_null hpn.2 hpp hk hrn).1 hleaf
    exact .inl ⟨rfl, hvn, hd⟩
  | false =>
    rw [if_neg (by simp [hk])] at hleaf
    by_cases hd : partDen half p.2 (rhs.valueFor p.1) = leaf null.code
    · rw [if_pos hd] at hleaf
      exact .inr ⟨rfl, (den_eq_null_iff hpn.1).1 hleaf, hd⟩
    · rw [if_neg hd] at hleaf
      have hmem : (([], null.code) : List Code × Code) ∈
          (under p.1.code (partDen half p.2 (rhs.valueFor p.1)) : PathSet Code Code) := by
        rw [hleaf]; rfl
      exact absurd hmem nil_notMem_under

theorem removeTerminal_same (hs : rhs.isSimple = true) (h : v.code = rhs.code) :
    Half.removed.terminal v rhs = undefined := by
  show removeTerminal v rhs = undefined
  unfold removeTerminal
  rw [if_pos hs, if_neg]
  simp [compare_eq_iff.2 h]

theorem isNormal_null (h : w.isNull = true) : w.isSimple = true := by
  rw [isSimple_code (isNull_iff_code.1 h)]
  decide

theorem left_null : ∀ v w : SValue, v.isNormal = true → w.isNull = true →
    partDen .removed v w ≠ leaf null.code := by
  intro v
  induction v using SValue.ind with
  | map m ih =>
    intro w hn hw h
    have hws := isNormal_null hw
    have hi := (isNormal_map.1 hn).1
    obtain ⟨p, hp, ⟨-, hvn, hd⟩ | ⟨-, hkn, hl⟩⟩ := leaf_of_partDen hn (isNormal_of_isSimple hws) h
    · rw [removeTerminal_same hws (by rw [isNull_iff_code.1 hvn, isNull_iff_code.1 hw])] at hd
      exact absurd hd (by decide)
    · have hfor : w.valueFor p.1 = null := by
        have hkw : p.1.isWild = false := by
          rw [isWild_code (isNull_iff_code.1 hkn)]
          decide
        have hww : w.isWild = false := by
          rw [isWild_code (isNull_iff_code.1 hw)]
          decide
        have hc : p.1.compare w = .eq := compare_eq_iff.2 (by
          rw [isNull_iff_code.1 hkn, isNull_iff_code.1 hw])
        unfold valueFor
        rw [hkw, if_neg Bool.false_ne_true]
        cases w with
        | map m => cases (isSimple_map m).symm.trans hws
        | _ =>
          simp only [hww]
          rw [if_neg Bool.false_ne_true, if_pos hc]
      rw [hfor] at hl
      exact (ih p hp).2 null (hi.normal p hp).2 (by decide) hl
  | _ =>
    intro w hn hw h
    have hws := isNormal_null hw
    rw [partDen_of_isSimple (by simp),
      den_eq_null_iff (isNormal_terminal hn (isNormal_of_isSimple hws))] at h
    rcases terminal_cases .removed _ w with ht | ht | ⟨hvw, ht⟩
    · rw [ht] at h
      rw [removeTerminal_same hws (by rw [isNull_iff_code.1 h, isNull_iff_code.1 hw])] at ht
      rw [← ht] at h
      exact absurd h (by decide)
    · rw [ht] at h
      exact absurd h (by decide)
    · -- only `Retain` cuts `WILD` down
      have hne : ¬ (w.isWild = true) := by
        rw [isWild_code (isNull_iff_code.1 hw)]
        decide
      have hterm : ∀ v : SValue, v.isWild = true → Half.removed.terminal v w = v := by
        intro v hv
        show removeTerminal v w = v
        unfold removeTerminal
        rw [if_pos hws, if_pos]
        rw [and_eq_true, not_eq_true', decide_eq_true_eq]
        refine ⟨by simpa using hne, fun hc => hne ?_⟩
        rw [← isWild_code (compare_eq_iff.1 hc), hv]
      rw [hterm _ hvw] at h
      rw [isWild_code (isNull_iff_code.1 h)] at hvw
      exact absurd hvw (by decide)

theorem left_wild (hn : v.isNormal = true) (hw : w.isWild = true) :
    partDen .removed v w ≠ leaf null.code := by
  have hws : w.isSimple = true := by
    rw [isSimple_code (isWild_iff_code.1 hw)]
    decide
  have hterm : ∀ v : SValue, Half.removed.terminal v w = undefined := by
    intro v
    show removeTerminal v w = undefined
    unfold removeTerminal
    rw [if_pos hws, hw]
    rfl
  by_cases hs : v.isSimple = true
  · rw [partDen_of_isSimple hs, hterm, den_undefined (by decide)]
    exact (leaf_ne_empty _).symm
  · obtain ⟨m, rfl⟩ := isSimple_eq_false.1 (by simpa using hs)
    intro h
    have hi := (isNormal_map.1 hn).1
    obtain ⟨p, hp, ⟨-, -, hd⟩ | ⟨hkw, hkn, hl⟩⟩ := leaf_of_partDen hn (isNormal_of_isSimple hws) h
    · rw [hterm] at hd
      exact absurd hd (by decide)
    · have hfor : w.valueFor p.1 = p.1 := by
        unfold valueFor
        rw [hkw, if_neg Bool.false_ne_true]
        cases w with
        | map m => cases (isSimple_map m).symm.trans hws
        | _ => exact if_pos hw
      rw [hfor] at hl
      exact left_null p.2 p.1 (hi.normal p hp).2 hkn hl

/-! ## The mapping to remove -/

/-- `SValue(k, WILD)`. -/
def keyItem (k : SValue) : BValueMap SValue := (BValueMap.create 1).setFirstMap k wild

variable {key : SValue}

theorem initAsMap_keyItem (hk : k.isSpecified = true) (hs : k.isSimple = true)
    (he : k.isError = false) : initAsMap Flags.none k wild = some (map (keyItem k)) := by
  rw [isSpecified, and_eq_true, not_eq_true'] at hk
  have hm : k.isMap = false := by rw [isMap_eq_not_isSimple, hs]; rfl
  rw [initAsMap_of_isSimple hs]
  unfold initAsMapWith
  rw [he, hk.1, hk.2, hm]
  rfl

theorem items_keyItem (hk : k.isSpecified = true) (hs : k.isSimple = true) :
    Items (keyItem k).maps := by
  rw [isSpecified, and_eq_true, not_eq_true'] at hk
  exact Items.singleton ⟨isNormal_of_isSimple hs, rfl⟩
    (isProper_iff.2 ⟨hk.1, by decide, fun h => by rw [hk.2] at h; cases h⟩)

theorem indexFor_keyItem (hkw : k.isWild = false) (hs : k.isSimple = true) (hw : w.isWild = true)
    (value : SValue) : (keyItem k).indexFor w value = none := by
  unfold BValueMap.indexFor
  split
  · rename_i i hsearch
    obtain ⟨hlt, hc⟩ := bisect_hit (show bisect _ _ 0 _ = (true, i) from hsearch)
    have hi : i = 0 := Nat.lt_one_iff.1 hlt
    subst hi
    have hc : compareMap (k, SValue.wild) (w, value) = .eq := hc
    unfold compareMap at hc
    simp only [hkw, hw, hs, if_true, false_eq_true, if_false, Bool.not_false,
      Bool.and_true] at hc
    split at hc
    · split at hc <;> cases hc
    · split at hc
      · cases hc
      · rename_i hne
        exact absurd ⟨hc, by simp⟩ hne
  · rfl

section

variable (hk : k.isSpecified = true) (hs : k.isSimple = true)
include hk hs

theorem keyItem_valueFor (hkw : key.isWild = false) : (map (keyItem k)).valueFor key =
      if key.compare k = .eq then wild else undefined := by
  have hi := items_keyItem hk hs
  rw [isSpecified, and_eq_true, not_eq_true'] at hk
  by_cases hc : key.compare k = .eq
  · rw [if_pos hc]
    exact valueFor_entry hi hkw ⟨k, mem_singleton_self _, hk.2, (compare_eq_iff.1 hc).symm⟩
  · rw [if_neg hc, valueFor_noEntry hi hkw]
    · rw [indexFor_keyItem hk.2 hs (by decide)]
      rfl
    · rintro x ⟨k', hmem, -, hcode⟩
      obtain ⟨rfl, -⟩ := Prod.mk.inj (mem_singleton.1 hmem)
      exact hc (compare_eq_iff.2 hcode.symm)

theorem keyItem_terminal (hvw : v.isWild = false) :
    Half.removed.terminal v (map (keyItem k)) = v := by
  rw [isSpecified, Bool.and_eq_true, not_eq_true'] at hk
  have hitem : (map (keyItem k)).hasItem wild v = false := by
    have hw : wild.isWild = true := by decide
    unfold hasItem
    rw [isError_map, isWild_map, hw, hvw]
    show ((keyItem k).indexFor wild v).isSome = false
    rw [indexFor_keyItem hk.2 hs hw]
    rfl
  show removeTerminal v (map (keyItem k)) = v
  unfold removeTerminal
  rw [isSimple_map, if_neg Bool.false_ne_true, hitem]
  rfl

theorem left_keyItem (hkw : p.1.isWild = false) : left (map (keyItem k)) p =
      partDen .removed p.2 (if p.1.code = k.code then wild else undefined) := by
  unfold left
  rw [keyItem_valueFor hk hs hkw]
  by_cases hc : p.1.code = k.code
  · rw [if_pos (compare_eq_iff.2 hc), if_pos hc]
  · rw [if_neg fun h => hc (compare_eq_iff.1 h), if_neg hc]

end

/-- **When removing the mapping leaves the other pairs**, and them alone. -/
theorem partDen_keyItem (hn : (map m).isNormal = true) (hk : k.isSpecified = true)
    (hs : k.isSimple = true) :
    partDen .removed (map m) (map (keyItem k)) = denMaps (others m.maps k) ↔
      (∀ y, Entry m.maps k.code y → empties .removed y wild = true) ∧
        nullFirst false (others m.maps k) = true ∧ survivesItems (others m.maps k) = true := by
  obtain ⟨hi, -, -⟩ := isNormal_map.1 hn
  have hrn : (map (keyItem k)).isNormal = true := by
    rw [isSpecified, and_eq_true, not_eq_true'] at hk
    exact isNormal_map.2 ⟨items_keyItem (by rw [isSpecified, hk.1, hk.2]; rfl) hs,
      cons_ne_nil _ _, hk.2⟩
  have hwn : wild.isNormal = true := rfl
  let E : Pair → PathSet Code Code := fun p => if p.1.code = k.code then ∅ else p.2.den
  have hwanted : denMaps (others m.maps k) = wanted E m.maps := by
    refine Set.ext fun x => ?_
    rw [mem_denMaps]
    constructor
    · rintro ⟨p, hp, hx⟩
      obtain ⟨hp, hne⟩ := mem_others.1 hp
      refine ⟨p, hp, ?_⟩
      unfold denPair at hx
      cases hkw : p.1.isWild with
      | true => rwa [hkw] at hx
      | false =>
        rw [hkw, if_neg Bool.false_ne_true] at hx
        rw [if_neg Bool.false_ne_true]
        show x ∈ under p.1.code (if p.1.code = k.code then ∅ else p.2.den)
        rwa [if_neg (hne hkw)]
    · rintro ⟨p, hp, hx⟩
      have hx : x ∈ if p.1.isWild then leaf p.2.code else
          under p.1.code (if p.1.code = k.code then ∅ else p.2.den) := hx
      refine ⟨p, mem_others.2 ⟨hp, fun hkw hc => ?_⟩, ?_⟩
      · rw [hkw, if_pos hc, if_neg Bool.false_ne_true, under_empty] at hx
        exact hx
      · unfold denPair
        cases hkw : p.1.isWild with
        | true => rwa [hkw] at hx
        | false =>
          rw [hkw, if_neg Bool.false_ne_true] at hx
          rw [if_neg Bool.false_ne_true]
          by_cases hc : p.1.code = k.code
          · rw [if_pos hc, under_empty] at hx
            exact absurd hx (Set.notMem_empty _)
          · rwa [if_neg hc] at hx
  have hset : ∀ p ∈ m.maps, p.1.isWild = true →
      itemDen .removed (map (keyItem k)) p = leaf p.2.code := fun p hp hkw =>
    itemDen_set (hi.proper p hp) hkw
      (keyItem_terminal hk hs ((isProper_iff.1 (hi.proper p hp)).2.2 hkw).2)
  have hiff := itemsDen_eq_wanted (E := E) hi hset fun p hp hkw hleaf => by
    rw [left_keyItem hk hs hkw] at hleaf
    by_cases hc : p.1.code = k.code
    · rw [if_pos hc] at hleaf
      exact absurd hleaf (left_wild (hi.normal p hp).2 (by decide))
    · show (if p.1.code = k.code then ∅ else p.2.den : PathSet Code Code).Nonempty
      rw [if_neg hc]
      exact den_nonempty p.2 (hi.normal p hp).2 (isProper_iff.1 (hi.proper p hp)).2.1
  -- what each mapping asks for
  have hitems : (∀ p ∈ m.maps, p.1.isWild = false → left (map (keyItem k)) p ≠ leaf null.code ∧
      left (map (keyItem k)) p = E p) ↔
        (∀ y, Entry m.maps k.code y → empties .removed y wild = true) ∧
          survivesItems (others m.maps k) = true := by
    have hkey : ∀ p ∈ m.maps, p.1.isWild = false → p.1.code = k.code →
        ((left (map (keyItem k)) p ≠ leaf null.code ∧ left (map (keyItem k)) p = E p) ↔
          empties .removed p.2 wild = true) := by
      intro p hp hkw hc
      have hvn := (hi.normal p hp).2
      rw [left_keyItem hk hs hkw, if_pos hc, show E p = ∅ from if_pos hc,
        partDen_eq_empty _ _ hvn hwn]
      exact and_iff_right (left_wild hvn (by decide))
    have hother : ∀ p ∈ m.maps, p.1.isWild = false → p.1.code ≠ k.code →
        ((left (map (keyItem k)) p ≠ leaf null.code ∧ left (map (keyItem k)) p = E p) ↔
          p.2.isNull = false ∧ survives p.2 = true) := by
      intro p hp hkw hc
      have hvn := (hi.normal p hp).2
      rw [left_keyItem hk hs hkw, if_neg hc, show E p = p.2.den from if_neg hc]
      exact stays_iff hvn (partDen_undefined p.2 hvn (isProper_iff.1 (hi.proper p hp)).2.1)
    rw [survivesItems_iff]
    constructor
    · intro h
      refine ⟨?_, fun p hp hkw => ?_⟩
      · rintro y ⟨k', hmem, hkw, hc⟩
        exact (hkey _ hmem hkw hc).1 (h _ hmem hkw)
      · obtain ⟨hp, hne⟩ := mem_others.1 hp
        exact (hother p hp hkw (hne hkw)).1 (h p hp hkw)
    · rintro ⟨h1, h2⟩ p hp hkw
      by_cases hc : p.1.code = k.code
      · exact (hkey p hp hkw hc).2 (h1 p.2 ⟨p.1, hp, hkw, hc⟩)
      · exact (hother p hp hkw hc).2 (h2 p (mem_others.2 ⟨hp, fun _ => hc⟩) hkw)
  have hfirst : (∀ y, Entry m.maps k.code y → empties .removed y wild = true) →
      nullsFirst .removed (map (keyItem k)) [] m.maps = nullFirst false (others m.maps k) := by
    intro hempty
    rw [nullsFirst_removed hi.proper]
    have hfilter : (m.maps.filter fun p => !empties .removed p.2 ((map (keyItem k)).valueFor p.1)) =
        others m.maps k := by
      refine filter_congr fun p hp => ?_
      obtain ⟨-, hvd, hwild⟩ := isProper_iff.1 (hi.proper p hp)
      cases hkw : p.1.isWild with
      | true =>
        obtain ⟨hvs, hvw⟩ := hwild hkw
        rw [valueFor_wild hkw, empties_of_isSimple hvs, keyItem_terminal hk hs hvw, hvd]
        rfl
      | false =>
        rw [keyItem_valueFor hk hs hkw, Bool.false_or]
        by_cases hc : p.1.compare k = .eq
        · rw [if_pos hc, hempty p.2 ⟨p.1, hp, hkw, compare_eq_iff.1 hc⟩]
          simp [hc]
        · rw [if_neg hc, empties_undefined p.2 (hi.normal p hp).2 hvd]
          simp [hc]
    rw [hfilter]
    rfl
  rw [hwanted]
  rcases partDen_map_cases .removed hi hrn with ⟨hf, hd⟩ | ⟨hf, hd⟩
  · rw [hd, hiff, hitems]
    constructor
    · rintro ⟨h1, h2⟩
      exact ⟨h1, by rw [← hfirst h1, hf], h2⟩
    · rintro ⟨h1, -, h2⟩
      exact ⟨h1, h2⟩
  · rw [hd]
    refine iff_of_false (fun h => ?_) ?_
    · rw [← hwanted] at h
      have hnot : denMaps (others m.maps k) ≠ Set.univ := by
        have := den_ne_univ (isWild_map ⟨m.avail, none, others m.maps k⟩)
        rwa [den_map] at this
      exact hnot h.symm
    · rintro ⟨h1, h2, -⟩
      rw [← hfirst h1, hf] at h2
      cases h2

/-! ## The law -/

theorem item_of_code (h : a.code = b.code) (hp : p ∈ a.items) :
    ∃ q ∈ b.items, p.1.code = q.1.code ∧ p.2.code = q.2.code := by
  by_cases hs : a.isSimple = true
  · have hsb : b.isSimple = true := by rw [← isSimple_code h, hs]
    rw [items_of_isSimple hs] at hp
    rw [items_of_isSimple hsb, ← isError_code h, ← isDefined_code h]
    cases he : a.isError <;> cases hd : a.isDefined <;> simp [he, hd] at hp
    subst hp
    exact ⟨(wild, b), by simp, rfl, h⟩
  · obtain ⟨m, rfl⟩ := isSimple_eq_false.1 (by simpa using hs)
    obtain ⟨m', rfl⟩ := isSimple_eq_false.1 ((isSimple_code h).symm.trans (isSimple_map m))
    obtain ⟨i, hi⟩ := mem_iff_getElem?.1 hp
    rcases getElem?_of_forall₂ (forall₂_of_code h) i with ⟨hnone, -⟩ | ⟨p', q, hp', hq, hc⟩
    · rw [items_map, hnone] at hi
      cases hi
    · rw [items_map, hp'] at hi
      obtain ⟨⟩ := hi
      exact ⟨q, mem_of_getElem? hq, hc⟩

theorem Entry.of_code {x : SValue} {c : List ℤ} (h : a.code = b.code) (hx : Entry a.items c x) :
    ∃ y, Entry b.items c y ∧ x.code = y.code := by
  obtain ⟨k', hmem, hkw, rfl⟩ := hx
  obtain ⟨q, hq, hk, hv⟩ := item_of_code h hmem
  exact ⟨q.2, ⟨q.1, hq, by rw [← isWild_code hk, hkw], hk.symm⟩, hv⟩

theorem SetItem.of_code {t : List ℤ} (h : a.code = b.code) (ht : SetItem a.items t) :
    SetItem b.items t := by
  obtain ⟨k', x, hmem, hkw, rfl⟩ := ht
  obtain ⟨q, hq, hk, hv⟩ := item_of_code h hmem
  exact ⟨q.1, q.2, hq, by rw [← isWild_code hk, hkw], hv.symm⟩

/-- An error that is no error code takes nothing away: it is nowhere in a value without errors. -/
theorem correctWith_error (hk : k.isError = true) (hc : ¬ k.errorCheck < 0) : ∀ v : SValue,
    v.isNormal = true → v.isErrorFree = true → v.isDefined = true →
      correctWith .removed Flags.none v k = correctWith .removed Flags.none v undefined := by
  have hu : ¬ undefined.errorCheck < 0 := by decide
  have hks : k.isSimple = true := by
    by_contra hs
    obtain ⟨m, rfl⟩ := isSimple_eq_false.1 (by simpa using hs)
    cases (isError_map m).symm.trans hk
  have hkw : k.isWild = false := isWild_of_isError hk
  have hne : ∀ v : SValue, v.isErrorFree = true → ¬ v.compare k = .eq := fun v hf h => by
    have he := isError_of_isErrorFree hf
    rw [isError_code (compare_eq_iff.1 h), hk] at he
    cases he
  have hterm : ∀ v : SValue, v.isErrorFree = true → Half.removed.terminal v k = v := by
    intro v hf
    show removeTerminal v k = v
    unfold removeTerminal
    rw [if_pos hks, if_pos]
    rw [hkw, Bool.not_false, Bool.true_and, decide_eq_true_eq]
    exact hne v hf
  intro v
  induction v using SValue.ind with
  | map m ih =>
    intro hn hf _
    obtain ⟨avail, dataSize, maps⟩ := m
    obtain ⟨hi, -, -⟩ := isNormal_map.1 hn
    have hfree := isErrorFree_map.1 hf
    rw [correctWith, correctWith, if_neg hc, if_neg hu]
    -- the loop, over any part of the table
    have loop : ∀ l : List Pair, (∀ p ∈ l, p ∈ maps) → ∀ result : SValue,
        correctItems .removed Flags.none l k result =
          correctItems .removed Flags.none l undefined result := by
      intro l
      induction l with
      | nil => intro _ result; rw [correctItems, correctItems]
      | cons p l ihl =>
        intro hsub result
        obtain ⟨key, value⟩ := p
        have hp := hsub _ mem_cons_self
        obtain ⟨hkd, hvd, -⟩ := isProper_iff.1 (hi.proper _ hp)
        have hfor : k.valueFor key = k := by
          have hkey := hne key (hfree _ hp).1
          unfold valueFor
          cases key.isWild with
          | true => rfl
          | false =>
            rw [if_neg Bool.false_ne_true]
            cases k with
            | map m => cases (isSimple_map m).symm.trans hks
            | _ => simp only [hkw, hk, hkey]; rfl
        have hvalue := (ih _ hp).2 (hi.normal _ hp).2 (hfree _ hp).2 hvd
        rw [correctItems, correctItems, hfor, undefined_valueFor hkd, hvalue]
        have hr : ¬ Flags.none.noRecursion = true := by decide
        rw [if_neg hr, if_neg hr]
        refine congrArg _ (funext fun part => congrArg _ (funext fun result => ?_))
        exact ihl (fun q hq => hsub q (mem_cons_of_mem _ hq)) result
    exact loop maps (fun p hp => hp) undefined
  | _ =>
    intro _ hf hd
    rw [correctWith, correctWith, if_neg hc, if_neg hu, hterm _ hf, removeTerminal_undefined hd]
    all_goals simp

/-- **Removing the key** `k` from a map: `RemoveCopy` of `SValue(k, WILD)` leaves no entry of the
key and every other item, and is the same as `RemoveItem`. -/
def KeyRemoved (m : BValueMap SValue) (k : SValue) : Prop :=
  ∃ from' r status r', initAsMap Flags.none k wild = some from' ∧
    removeCopy Flags.none (map m) from' = some r ∧
    removeItem (map m) k wild = some (status, r') ∧
    (∀ x, ¬ Entry r.items k.code x) ∧ (∀ t, SetItem r.items t ↔ SetItem m.maps t) ∧
    (∀ c x, c ≠ k.code → Entry m.maps c x → ∃ y, Entry r.items c y ∧ x.code = y.code) ∧
    (∀ c y, c ≠ k.code → Entry r.items c y → ∃ x, Entry m.maps c x ∧ x.code = y.code) ∧
    r.compare r' = .eq

/-- When it does. -/
structure KeyGoes (m : BValueMap SValue) (k : SValue) : Prop where
  not_error : ¬ k.errorCheck < 0
  emptied : ∀ y, Entry m.maps k.code y → empties .removed y wild = true
  first : nullFirst false (others m.maps k) = true
  survive : survivesItems (others m.maps k) = true
  roomy : ¬ Compacts m k

/-- What `RemoveCopy` gives, and when it is the map without the key. -/
theorem removeCopy_key (hn : (map m).isNormal = true) (hf : (map m).isErrorFree = true)
    (hk : k.isSpecified = true) (hs : k.isSimple = true) (hc : ¬ k.errorCheck < 0) :
    ∃ from' r, initAsMap Flags.none k wild = some from' ∧
      removeCopy Flags.none (map m) from' = some r ∧ r.isNormal = true ∧ r.isErrorFree = true ∧
        (r.den = denMaps (others m.maps k) ↔
          (∀ y, Entry m.maps k.code y → empties .removed y wild = true) ∧
            nullFirst false (others m.maps k) = true ∧
              survivesItems (others m.maps k) = true) := by
  have hrec : Flags.none.noRecursion = false := rfl
  cases he : k.isError with
  | false =>
    have hspec := hk
    rw [isSpecified, and_eq_true, not_eq_true'] at hspec
    have hfree : (map (keyItem k)).isErrorFree = true := isErrorFree_map.2 fun p hp => by
      rw [show p = (k, wild) from mem_singleton.1 hp]
      exact ⟨isErrorFree_of_isSimple hs he, show wild.isErrorFree = true by decide⟩
    obtain ⟨r, hr, hrn, hrf, hd⟩ := correctWith_spec .removed hrec (map m) (map (keyItem k)) hn hf
      (isNormal_map.2 ⟨items_keyItem hk hs, cons_ne_nil _ _, hspec.2⟩) hfree
    refine ⟨_, r, initAsMap_keyItem hk hs he, hr, hrn, hrf, ?_⟩
    rw [hd]
    exact partDen_keyItem hn hk hs
  | true =>
    have hmade : initAsMap Flags.none k wild = some k := by
      rw [initAsMap_of_isSimple hs]
      exact if_pos he
    obtain ⟨r, hr, hrn, hrf, hd⟩ := correctWith_spec .removed hrec (map m) undefined hn hf rfl
      (by decide)
    refine ⟨k, r, hmade, ?_, hrn, hrf, ?_⟩
    · rw [removeCopy, correctRemove, correctWith_error he hc _ hn hf (isDefined_map m)]
      exact hr
    · -- no key is an error
      have hno : ∀ y, ¬ Entry m.maps k.code y := by
        rintro y ⟨k', hmem, -, hcode⟩
        have hke := isError_of_isErrorFree (isErrorFree_map.1 hf _ hmem).1
        rw [isError_code hcode, he] at hke
        cases hke
      have hothers : others m.maps k = m.maps := by
        apply others_of_not_hasKey
        rintro ⟨y, hy⟩
        exact hno y hy
      have hsurvives : survives (map m) = (nullFirst false m.maps && survivesItems m.maps) := by
        rw [survives]
      rw [hd, hothers, ← den_map, partDen_undefined _ hn (isDefined_map m), hsurvives,
        and_eq_true]
      exact ⟨fun h => ⟨fun y hy => absurd hy (hno y), h⟩, fun h => h.2⟩

/-- **`Remove` of `(k -> WILD)` removes the key** when nothing is left of its value, which only goes
where it is its own key; when the other items are rebuilt as they are; and when `RemoveItem` does
not compact the table around it. -/
theorem removeKey_correct_iff (m : BValueMap SValue) (k : SValue) (hn : (map m).isNormal = true)
    (hf : (map m).isErrorFree = true) (hk : k.isSpecified = true) (hs : k.isSimple = true) :
    KeyRemoved m k ↔ KeyGoes m k := by
  obtain ⟨hi, -, -⟩ := isNormal_map.1 hn
  obtain ⟨hnone, hsome⟩ := removeItem_key hn hk (show wild.isWild = true by decide)
  have hfree : allErrorFree (others m.maps k) = true := allErrorFree_iff.2 fun p hp =>
    isErrorFree_map.1 hf p (mem_others.1 hp).1
  constructor
  · rintro ⟨from', r, status, r', hmade, hr, hitem, -, -, -, -, hcmp⟩
    obtain ⟨m', rfl, hmaps⟩ := hsome status r' hitem
    have hshrunk := @shrinkMap_spec m' (by rw [hmaps]; exact items_others hi) (by rw [hmaps]; exact hfree)
    have hcode := compare_eq_iff.1 hcmp
    have hc : ¬ k.errorCheck < 0 := by
      intro hc
      -- the error would be the result
      have he : k.isError = true := by
        by_contra he
        rw [errorCheck_of_isError (by simpa using he)] at hc
        exact absurd hc (by decide)
      rw [initAsMap_of_isSimple hs] at hmade
      obtain rfl := Option.some.inj ((if_pos he).symm.trans hmade)
      have hr' : removeCopy Flags.none (map m) k = some k := by
        rw [removeCopy, correctRemove, correctWith, if_pos hc]
      obtain ⟨⟩ := hr.symm.trans hr'
      rw [isError_code hcode, isError_of_isErrorFree hshrunk.2.1] at he
      cases he
    obtain ⟨from'', r'', hmade', hr'', hrn, -, hiff⟩ := removeCopy_key hn hf hk hs hc
    obtain ⟨⟩ := hmade.symm.trans hmade'
    obtain ⟨⟩ := hr.symm.trans hr''
    have hd : r.den = denMaps (others m.maps k) := by
      rw [den_of_code _ _ hcode, hshrunk.2.2.1, hmaps]
    obtain ⟨h1, h2, h3⟩ := hiff.1 hd
    exact ⟨hc, h1, h2, h3, fun h => by rw [hnone.2 h] at hitem; cases hitem⟩
  · intro h
    obtain ⟨from', r, hmade, hr, hrn, -, hiff⟩ := removeCopy_key hn hf hk hs h.not_error
    have hd := hiff.2 ⟨h.emptied, h.first, h.survive⟩
    obtain ⟨⟨status, r'⟩, hitem⟩ : ∃ x, removeItem (map m) k wild = some x :=
      Option.ne_none_iff_exists'.1 fun hc => h.roomy (hnone.1 hc)
    obtain ⟨m', rfl, hmaps⟩ := hsome status r' hitem
    obtain ⟨hsn, -, hsd, hset, hentry⟩ := @shrinkMap_spec m' (by rw [hmaps]; exact items_others hi)
      (by rw [hmaps]; exact hfree)
    rw [hmaps] at hsd hset hentry
    have hcode : r.code = (shrinkMap m').code :=
      compare_eq_iff.1 (compare_eq_iff.2 (den_injective _ _ hrn hsn (hd.trans hsd.symm)))
    refine ⟨from', r, status, _, hmade, hr, hitem, fun x hx => ?_, fun t => ⟨fun ht => ?_, fun ht => ?_⟩,
      fun c x hc hx => ?_, fun c y hc hy => ?_, compare_eq_iff.2 hcode⟩
    · obtain ⟨y, hy, -⟩ := hx.of_code hcode
      exact (entry_others.1 ((hentry _ _).1 hy)).2 rfl
    · exact setItem_others.1 ((hset t).1 (ht.of_code hcode))
    · exact ((hset t).2 (setItem_others.2 ht)).of_code hcode.symm
    · exact ((hentry c x).2 (entry_others.2 ⟨hx, hc⟩)).of_code hcode.symm
    · obtain ⟨x, hx, hxy⟩ := hy.of_code hcode
      exact ⟨x, (entry_others.1 ((hentry c x).1 hx)).1, hxy.symm⟩

/-- `{1 -> {2 -> 3}}`, of which `Remove` of `(1 -> WILD)` leaves everything. -/
theorem removeKey_nested : ¬ ∀ (m : BValueMap SValue) (k : SValue), (map m).isNormal = true →
    (map m).isErrorFree = true → k.isSpecified = true → k.isSimple = true → KeyRemoved m k := by
  intro h
  let m : BValueMap SValue := ⟨1, none, [(int32 1, ofPairs [(int32 2, int32 3)])]⟩
  obtain ⟨from', r, status, r', hmade, hr, hitem, -, -, -, -, hcmp⟩ :=
    h m (int32 1) (by decide) (by decide) (by decide) (by decide)
  have hcopy : ((initAsMap Flags.none (int32 1) wild).bind fun from' =>
      removeCopy Flags.none (map m) from').map isDefined = some true := by decide
  have hgone : (removeItem (map m) (int32 1) wild).map (fun p => p.2.isDefined) = some false := by
    decide
  rw [hmade, Option.bind_some, hr, Option.map_some] at hcopy
  rw [hitem, Option.map_some] at hgone
  rw [isDefined_code (compare_eq_iff.1 hcmp), Option.some.inj hgone] at hcopy
  cases hcopy

theorem removeKey_correct_simple : KeyRemoved
    ⟨3, none, [(int32 1, int32 5), (int32 2, ofPairs [(int32 2, int32 3)])]⟩ (int32 1) :=
  (removeKey_correct_iff
    ⟨3, none, [(int32 1, int32 5), (int32 2, ofPairs [(int32 2, int32 3)])]⟩ (int32 1) (by decide)
    (by decide) (by decide) (by decide)).2
      { not_error := by decide
        emptied := by
          rintro y ⟨k', hmem, -, hc⟩
          rcases mem_cons.1 hmem with h | h
          · obtain ⟨-, rfl⟩ := Prod.mk.inj h
            decide
          · obtain ⟨rfl, -⟩ := Prod.mk.inj (mem_singleton.1 h)
            exact absurd hc (by decide)
        first := by decide
        survive := by decide
        roomy := fun ⟨_, _, _, _, _, h, _⟩ => absurd h (by decide) }

end OpenBinder.SValue
