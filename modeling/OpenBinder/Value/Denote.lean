import OpenBinder.Value.View
import OpenBinder.Lib.PathSet
import Mathlib.Data.Fintype.EquivFin

/-!
# What a value stands for

A value stands for a set of paths (`SValue.den`): a simple value is a terminal, a
map holds what is under each of its keys, `Undefined` is nothing and `WILD` is
everything.

* `den_injective`: normalised values that stand for the same set compare equal. So
  an equation between results follows from an equation between sets.
-/

namespace OpenBinder.SValue

open Lib

/-- Keys and terminals count up to `Compare`. -/
abbrev Code := List ℤ

mutual

/-- The set of paths a value stands for. -/
def den : SValue → PathSet Code Code
  | map ⟨_, _, maps⟩ => denMaps maps
  | v => if v.isWild then Set.univ else if v.isDefined then leaf v.code else ∅

/-- The paths through the pairs of a table. -/
def denMaps : List Pair → PathSet Code Code
  | [] => ∅
  | (k, v) :: rest => (if k.isWild then leaf v.code else under k.code (den v)) ∪ denMaps rest

end

/-- The paths through one pair. -/
def denPair (p : Pair) : PathSet Code Code :=
  if p.1.isWild then leaf p.2.code else under p.1.code p.2.den

theorem mem_denMaps {l : List Pair} {x : List Code × Code} :
    x ∈ denMaps l ↔ ∃ p ∈ l, x ∈ denPair p := by
  induction l with
  | nil => simp [denMaps]
  | cons p l ih =>
    rw [denMaps, Set.mem_union, ih]
    simp [denPair]

theorem den_map (m : BValueMap SValue) : (map m).den = denMaps m.maps := by
  obtain ⟨_, _, _⟩ := m; rw [den]

variable {v k : SValue}

theorem den_of_isSimple (h : v.isSimple = true) :
    v.den = if v.isWild then Set.univ else if v.isDefined then leaf v.code else ∅ := by
  cases v with
  | map m => simp at h
  | small _ _ => rw [den]; simp
  | large _ _ => rw [den]; simp

/-- A value that is neither `WILD` nor an error holds what is in its items. -/
theorem den_eq_items (hw : v.isWild = false) (he : v.isError = false) :
    v.den = denMaps v.items := by
  by_cases hs : v.isSimple = true
  · rw [den_of_isSimple hs, items_of_isSimple hs, hw, he]
    cases v.isDefined
    · rfl
    · ext x
      rw [mem_denMaps]
      simp [denPair, show wild.isWild = true by decide]
  · obtain ⟨m, rfl⟩ := isSimple_eq_false.1 (by simpa using hs)
    exact den_map m

theorem denMaps_append (l l' : List Pair) : denMaps (l ++ l') = denMaps l ∪ denMaps l' := by
  ext x
  simp only [Set.mem_union, mem_denMaps, List.mem_append, or_and_right, exists_or]

theorem den_nonempty : ∀ v : SValue, v.isNormal = true → v.isDefined = true → v.den.Nonempty := by
  intro v
  induction v using SValue.ind with
  | map m ih =>
    intro hn _
    obtain ⟨hi, hne, -⟩ := isNormal_map.1 hn
    obtain ⟨p, hp⟩ := List.exists_mem_of_ne_nil _ hne
    have : (denPair p).Nonempty := by
      unfold denPair
      split
      · exact ⟨_, rfl⟩
      · exact under_nonempty ((ih p hp).2 (hi.normal p hp).2
          (isProper_iff.1 (hi.proper p hp)).2.1)
    obtain ⟨x, hx⟩ := this
    rw [den_map]
    exact ⟨x, mem_denMaps.2 ⟨p, hp, hx⟩⟩
  | _ =>
    intro _ hd
    rw [den_of_isSimple (by simp), hd]
    split
    · exact ⟨([], []), trivial⟩
    · exact ⟨_, rfl⟩

theorem nil_mem_denPair {t : Code} :
    ([], t) ∈ denPair (k, v) ↔ k.isWild = true ∧ t = v.code := by
  unfold denPair
  split
  · rename_i h
    simp [h]
  · rename_i h
    simp [h]

theorem cons_mem_denPair {c : Code} {ks : List Code} {t : Code} :
    (c :: ks, t) ∈ denPair (k, v) ↔ k.isWild = false ∧ c = k.code ∧ (ks, t) ∈ v.den := by
  unfold denPair
  split
  · rename_i h
    simp [h]
  · rename_i h
    simp [h]

theorem den_ne_univ (hw : v.isWild = false) : v.den ≠ Set.univ := by
  intro h
  by_cases hs : v.isSimple = true
  · have hx : (([[]], []) : List Code × Code) ∈ v.den := by rw [h]; trivial
    rw [den_of_isSimple hs, hw] at hx
    cases hd : v.isDefined <;> simp [hd] at hx
  · obtain ⟨m, rfl⟩ := isSimple_eq_false.1 (by simpa using hs)
    obtain ⟨c, hc⟩ := Infinite.exists_notMem_finset (m.maps.map fun p => p.2.code).toFinset
    have hx : (([], c) : List Code × Code) ∈ (map m).den := by rw [h]; trivial
    rw [den_map, mem_denMaps] at hx
    obtain ⟨⟨k, v⟩, hp, hx⟩ := hx
    refine hc (List.mem_toFinset.2 (List.mem_map.2 ⟨(k, v), hp, ?_⟩))
    exact (nil_mem_denPair.1 hx).2.symm

theorem den_wild (h : v.isWild = true) : v.den = Set.univ := by
  have hs : v.isSimple = true := by
    cases v with
    | map m => rw [isWild_map] at h; cases h
    | _ => simp
  rw [den_of_isSimple hs, if_pos h]

theorem den_undefined (h : v.isDefined = false) : v.den = ∅ := by
  have hc := eq_undefined_code h
  have hs : v.isSimple = true := by rw [isSimple_code hc]; decide
  have hw : v.isWild = false := by rw [isWild_code hc]; decide
  rw [den_of_isSimple hs, hw, h]
  rfl

theorem den_terminal (hs : v.isSimple = true) (hw : v.isWild = false) (hd : v.isDefined = true) :
    v.den = leaf v.code := by
  rw [den_of_isSimple hs, hw, hd]; rfl

theorem den_entry {l : List Pair} (h : Items l) (hm : (k, v) ∈ l) (hk : k.isWild = false)
    (x : List Code × Code) :
    (k.code :: x.1, x.2) ∈ denMaps l ↔ x ∈ v.den := by
  rw [mem_denMaps]
  constructor
  · rintro ⟨⟨k', v'⟩, hm', hx⟩
    obtain ⟨hk', hc, hxv⟩ := cons_mem_denPair.1 hx
    have hslot : slot (k', v') = slot (k, v) := by rw [slot_key hk', slot_key hk, hc]
    have := h.table.unique hm' hm hslot
    cases this
    exact hxv
  · intro hx
    exact ⟨(k, v), hm, cons_mem_denPair.2 ⟨hk, rfl, hx⟩⟩

theorem den_map_ne_leaf {m : BValueMap SValue} (hn : (map m).isNormal = true) (t : Code) :
    (map m).den ≠ leaf t := by
  intro h
  obtain ⟨hi, -, -⟩ := isNormal_map.1 hn
  obtain ⟨s, ⟨⟨k, v⟩, hp, rfl⟩, hs⟩ := exists_slot_ne hn t
  rw [den_map] at h
  cases hk : k.isWild with
  | true =>
    have hx : ([], v.code) ∈ denMaps m.maps := mem_denMaps.2 ⟨_, hp, nil_mem_denPair.2 ⟨hk, rfl⟩⟩
    rw [h] at hx
    rw [slot_wild hk] at hs
    simp at hx
    exact hs (by rw [hx])
  | false =>
    obtain ⟨x, hx⟩ := den_nonempty v (hi.normal _ hp).2 (isProper_iff.1 (hi.proper _ hp)).2.1
    have hx := (den_entry hi hp hk x).2 hx
    rw [h] at hx
    simp at hx

/-- A simple value is everything, nothing or one terminal, and a map is none of these. -/
theorem den_injective_simple {a b : SValue} (hs : a.isSimple = true) (hn : b.isNormal = true)
    (h : a.den = b.den) : a.code = b.code := by
  cases hw : a.isWild with
  | true =>
    cases hwb : b.isWild with
    | true => rw [isWild_iff_code.1 hw, isWild_iff_code.1 hwb]
    | false => exact absurd (h.symm.trans (den_wild hw)) (den_ne_univ hwb)
  | false =>
    have hwb : b.isWild = false := by
      by_contra hwb
      exact den_ne_univ hw (h.trans (den_wild (by simpa using hwb)))
    cases hd : a.isDefined with
    | false =>
      rw [den_undefined hd] at h
      cases hdb : b.isDefined with
      | false => rw [eq_undefined_code hd, eq_undefined_code hdb]
      | true =>
        obtain ⟨x, hx⟩ := den_nonempty b hn hdb
        rw [← h] at hx
        exact absurd hx (Set.notMem_empty x)
    | true =>
      rw [den_terminal hs hw hd] at h
      cases hsb : b.isSimple with
      | true =>
        have hx : ([], a.code) ∈ b.den := by rw [← h]; rfl
        rw [den_of_isSimple hsb, hwb] at hx
        cases hdb : b.isDefined <;> simp [hdb] at hx
        exact hx
      | false =>
        obtain ⟨m, rfl⟩ := isSimple_eq_false.1 hsb
        exact absurd h.symm (den_map_ne_leaf hn _)

/-- **A normalised value is determined by what it stands for**, up to `Compare`. -/
theorem den_injective : ∀ a b : SValue, a.isNormal = true → b.isNormal = true →
    a.den = b.den → a.code = b.code := by
  intro a
  induction a using SValue.ind with
  | map m ih =>
    intro b hna hnb h
    obtain ⟨hi, -, -⟩ := isNormal_map.1 hna
    cases hbs : b.isSimple with
    | true => exact (den_injective_simple hbs hna h.symm).symm
    | false =>
      obtain ⟨m', rfl⟩ := isSimple_eq_false.1 hbs
      obtain ⟨hi', -, -⟩ := isNormal_map.1 hnb
      rw [den_map, den_map] at h
      -- a pair of either table has an equal pair in the other
      have hset : ∀ {l l' : List Pair}, denMaps l = denMaps l' → ∀ k v, (k, v) ∈ l →
          k.isWild = true → ∃ q ∈ l', k.code = q.1.code ∧ v.code = q.2.code := by
        intro l l' h k v hp hk
        have hx : ([], v.code) ∈ denMaps l := mem_denMaps.2 ⟨_, hp, nil_mem_denPair.2 ⟨hk, rfl⟩⟩
        rw [h, mem_denMaps] at hx
        obtain ⟨⟨k', v'⟩, hq, hx⟩ := hx
        obtain ⟨hk', hc⟩ := nil_mem_denPair.1 hx
        exact ⟨_, hq, by rw [isWild_iff_code.1 hk, isWild_iff_code.1 hk'], hc⟩
      have hkey : ∀ {l l' : List Pair}, Items l → denMaps l = denMaps l' → ∀ k v, (k, v) ∈ l →
          k.isWild = false → ∃ k' v', (k', v') ∈ l' ∧ k'.isWild = false ∧ k.code = k'.code := by
        intro l l' hi h k v hp hk
        obtain ⟨x, hx⟩ := den_nonempty v (hi.normal _ hp).2 (isProper_iff.1 (hi.proper _ hp)).2.1
        have hx := (den_entry hi hp hk x).2 hx
        rw [h, mem_denMaps] at hx
        obtain ⟨⟨k', v'⟩, hq, hx⟩ := hx
        obtain ⟨hk', hc, -⟩ := cons_mem_denPair.1 hx
        exact ⟨k', v', hq, hk', hc⟩
      have hval : ∀ k v k' v', (k, v) ∈ m.maps → (k', v') ∈ m'.maps → k.isWild = false →
          k'.isWild = false → k.code = k'.code → v.code = v'.code := by
        intro k v k' v' hp hq hk hk' hc
        refine (ih _ hp).2 v' (hi.normal _ hp).2 (hi'.normal _ hq).2 ?_
        ext x
        rw [← den_entry hi hp hk x, ← den_entry hi' hq hk' x, h, hc]
      refine code_map_of_pairs hi hi' ?_ ?_
      · rintro ⟨k, v⟩ hp
        cases hk : k.isWild with
        | true => exact hset h k v hp hk
        | false =>
          obtain ⟨k', v', hq, hk', hc⟩ := hkey hi h k v hp hk
          exact ⟨_, hq, hc, hval k v k' v' hp hq hk hk' hc⟩
      · rintro ⟨k', v'⟩ hq
        cases hk' : k'.isWild with
        | true =>
          obtain ⟨p, hp, h1, h2⟩ := hset h.symm k' v' hq hk'
          exact ⟨p, hp, h1.symm, h2.symm⟩
        | false =>
          obtain ⟨k, v, hp, hk, hc⟩ := hkey hi' h.symm k' v' hq hk'
          exact ⟨_, hp, hc.symm, hval k v k' v' hp hq hk hk' hc.symm⟩
  | _ =>
    intro b _ hnb h
    exact den_injective_simple (by simp) hnb h

theorem den_of_code : ∀ a b : SValue, a.code = b.code → a.den = b.den := by
  intro a
  induction a using SValue.ind with
  | map m ih =>
    intro b h
    have hs : b.isSimple = false := by rw [← isSimple_code h]; exact isSimple_map m
    obtain ⟨m', rfl⟩ := isSimple_eq_false.1 hs
    rw [den_map, den_map]
    have hall := forall₂_of_code h
    obtain ⟨avail, dataSize, maps⟩ := m
    obtain ⟨avail', dataSize', maps'⟩ := m'
    simp only at ih hall ⊢
    clear h hs
    induction hall with
    | nil => rfl
    | @cons p q l l' hpq _ ihl =>
      obtain ⟨k', v'⟩ := q
      rw [denMaps, denMaps, ihl fun p hp => ih p (List.mem_cons_of_mem _ hp), isWild_code hpq.1,
        hpq.1, hpq.2, (ih _ List.mem_cons_self).2 v' hpq.2]
  | _ =>
    intro b h
    have hs : b.isSimple = true := by rw [← isSimple_code h]; simp
    rw [den_of_isSimple (by simp), den_of_isSimple hs, isWild_code h, isDefined_code h, h]

end OpenBinder.SValue
