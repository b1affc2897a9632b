import OpenBinder.Value.Edit

/-!
# Set part and entries

A value is a **set part**, its items with a wild key (a simple value is a set of one),
and **entries**, one value for each of its other keys. Both are read off the pairs
up to `Compare`.

* `code_of_view`: normalised values with the same set part and equal entries compare
  equal.
* `addItem_view`, `setValue_view`: what adding a pair and editing an entry do to them.
-/

namespace OpenBinder.SValue

open Lib List

/-- `t` is a set item. -/
def SetItem (l : List Pair) (t : List ℤ) : Prop := ∃ k v, (k, v) ∈ l ∧ k.isWild = true ∧ v.code = t

/-- The key `c` has the value `x`. -/
def Entry (l : List Pair) (c : List ℤ) (x : SValue) : Prop :=
  ∃ k, (k, x) ∈ l ∧ k.isWild = false ∧ k.code = c

variable {l : List Pair} {t c : List ℤ} {x v k : SValue}

theorem setItem_slot : SetItem l t ↔ t ++ [0] ∈ slots l := by
  constructor
  · rintro ⟨k, v, hp, hk, rfl⟩
    exact ⟨_, hp, slot_wild hk v⟩
  · rintro ⟨⟨k, v⟩, hp, hs⟩
    cases hk : k.isWild with
    | true =>
      rw [slot_wild hk] at hs
      exact ⟨k, v, hp, hk, (append_inj' hs rfl).1⟩
    | false =>
      rw [slot_key hk] at hs
      have := (append_inj' hs rfl).2
      simp at this

theorem entry_slot : (∃ x, Entry l c x) ↔ c ++ [1] ∈ slots l := by
  constructor
  · rintro ⟨x, k, hp, hk, rfl⟩
    exact ⟨_, hp, slot_key hk x⟩
  · rintro ⟨⟨k, v⟩, hp, hs⟩
    cases hk : k.isWild with
    | true =>
      rw [slot_wild hk] at hs
      have := (append_inj' hs rfl).2
      simp at this
    | false =>
      rw [slot_key hk] at hs
      exact ⟨v, k, hp, hk, (append_inj' hs rfl).1⟩

theorem Entry.unique (h : Items l) {y : SValue} (hx : Entry l c x) (hy : Entry l c y) : x = y := by
  obtain ⟨k, hk, hkw, rfl⟩ := hx
  obtain ⟨k', hk', hkw', hc⟩ := hy
  have := h.table.unique hk hk' (by rw [slot_key hkw, slot_key hkw', hc])
  exact (Prod.mk.inj this).2

theorem Entry.normal (h : Items l) (hx : Entry l c x) :
    x.isNormal = true ∧ x.isDefined = true := by
  obtain ⟨k, hk, -, -⟩ := hx
  exact ⟨(h.normal _ hk).2, (isProper_iff.1 (h.proper _ hk)).2.1⟩

theorem Entry.errorFree (h : allErrorFree l = true) (hx : Entry l c x) : x.isErrorFree = true := by
  obtain ⟨k, hk, -, -⟩ := hx
  exact (allErrorFree_iff.1 h _ hk).2

theorem not_entry_of_isSimple (h : v.isSimple = true) (c : List ℤ) (x : SValue) :
    ¬ Entry v.items c x := by
  rintro ⟨k, hk, hkw, -⟩
  have := items_wild_key h _ hk
  rw [hkw] at this
  cases this

theorem setItem_of_isSimple (hs : v.isSimple = true) (hd : v.isDefined = true)
    (he : v.isError = false) (t : List ℤ) : SetItem v.items t ↔ v.code = t := by
  rw [items_of_isSimple hs, hd, he]
  constructor
  · rintro ⟨k, x, hp, -, rfl⟩
    simp at hp
    rw [hp.2]
  · rintro rfl
    exact ⟨wild, v, by simp, by decide, rfl⟩

@[simp] theorem setItem_cons :
    SetItem ((k, v) :: l) t ↔ (k.isWild = true ∧ v.code = t) ∨ SetItem l t := by
  constructor
  · rintro ⟨k', v', hp, hk, hv⟩
    rcases mem_cons.1 hp with hp | hp
    · cases hp; exact .inl ⟨hk, hv⟩
    · exact .inr ⟨k', v', hp, hk, hv⟩
  · rintro (⟨hk, hv⟩ | ⟨k', v', hp, hk, hv⟩)
    · exact ⟨k, v, mem_cons_self, hk, hv⟩
    · exact ⟨k', v', mem_cons_of_mem _ hp, hk, hv⟩

@[simp] theorem entry_cons :
    Entry ((k, v) :: l) c x ↔ (k.isWild = false ∧ k.code = c ∧ v = x) ∨ Entry l c x := by
  constructor
  · rintro ⟨k', hp, hk, hc⟩
    rcases mem_cons.1 hp with hp | hp
    · cases hp; exact .inl ⟨hk, hc, rfl⟩
    · exact .inr ⟨k', hp, hk, hc⟩
  · rintro (⟨hk, hc, rfl⟩ | ⟨k', hp, hk, hc⟩)
    · exact ⟨k, mem_cons_self, hk, hc⟩
    · exact ⟨k', mem_cons_of_mem _ hp, hk, hc⟩

theorem setItem_append {l' : List Pair} :
    SetItem (l ++ l') t ↔ SetItem l t ∨ SetItem l' t := by
  simp only [SetItem, mem_append, or_and_right, exists_or]

theorem entry_append {l' : List Pair} :
    Entry (l ++ l') c x ↔ Entry l c x ∨ Entry l' c x := by
  simp only [Entry, mem_append, or_and_right, exists_or]

@[simp] theorem not_setItem_nil (t : List ℤ) : ¬ SetItem [] t := by
  rintro ⟨k, v, hp, -⟩; cases hp

@[simp] theorem not_entry_nil (c : List ℤ) (x : SValue) : ¬ Entry [] c x := by
  rintro ⟨k, hp, -⟩; cases hp

/-- Tables whose pairs compare equal, in any order of looking, compare equal. -/
theorem code_map_of_pairs {m m' : BValueMap SValue} (h : Items m.maps) (h' : Items m'.maps)
    (hsub : ∀ p ∈ m.maps, ∃ q ∈ m'.maps, p.1.code = q.1.code ∧ p.2.code = q.2.code)
    (hsup : ∀ q ∈ m'.maps, ∃ p ∈ m.maps, p.1.code = q.1.code ∧ p.2.code = q.2.code) :
    (map m).code = (map m').code := by
  have hR := Table.forall₂ (R := fun p q : Pair => p.1.code = q.1.code ∧ p.2.code = q.2.code)
    (fun p q hpq => slot_of_code hpq.1 hpq.2) h.table h'.table hsub hsup
  rw [code, code, codeMaps_of_forall₂ hR, hR.length_eq]

/-- **A normalised value is determined by its set part and entries**, up to `Compare`. -/
theorem code_of_view {a b : SValue} (hna : a.isNormal = true) (hnb : b.isNormal = true)
    (hwa : a.isWild = false) (hwb : b.isWild = false) (hea : a.isError = false)
    (heb : b.isError = false) (hset : ∀ t, SetItem a.items t ↔ SetItem b.items t)
    (hab : ∀ c x, Entry a.items c x → ∃ y, Entry b.items c y ∧ x.code = y.code)
    (hba : ∀ c y, Entry b.items c y → ∃ x, Entry a.items c x) : a.code = b.code := by
  have hia := (Partial.of_isNormal hna).items hwa
  have hib := (Partial.of_isNormal hnb).items hwb
  -- equal pairs on both sides
  have hsub : ∀ p ∈ a.items, ∃ q ∈ b.items, p.1.code = q.1.code ∧ p.2.code = q.2.code := by
    rintro ⟨k, v⟩ hp
    cases hk : k.isWild with
    | true =>
      obtain ⟨k', v', hq, hk', hv⟩ := (hset v.code).1 ⟨k, v, hp, hk, rfl⟩
      exact ⟨_, hq, by rw [isWild_iff_code.1 hk, isWild_iff_code.1 hk'], hv.symm⟩
    | false =>
      obtain ⟨y, ⟨k', hq, -, hc⟩, hv⟩ := hab k.code v ⟨k, hp, hk, rfl⟩
      exact ⟨_, hq, hc.symm, hv⟩
  have hsup : ∀ q ∈ b.items, ∃ p ∈ a.items, p.1.code = q.1.code ∧ p.2.code = q.2.code := by
    rintro ⟨k', v'⟩ hq
    cases hk' : k'.isWild with
    | true =>
      obtain ⟨k, v, hp, hk, hv⟩ := (hset v'.code).2 ⟨k', v', hq, hk', rfl⟩
      exact ⟨_, hp, by rw [isWild_iff_code.1 hk, isWild_iff_code.1 hk'], hv⟩
    | false =>
      obtain ⟨x, hx⟩ := hba k'.code v' ⟨k', hq, hk', rfl⟩
      obtain ⟨y, hy, hxy⟩ := hab _ _ hx
      rw [Entry.unique hib hy ⟨k', hq, hk', rfl⟩] at hxy
      obtain ⟨k, hp, -, hc⟩ := hx
      exact ⟨_, hp, hc, hxy⟩
  have key : ∀ {a b : SValue}, a.isSimple = true → b.isNormal = true → a.isError = false →
      b.isError = false → (∀ q ∈ b.items, ∃ p ∈ a.items, p.1.code = q.1.code ∧ p.2.code = q.2.code) →
      (∀ p ∈ a.items, ∃ q ∈ b.items, p.1.code = q.1.code ∧ p.2.code = q.2.code) →
      a.code = b.code := by
    intro a b hsa hnb hea heb hsup hsub
    rw [items_of_isSimple hsa, hea] at hsup hsub
    by_cases hsb : b.isSimple = true
    · rw [items_of_isSimple hsb, heb] at hsup hsub
      cases hda : a.isDefined <;> cases hdb : b.isDefined <;> simp [hda, hdb] at hsup hsub
      · rw [eq_undefined_code hda, eq_undefined_code hdb]
      · exact hsub
    · obtain ⟨m, rfl⟩ := isSimple_eq_false.1 (by simpa using hsb)
      obtain ⟨s, ⟨q, hq, rfl⟩, hne⟩ := exists_slot_ne hnb a.code
      obtain ⟨p, hp, h1, h2⟩ := hsup q hq
      cases hda : a.isDefined <;> simp [hda] at hp
      subst hp
      refine absurd ?_ hne
      rw [slot_wild (isWild_iff_code.2 h1.symm), ← h2]
  by_cases hsa : a.isSimple = true
  · exact key hsa hnb hea heb hsup hsub
  by_cases hsb : b.isSimple = true
  · refine (key hsb hna heb hea (fun p hp => ?_) fun q hq => ?_).symm
    · obtain ⟨q, hq, h1, h2⟩ := hsub p hp
      exact ⟨q, hq, h1.symm, h2.symm⟩
    · obtain ⟨p, hp, h1, h2⟩ := hsup q hq
      exact ⟨p, hp, h1.symm, h2.symm⟩
  obtain ⟨m, rfl⟩ := isSimple_eq_false.1 (by simpa using hsa)
  obtain ⟨m', rfl⟩ := isSimple_eq_false.1 (by simpa using hsb)
  exact code_map_of_pairs hia hib hsub hsup

theorem addItem_view {this key value : SValue} (hp : Partial this) (he : this.isError = false)
    (hw : this.isWild = false) (hn : key.isNormal = true ∧ value.isNormal = true)
    (hpr : isProper (key, value) = true)
    (hnew : key.isWild = false → ∀ x, ¬ Entry this.items key.code x) :
    ∃ m, addItem this key value = map m ∧ Items m.maps ∧
      (∀ p ∈ m.maps, p = (key, value) ∨ p ∈ this.items) ∧
      (∀ t, SetItem m.maps t ↔ SetItem ((key, value) :: this.items) t) ∧
      ∀ c x, Entry m.maps c x ↔ Entry ((key, value) :: this.items) c x := by
  obtain ⟨m, hm, hi, hcase⟩ := addItem_spec hp he hw hn hpr
  refine ⟨m, hm, hi, ?_⟩
  rcases hcase with ⟨hin, hmaps⟩ | ⟨-, i, hle, hmaps⟩
  · -- the slot is taken, so it is that of a set item
    have hk : key.isWild = true := by
      by_contra hk
      have hk : key.isWild = false := by simpa using hk
      rw [slot_key hk, ← entry_slot] at hin
      obtain ⟨x, hx⟩ := hin
      exact hnew hk x hx
    rw [slot_wild hk, ← setItem_slot] at hin
    rw [hmaps]
    refine ⟨fun p hp => .inr hp, fun t => ?_, fun c x => ?_⟩
    · rw [setItem_cons]
      constructor
      · exact .inr
      · rintro (⟨-, rfl⟩ | h)
        · exact hin
        · exact h
    · rw [entry_cons, hk]; simp
  · have hmem' : ∀ q, q ∈ m.maps ↔ q ∈ (key, value) :: this.items := fun q => by
      rw [hmaps, mem_insertIdx hle, mem_cons]
    refine ⟨fun p hp => mem_cons.1 ((hmem' p).1 hp), fun t => ?_, fun c x => ?_⟩
    · simp only [SetItem, hmem']
    · simp only [Entry, hmem']

theorem set_view (cur : SValue) (h : Items l) {i : ℕ} (hi : l[i]? = some (k, v))
    (hk : k.isWild = false) :
    (∀ t, SetItem (l.set i (k, cur)) t ↔ SetItem l t) ∧
      ∀ c x, Entry (l.set i (k, cur)) c x ↔
        (c = k.code ∧ x = cur) ∨ (c ≠ k.code ∧ Entry l c x) := by
  have hmem := mem_set_iff cur h.table hi
  have hin : (k, v) ∈ l := mem_of_getElem? hi
  constructor
  · intro t
    constructor
    · rintro ⟨k', v', hp, hk', rfl⟩
      rcases (hmem _).1 hp with hp | ⟨hp, -⟩
      · cases hp; rw [hk] at hk'; cases hk'
      · exact ⟨k', v', hp, hk', rfl⟩
    · rintro ⟨k', v', hp, hk', rfl⟩
      refine ⟨k', v', (hmem _).2 (.inr ⟨hp, ?_⟩), hk', rfl⟩
      rintro h
      cases h; rw [hk] at hk'; cases hk'
  · intro c x
    constructor
    · rintro ⟨k', hp, hk', rfl⟩
      rcases (hmem _).1 hp with hp | ⟨hp, hne⟩
      · cases hp; exact .inl ⟨rfl, rfl⟩
      · refine .inr ⟨fun hc => hne ?_, k', hp, hk', rfl⟩
        exact h.table.unique hp hin (by rw [slot_key hk', slot_key hk, hc])
    · rintro (⟨rfl, rfl⟩ | ⟨hc, k', hp, hk', rfl⟩)
      · exact ⟨k, (hmem _).2 (.inl rfl), hk, rfl⟩
      · refine ⟨k', (hmem _).2 (.inr ⟨hp, ?_⟩), hk', rfl⟩
        rintro h
        cases h; exact hc rfl

end OpenBinder.SValue
