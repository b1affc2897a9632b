import OpenBinder.Value.MapValues

/-!
# Maps rebuilt from their items

Joining the items of a map one after the other, to nothing at first, gives the map back when they
are plain. An item may be anything else: a key that is a map is taken apart, an error is all that is
left, and `NULL` goes without its key.

* `rebuilds`: the items that are given back.
* `joinAll_rebuilt`: **plain items give the map**.
* `rebuilds_of_joinAll`: **no others do**. Of the longest key that is a map only shorter ones are made.
-/

namespace OpenBinder.SValue

open Lib List Option

/-- A pair that `JoinItem` adds as it is. -/
def isPlain (p : Pair) : Bool :=
  p.1.isSimple && !p.1.isError && !p.2.isError && (p.1.isWild || !p.2.isNull)

/-- Whether joining the items one after the other gives them back: `NULL` can only be the first
item of a set. -/
def rebuilds : List Pair → Bool
  | [] => true
  | p :: l => isPlain p && l.all fun q => isPlain q && !q.2.isNull

variable {v : SValue} {p : Pair}

theorem isPlain_iff {k : SValue} : isPlain (k, v) = true ↔ k.isSimple = true ∧
    k.isError = false ∧ v.isError = false ∧ (k.isWild = false → v.isNull = false) := by
  simp only [isPlain, Bool.and_eq_true, Bool.not_eq_true', Bool.or_eq_true]
  cases k.isWild <;> simp [and_assoc]

variable {out key value r : SValue} {done l : List Pair}

/-! ## Items that are given back -/

/-- **The items that were joined are there**, and no others. -/
structure Rebuilt (done : List Pair) (out : SValue) : Prop where
  normal : out.isNormal = true
  not_wild : out.isWild = false
  not_error : out.isError = false
  set : ∀ t, SetItem out.items t ↔ SetItem done t
  entry : ∀ c x, Entry out.items c x ↔ Entry done c x

theorem Rebuilt.nil : Rebuilt [] undefined where
  normal := rfl
  not_wild := by decide
  not_error := by decide
  set := fun t => by rw [items_of_isSimple (by decide)]; rfl
  entry := fun c x => by rw [items_of_isSimple (by decide)]; rfl

theorem Items.slot_not_mem (h : Items (done ++ p :: l)) : slot p ∉ slots done := by
  rintro ⟨q, hq, hs⟩
  have hlt := (pairwise_append.1 h.table).2.2 q hq p mem_cons_self
  rw [hs] at hlt
  exact cmp_irrefl _ hlt

theorem Rebuilt.isFresh (h : Rebuilt done out) (hi : Items (done ++ (key, value) :: l)) :
    SValue.isFresh out key value = true := by
  by_contra hf
  have hnew := hi.slot_not_mem
  obtain ⟨ht, hk, hc⟩ := Terminal.of_not_fresh (by simpa using hf)
  rw [slot_wild hk, ← setItem_slot, ← h.set, ht.items] at hnew
  exact hnew ⟨wild, out, by simp, by decide, hc.symm⟩

section

variable (h : Rebuilt done out) (hi : Items (done ++ (key, value) :: l))
  (hp : isPlain (key, value) = true)
  (hnull : key.isWild = true → value.isNull = true → out.isDefined = false)
include h hi hp hnull

theorem Rebuilt.joinItem_eq : SValue.joinItem out key value Flags.none =
      some (if key.isWild && !out.isDefined then value else out.addItem key value) := by
  obtain ⟨hkd, hvd, hwild⟩ := isProper_iff.1 (hi.proper (key, value) (by simp))
  obtain ⟨hks, hke, hve, hvnull⟩ := isPlain_iff.1 hp
  have hkm : key.isMap = false := by rw [isMap_eq_not_isSimple, hks]; rfl
  have hfinal : out.isFinal = false := by rw [isFinal, h.not_wild, h.not_error]; rfl
  unfold SValue.joinItem joinItemWith
  rw [hfinal, hkd, hvd, hkm, hke, hve]
  cases hk : key.isWild with
  | true =>
    have hvf : value.isFinal = false := by rw [isFinal, (hwild hk).2, hve]; rfl
    have hvm : value.isMap = false := by rw [isMap_eq_not_isSimple, (hwild hk).1]; rfl
    rw [hvf, hvm]
    cases hd : out.isDefined with
    | false => rfl
    | true =>
      have hn : value.isNull = false := by
        by_contra hn
        have hu := hnull hk (by simpa using hn)
        rw [hd] at hu
        cases hu
      have hb : out.beginEditItem key = none := if_pos hk
      rw [hn, joinPair, hb]
      rfl
  | false =>
    rw [hvnull hk, joinPair]
    cases hb : out.beginEditItem key with
    | none => rfl
    | some mi =>
      -- there would be an item with the key
      obtain ⟨rfl, -, k, cur, hat, hkw, hc⟩ := beginEditItem_some (.of_isNormal h.normal) hb
      have hnew := hi.slot_not_mem
      rw [slot_key hk, ← entry_slot] at hnew
      exact absurd ⟨cur, (h.entry _ _).1 ⟨k, mem_of_getElem? hat, hkw, hc⟩⟩ hnew

theorem Rebuilt.joinItem :
    ∃ r, SValue.joinItem out key value Flags.none = some r ∧ r.isDefined = true ∧
      Rebuilt (done ++ [(key, value)]) r := by
  have hmem : (key, value) ∈ done ++ (key, value) :: l := by simp
  obtain ⟨hkn, hvn⟩ := hi.normal _ hmem
  have hproper := hi.proper _ hmem
  obtain ⟨hkd, hvd, hwild⟩ := isProper_iff.1 hproper
  obtain ⟨hks, hke, hve, hvnull⟩ := isPlain_iff.1 hp
  obtain ⟨nested, r, hr, hj, hnested⟩ := joinItem_spec (rfl : Flags.none.noRecursion = false)
    h.normal hkn hvn (h.isFresh hi)
  have heq := h.joinItem_eq hi hp hnull
  have hd : r.isDefined = true := hj.defined (.inr ⟨hkd, hvd⟩)
  refine ⟨r, hr, hd, ?_⟩
  rw [hr] at heq
  have heq := Option.some.inj heq
  have hset : ∀ t, SetItem (done ++ [(key, value)]) t ↔
      SetItem ((key, value) :: out.items) t := fun t => by
    rw [setItem_append, setItem_cons, setItem_cons, h.set]
    simp [or_comm]
  have hentry : ∀ c x, Entry (done ++ [(key, value)]) c x ↔
      Entry ((key, value) :: out.items) c x := fun c x => by
    rw [entry_append, entry_cons, entry_cons, h.entry]
    simp [or_comm]
  by_cases hfirst : (key.isWild && !out.isDefined) = true
  · rw [if_pos hfirst] at heq
    subst heq
    rw [Bool.and_eq_true, Bool.not_eq_true'] at hfirst
    have hout : out.items = [] := by
      have hcode := eq_undefined_code hfirst.2
      rw [items_of_isSimple (by rw [isSimple_code hcode]; decide), hfirst.2]
      simp
    refine ⟨hj.normal, (hwild hfirst.1).2, hve, fun t => ?_, fun c x => ?_⟩
    · rw [hset, hout, setItem_of_isSimple (hwild hfirst.1).1 hd hve]
      simp [hfirst.1]
    · rw [hentry, hout]
      simp [hfirst.1, not_entry_of_isSimple (hwild hfirst.1).1]
  · rw [if_neg hfirst] at heq
    obtain ⟨m, hm, -, -, hset', hentry'⟩ := addItem_view (.of_isNormal h.normal) h.not_error
      h.not_wild ⟨hkn, hvn⟩ hproper fun hk x hx => by
        have hnew := hi.slot_not_mem
        rw [slot_key hk, ← entry_slot] at hnew
        exact hnew ⟨x, (h.entry _ _).1 hx⟩
    rw [hm] at heq
    subst heq
    exact ⟨hj.normal, isWild_map m, isError_map m, fun t => (hset' t).trans (hset t).symm,
      fun c x => (hentry' c x).trans (hentry c x).symm⟩

end

theorem Rebuilt.joinAll (h : Rebuilt done out) (hd : out.isDefined = true)
    (hi : Items (done ++ l)) (hl : ∀ p ∈ l, isPlain p = true ∧ p.2.isNull = false) :
    ∃ r, SValue.joinAll l out = some r ∧ Rebuilt (done ++ l) r := by
  induction l generalizing done out with
  | nil => exact ⟨out, rfl, by rwa [append_nil]⟩
  | cons p l ih =>
    obtain ⟨key, value⟩ := p
    obtain ⟨hp, hn⟩ := hl _ mem_cons_self
    obtain ⟨r, hr, hrd, hrb⟩ := h.joinItem hi hp fun _ hv => by rw [hn] at hv; cases hv
    rw [joinAll_cons, hr]
    have hassoc : done ++ (key, value) :: l = done ++ [(key, value)] ++ l := by simp
    rw [hassoc] at hi ⊢
    exact ih hrb hrd hi fun q hq => hl q (mem_cons_of_mem _ hq)

theorem rebuilds_cons : rebuilds (p :: l) = true ↔
    isPlain p = true ∧ ∀ q ∈ l, isPlain q = true ∧ q.2.isNull = false := by
  simp [rebuilds]

theorem joinAll_rebuilt {m : BValueMap SValue} (hn : (map m).isNormal = true)
    (h : rebuilds m.maps = true) : ∃ r, joinAll m.maps undefined = some r ∧
      r.isNormal = true ∧ r.code = (map m).code := by
  obtain ⟨hi, hne, -⟩ := isNormal_map.1 hn
  obtain ⟨r, hr, hb⟩ : ∃ r, joinAll m.maps undefined = some r ∧ Rebuilt m.maps r := by
    cases hm : m.maps with
    | nil => exact absurd hm hne
    | cons p l =>
      rw [hm] at h hi
      obtain ⟨hp, hl⟩ := rebuilds_cons.1 h
      obtain ⟨r, hr, hd, hb⟩ := Rebuilt.nil.joinItem hi hp fun _ _ => by decide
      rw [joinAll_cons, hr]
      exact hb.joinAll hd hi hl
  exact ⟨r, hr, hb.normal, code_of_view hb.normal hn hb.not_wild (isWild_map m) hb.not_error
    (isError_map m) hb.set (fun c x hx => ⟨x, (hb.entry c x).1 hx, rfl⟩)
    fun c y hy => ⟨y, (hb.entry c y).2 hy⟩⟩

/-! ## The keys of what is joined -/

/-- All keys are among these. -/
structure KeysIn (Q : List ℤ → Prop) (v : SValue) : Prop where
  items : Partial v
  keys : ∀ c, c ++ [1] ∈ slots v.items → Q c

variable {Q : List ℤ → Prop} {this : SValue} {flags : Flags}

theorem KeysIn.of_isSimple (h : v.isSimple = true) : KeysIn Q v where
  items := .of_isNormal (isNormal_of_isSimple h)
  keys := fun c hc => by
    obtain ⟨x, hx⟩ := entry_slot.2 hc
    exact absurd hx (not_entry_of_isSimple h c x)

theorem KeysIn.of_isError (h : v.isError = true) : KeysIn Q v := by
  apply KeysIn.of_isSimple
  by_contra hs
  obtain ⟨m, rfl⟩ := isSimple_eq_false.1 (by simpa using hs)
  cases (isError_map m).symm.trans h

theorem KeysIn.working (h : KeysIn Q v) (hw : v.isWild = false) : Working v :=
  .inr ⟨h.items, hw⟩

theorem KeysIn.added (h : KeysIn Q this) (hl : ∀ c, c ++ [1] ∈ slots l → Q c)
    (hadd : Added this l r) : KeysIn Q r := by
  rcases hadd.working with he | ⟨hp, -⟩
  · exact .of_isError he
  cases he : r.isError with
  | true => exact .of_isError he
  | false =>
    refine ⟨hp, fun c hc => ?_⟩
    rw [hadd.slots_eq he] at hc
    exact hc.elim (h.keys c) (hl c)

theorem KeysIn.join (hr : flags.noRecursion = false) {a b : SValue} (hw : a.isWild = false)
    (hnb : b.isNormal = true) (hd : b.isDefined = true) (ha : KeysIn Q a) (hb : KeysIn Q b)
    (h : SValue.join flags a b = some r) : KeysIn Q r := by
  obtain ⟨r', hr', hcases⟩ := join_cases hr (ha.working hw) hnb hd
  obtain ⟨⟩ := h.symm.trans hr'
  rcases hcases with ⟨-, rfl⟩ | ⟨-, -, -, hadd⟩ | ⟨-, -, rfl⟩
  · exact hb
  · exact ha.added hb.keys hadd
  · exact ha

/-- **`JoinItem` takes its keys** from what it is given. -/
theorem KeysIn.joinItemWith {mkMap : SValue → Option SValue}
    (hk : key.isNormal = true) (hv : value.isNormal = true) (hkd : key.isDefined = true)
    (hvd : value.isDefined = true) (hthis : KeysIn Q this)
    (hvalue : key.isWild = true → KeysIn Q value)
    (hnull : key.isWild = false → value.isNull = true → KeysIn Q key)
    (hmade : key.isWild = false → value.isNull = false → ∀ made, mkMap value = some made →
      made.isNormal = true ∧ made.isDefined = true ∧ KeysIn Q made)
    (hkey : key.isWild = false → value.isNull = false → key.isSimple = true → Q key.code)
    (h : SValue.joinItemWith mkMap this key value Flags.none = some r) : KeysIn Q r := by
  have hr : Flags.none.noRecursion = false := rfl
  unfold SValue.joinItemWith at h
  by_cases hfin : this.isFinal = true
  · rw [if_neg (by simp [hfin])] at h
    exact Option.some.inj h ▸ hthis
  rw [if_pos (by simp [hfin, hkd, hvd])] at h
  have hfin' : this.isWild = false ∧ this.isError = false := by simpa [isFinal] using hfin
  have hw := hfin'.1
  split at h
  · rename_i h1
    simp only [Bool.and_eq_true] at h1
    exact Option.some.inj h ▸ hvalue h1.1
  rename_i h1
  split at h
  · rename_i h2
    simp only [Bool.and_eq_true] at h2
    exact hthis.join hr hw hv hvd (hvalue h2.1) h
  rename_i h2
  split at h
  · rename_i h3
    refine hthis.join hr hw hk hkd ?_ h
    cases hkw : key.isWild with
    | true =>
      exact .of_isSimple (by rw [isSimple_code (isWild_iff_code.1 hkw)]; decide)
    | false => exact hnull hkw h3
  rename_i h3
  have hvn : value.isNull = false := by simpa using h3
  split at h
  · rename_i h4
    have hkw : key.isWild = false := by
      by_contra hkw
      have hkw : key.isWild = true := by simpa using hkw
      have hc := isWild_iff_code.1 hkw
      have hs : wild.isSimple = true := by decide
      have he : wild.isError = false := by decide
      rw [isMap_eq_not_isSimple, isSimple_code hc, isError_code hc] at h4
      have hve : value.isError = true := by simpa [hs, he] using h4
      exact h1 (by rw [hkw, isFinal, hve]; simp)
    obtain ⟨made, hmk, hj⟩ := bind_eq_some_iff.1 h
    obtain ⟨hmn, hmd, hmk⟩ := hmade hkw hvn made hmk
    exact hthis.join hr hw hmn hmd hmk hj
  · rename_i h4
    simp only [Bool.or_eq_true, not_or, isMap_eq_not_isSimple, Bool.not_eq_true,
      Bool.not_eq_false'] at h4
    have hp := isProper_iff.2 ⟨hkd, hvd, fun hkw => by
      have hvf : value.isFinal = false := by
        by_contra hf
        exact h1 (by simp [hkw, hf])
      rw [isFinal, Bool.or_eq_false_iff] at hvf
      refine ⟨?_, hvf.1⟩
      by_contra hs
      exact h2 (by simp [hkw, isMap_eq_not_isSimple, hs])⟩
    obtain ⟨r', hr', hadd⟩ := joinPair_added (f := fun cur => SValue.join Flags.none cur value) hr
      (hthis.working hw) ⟨hk, hv⟩ hp fun _ cur hcur => join_spec hr value cur hcur hv
    obtain ⟨⟩ := h.symm.trans hr'
    refine hthis.added (fun c hc => ?_) hadd
    obtain ⟨q, hq, hs⟩ := hc
    rw [mem_singleton.1 hq] at hs
    cases hkw : key.isWild with
    | true =>
      rw [slot_wild hkw] at hs
      exact absurd hs (by simp)
    | false =>
      rw [slot_key hkw] at hs
      rw [← (append_inj' hs rfl).1]
      exact hkey hkw hvn h4.1.1

/-- If it is the key of a table of its own, it is a short one. -/
def Shorter (n : ℕ) (c : List ℤ) : Prop :=
  ∀ k : SValue, k.code = c → k.isSimple = false → c.length < n

theorem Shorter.of_isSimple {n : ℕ} {k : SValue} (h : k.isSimple = true) : Shorter n k.code := by
  intro k' hc hs
  rw [isSimple_code hc, h] at hs
  cases hs

theorem KeysIn.mono {n n' : ℕ} (h : KeysIn (Shorter n) v) (hle : n ≤ n') :
    KeysIn (Shorter n') v :=
  ⟨h.items, fun c hc k hk hs => (h.keys c hc k hk hs).trans_le hle⟩

theorem keysIn_self (hn : v.isNormal = true) :
    KeysIn (Shorter v.code.length) v := by
  refine ⟨.of_isNormal hn, ?_⟩
  by_cases hs : v.isSimple = true
  · exact (KeysIn.of_isSimple hs).keys
  · obtain ⟨⟨avail, dataSize, maps⟩, rfl⟩ := isSimple_eq_false.1 (by simpa using hs)
    intro c hc k hk hs
    obtain ⟨x, k', hmem, -, rfl⟩ := entry_slot.2 hc
    exact (code_length_lt hmem avail dataSize).1

theorem initAsMapWith_simple {n : ℕ} {flatten : Option SValue} (hs : key.isSimple = true)
    (hkn : key.isNormal = true) (hvn : value.isNormal = true)
    (hkd : key.isDefined = true) (hvd : value.isDefined = true) (hkw : key.isWild = false)
    (h : initAsMapWith key value flags flatten = some r) : KeysIn (Shorter n) r := by
  unfold initAsMapWith at h
  by_cases hke : key.isError = true
  · rw [if_pos hke] at h
    exact Option.some.inj h ▸ .of_isError hke
  rw [if_neg hke] at h
  by_cases hve : value.isError = true
  · rw [if_pos hve] at h
    exact Option.some.inj h ▸ .of_isError hve
  rw [if_neg hve, if_pos (by simp [hkd, hvd]), if_neg (by simp [hkw]),
    if_pos (by simp [isMap_eq_not_isSimple, hs])] at h
  obtain ⟨⟩ := h
  refine ⟨Items.singleton ⟨hkn, hvn⟩ (isProper_iff.2 ⟨hkd, hvd, fun hk => ?_⟩), ?_⟩
  · rw [hkw] at hk; cases hk
  rintro c ⟨q, hq, hslot⟩
  rw [show q = (key, value) from mem_singleton.1 hq, slot_key hkw] at hslot
  rw [← (append_inj' hslot rfl).1]
  exact .of_isSimple hs

/-- **A key that is a map is taken apart**: what is made of it has shorter keys. -/
theorem initAsMap_shorter : ∀ key : SValue, ∀ {value r : SValue}, key.isNormal = true →
    value.isNormal = true → key.isDefined = true → value.isDefined = true → key.isWild = false →
    initAsMap Flags.none key value = some r → KeysIn (Shorter key.code.length) r := by
  intro key
  induction key using SValue.ind with
  | map m ih =>
    intro value r hk hv hkd hvd hkw h
    obtain ⟨avail, dataSize, maps⟩ := m
    obtain ⟨hi, hne, -⟩ := isNormal_map.1 hk
    have hlen : ∀ p ∈ maps, _ := fun p hp => code_length_lt (p := p) hp avail dataSize
    generalize (map ⟨avail, dataSize, maps⟩ : SValue).code.length = n at hlen ⊢
    rw [initAsMap] at h
    unfold initAsMapWith at h
    rw [if_neg (by simp)] at h
    by_cases hve : value.isError = true
    · rw [if_pos hve] at h
      exact Option.some.inj h ▸ .of_isError hve
    rw [if_neg hve, if_pos (by simp [hvd]), if_neg (by simp),
      if_neg (by simp [isMap_eq_not_isSimple, Flags.none])] at h
    -- the loop, over any part of the table
    have loop : ∀ l : List Pair, (∀ p ∈ l, p ∈ maps) → ∀ this : SValue,
        KeysIn (Shorter n) this → initItems this l value = some r → KeysIn (Shorter n) r := by
      intro l
      induction l with
      | nil =>
        intro _ this hthis h
        rw [initItems] at h
        exact Option.some.inj h ▸ hthis
      | cons p l ihl =>
        intro hsub this hthis h
        obtain ⟨k, v⟩ := p
        have hp := hsub _ mem_cons_self
        obtain ⟨hkn, hvn⟩ := hi.normal _ hp
        obtain ⟨hkd', hvd', hwild⟩ := isProper_iff.1 (hi.proper _ hp)
        obtain ⟨hkl, hvl⟩ := hlen _ hp
        rw [initItems] at h
        obtain ⟨made, hmade, h⟩ := bind_eq_some_iff.1 h
        obtain ⟨this', hthis', h⟩ := bind_eq_some_iff.1 h
        obtain ⟨made', hmade', hm, -⟩ := initAsMap_spec v Flags.none value hvn hv
        obtain ⟨⟩ := hmade.symm.trans hmade'
        have hmd := hm.defined hvd' hvd
        refine ihl (fun q hq => hsub q (mem_cons_of_mem _ hq)) this' ?_ h
        refine hthis.joinItemWith hkn hm.normal hkd' hmd (fun hkw' => ?_) (fun _ _ => ?_)
          (fun hkw' _ inner hinner => ?_) (fun _ _ hs => .of_isSimple hs) hthis'
        · exact ((ih _ hp).2 hvn hv hvd' hvd (hwild hkw').2 hmade).mono hvl.le
        · exact (keysIn_self hkn).mono hkl.le
        · obtain ⟨inner', hinner', hmi, -⟩ := initAsMap_spec k Flags.none made hkn hm.normal
          obtain ⟨⟩ := hinner.symm.trans hinner'
          exact ⟨hmi.normal, hmi.defined hkd' hmd,
            ((ih _ hp).1 hkn hm.normal hkd' hmd hkw' hinner).mono hkl.le⟩
    exact loop maps (fun p hp => hp) undefined (.of_isSimple (by decide)) h
  | _ =>
    intro value r hk hv hkd hvd hkw h
    rw [initAsMap_of_isSimple (by simp)] at h
    exact initAsMapWith_simple (by simp) hk hv hkd hvd hkw h

/-! ## Items that are not given back -/

variable {m : BValueMap SValue}

theorem slot_of_code_map (hc : r.code = (map m).code) (hp : p ∈ m.maps) :
    slot p ∈ slots r.items := by
  obtain ⟨m', rfl⟩ := isSimple_eq_false.1 ((isSimple_code hc).trans (isSimple_map m))
  obtain ⟨i, hi⟩ := mem_iff_getElem?.1 hp
  rcases getElem?_of_forall₂ (forall₂_of_code hc) i with ⟨-, h⟩ | ⟨q, p', hq, hp', h1, h2⟩
  · rw [hi] at h; cases h
  · rw [hi] at hp'
    obtain ⟨⟩ := hp'
    exact ⟨q, mem_of_getElem? hq, slot_of_code h1 h2⟩

theorem not_final_of_code (hc : r.code = (map m).code) : r.isFinal = false := by
  rw [isFinal, isWild_code hc, isError_code hc, isWild_map, isError_map]
  rfl

theorem joinAll_final (h : out.isFinal = true) (l : List Pair) : joinAll l out = some out := by
  induction l with
  | nil => rfl
  | cons p l ih =>
    have hj : SValue.joinItem out p.1 p.2 Flags.none = some out := by
      unfold SValue.joinItem SValue.joinItemWith
      rw [h]
      rfl
    rw [joinAll_cons, hj]
    exact ih

theorem KeysIn.joinAll (hl : ∀ p ∈ l, ∀ this r, KeysIn Q this →
    SValue.joinItem this p.1 p.2 Flags.none = some r → KeysIn Q r) (hout : KeysIn Q out)
    (h : SValue.joinAll l out = some r) : KeysIn Q r := by
  induction l generalizing out with
  | nil => exact Option.some.inj h ▸ hout
  | cons p l ih =>
    rw [joinAll_cons] at h
    obtain ⟨this, hthis, h⟩ := bind_eq_some_iff.1 h
    exact ih (fun q hq => hl q (mem_cons_of_mem _ hq))
      (hl p mem_cons_self out this hout hthis) h

/-- **No key that is a map is given back**: of the longest one only shorter ones are made. -/
theorem isSimple_key (hn : (map m).isNormal = true) (h : joinAll m.maps undefined = some r)
    (hc : r.code = (map m).code) : ∀ p ∈ m.maps, p.1.isSimple = true := by
  obtain ⟨hi, -, -⟩ := isNormal_map.1 hn
  by_contra hex
  push Not at hex
  obtain ⟨p, hp, hs⟩ := hex
  -- there are longer and longer keys
  have hlong : ∀ n : ℕ, ∃ p ∈ m.maps, p.1.isSimple = false ∧ n ≤ p.1.code.length := by
    intro n
    induction n with
    | zero => exact ⟨p, hp, by simpa using hs, Nat.zero_le _⟩
    | succ n ih =>
      obtain ⟨q, hq, hqs, hqn⟩ := ih
      by_contra hall
      push Not at hall
      have hkeys : KeysIn (Shorter n) r := by
        refine KeysIn.joinAll (fun p hp this r hthis hj => ?_) (.of_isSimple (by decide)) h
        obtain ⟨hkn, hvn⟩ := hi.normal p hp
        obtain ⟨hkd, hvd, hwild⟩ := isProper_iff.1 (hi.proper p hp)
        have hle : p.1.isSimple = false → p.1.code.length ≤ n := fun hs =>
          Nat.lt_succ_iff.1 (hall p hp hs)
        have hself : KeysIn (Shorter n) p.1 := by
          cases hs : p.1.isSimple with
          | true => exact .of_isSimple hs
          | false => exact (keysIn_self hkn).mono (hle hs)
        refine hthis.joinItemWith hkn hvn hkd hvd (fun hk => .of_isSimple (hwild hk).1)
          (fun _ _ => hself) (fun hkw _ made hmade => ?_) (fun _ _ hs => .of_isSimple hs) hj
        obtain ⟨made', hmade', hm, -⟩ := initAsMap_spec p.1 Flags.none p.2 hkn hvn
        obtain ⟨⟩ := hmade.symm.trans hmade'
        refine ⟨hm.normal, hm.defined hkd hvd, ?_⟩
        cases hs : p.1.isSimple with
        | true =>
          rw [initAsMap_of_isSimple hs] at hmade
          exact initAsMapWith_simple hs hkn hvn hkd hvd hkw hmade
        | false => exact (initAsMap_shorter p.1 hkn hvn hkd hvd hkw hmade).mono (hle hs)
      have hslot := slot_of_code_map hc hq
      have hqw : q.1.isWild = false := by
        obtain ⟨m', hm'⟩ := isSimple_eq_false.1 hqs
        rw [hm', isWild_map]
      rw [show q = (q.1, q.2) from rfl, slot_key hqw] at hslot
      exact absurd (hkeys.keys _ hslot q.1 rfl hqs) (Nat.not_lt.2 hqn)
  obtain ⟨q, hq, -, hlen⟩ := hlong (map m).code.length
  exact absurd (code_length_lt hq m.avail m.dataSize).1 (Nat.not_lt.2 hlen)

theorem join_final {a b : SValue} (h : b.isFinal = true) : SValue.join flags a b = some b := by
  cases b with
  | map m =>
    rw [isFinal, isWild_map, isError_map] at h
    cases h
  | _ =>
    rw [SValue.join]
    · exact if_pos h
    all_goals simp

/-- **An error** leaves nothing else. -/
theorem joinItem_error (hp : Joinable p) (hs : p.1.isSimple = true)
    (he : p.1.isError = true ∨ p.2.isError = true)
    (h : SValue.joinItem out p.1 p.2 Flags.none = some r) : r.isFinal = true := by
  obtain ⟨key, value⟩ := p
  have hfinal : ∀ {v : SValue}, v.isError = true → v.isFinal = true := fun hv => by
    rw [isFinal, hv, Bool.or_true]
  unfold SValue.joinItem SValue.joinItemWith at h
  by_cases hfin : out.isFinal = true
  · rw [if_neg (by simp [hfin])] at h
    exact Option.some.inj h ▸ hfin
  rw [if_pos (by simp [hfin, hp.key_defined, hp.value_defined])] at h
  have hwild : key.isWild = true → value.isError = true := fun hk =>
    he.resolve_left (by rw [isError_code (isWild_iff_code.1 hk)]; decide)
  split at h
  · rename_i h1
    simp only [Bool.and_eq_true] at h1
    exact Option.some.inj h ▸ hfinal (hwild h1.1)
  rename_i h1
  split at h
  · rename_i h2
    simp only [Bool.and_eq_true] at h2
    exact absurd (by simp [h2.1, hfinal (hwild h2.1)]) h1
  split at h
  · rename_i h3
    have hke : key.isError = true := he.resolve_right (by
      rw [isError_code (isNull_iff_code.1 h3)]
      decide)
    rw [join_final (hfinal hke)] at h
    exact Option.some.inj h ▸ hfinal hke
  split at h
  · obtain ⟨made, hmade, hj⟩ := bind_eq_some_iff.1 h
    have hme : made.isError = true := by
      rw [initAsMap_of_isSimple hs] at hmade
      unfold initAsMapWith at hmade
      by_cases hke : key.isError = true
      · rw [if_pos hke] at hmade
        exact Option.some.inj hmade ▸ hke
      · rw [if_neg hke, if_pos (he.resolve_left hke)] at hmade
        exact Option.some.inj hmade ▸ he.resolve_left hke
    rw [join_final (hfinal hme)] at hj
    exact Option.some.inj hj ▸ hfinal hme
  · rename_i h4
    exact absurd (by rcases he with he | he <;> simp [he]) h4

theorem joinAll_error (hl : ∀ p ∈ l, Joinable p ∧ p.1.isSimple = true) (hp : p ∈ l)
    (he : p.1.isError = true ∨ p.2.isError = true) (h : joinAll l out = some r) :
    r.isFinal = true := by
  induction l generalizing out with
  | nil => cases hp
  | cons q l ih =>
    rw [joinAll_cons] at h
    obtain ⟨this, hthis, hrest⟩ := bind_eq_some_iff.1 h
    rcases mem_cons.1 hp with rfl | hp
    · have hfin := joinItem_error (hl p mem_cons_self).1 (hl p mem_cons_self).2 he hthis
      rw [joinAll_final hfin] at hrest
      exact Option.some.inj hrest ▸ hfin
    · exact ih (fun q hq => hl q (mem_cons_of_mem _ hq)) hp hrest

theorem Items.joinable (h : Items l) : ∀ p ∈ l, Joinable p := fun p hp =>
  have hd := isProper_iff.1 (h.proper p hp)
  ⟨(h.normal p hp).1, (h.normal p hp).2, hd.1, hd.2.1⟩

/-- **An entry without a value is not given back**: its key becomes a set item. -/
theorem not_null_entry (hi : Items m.maps) (hs : ∀ p ∈ m.maps, p.1.isSimple = true)
    (he : ∀ p ∈ m.maps, p.1.isError = false ∧ p.2.isError = false)
    (h : joinAll m.maps undefined = some r) (hc : r.code = (map m).code)
    (hp : p ∈ m.maps) (hk : p.1.isWild = false) : p.2.isNull = false := by
  by_contra hn
  have hn : p.2.isNull = true := by simpa using hn
  have hkeys : KeysIn (· ≠ p.1.code) r := by
    refine KeysIn.joinAll (fun q hq this r hthis hj => ?_) (.of_isSimple (by decide)) h
    obtain ⟨hkn, hvn⟩ := hi.normal q hq
    obtain ⟨hkd, hvd, hwild⟩ := isProper_iff.1 (hi.proper q hq)
    have hne : q.1.isWild = false → q.2.isNull = false → q.1.code ≠ p.1.code := by
      intro hqk hqn hcode
      have hslot : slot q = slot p := by
        rw [show q = (q.1, q.2) from rfl, show p = (p.1, p.2) from rfl, slot_key hqk, slot_key hk,
          hcode]
      rw [hi.table.unique hq hp hslot, hn] at hqn
      cases hqn
    refine hthis.joinItemWith hkn hvn hkd hvd (fun hqk => .of_isSimple (hwild hqk).1)
      (fun _ _ => .of_isSimple (hs q hq)) (fun hqk hqn made hmade => ?_)
      (fun hqk hqn _ => hne hqk hqn) hj
    obtain ⟨made', hmade', hm, -⟩ := initAsMap_spec q.1 Flags.none q.2 hkn hvn
    obtain ⟨⟩ := hmade.symm.trans hmade'
    refine ⟨hm.normal, hm.defined hkd hvd, .of_isNormal hm.normal, fun c hcs => ?_⟩
    rw [initAsMap_of_isSimple (hs q hq)] at hmade
    unfold initAsMapWith at hmade
    rw [if_neg (by simp [(he q hq).1]), if_neg (by simp [(he q hq).2]), if_pos (by simp [hkd, hvd]),
      if_neg (by simp [hqk]), if_pos (by simp [isMap_eq_not_isSimple, hs q hq])] at hmade
    obtain ⟨⟩ := hmade
    obtain ⟨q', hq', hslot⟩ := hcs
    rw [show q' = (q.1, q.2) from mem_singleton.1 hq', slot_key hqk] at hslot
    rw [← (append_inj' hslot rfl).1]
    exact hne hqk hqn
  have hslot := slot_of_code_map hc hp
  rw [show p = (p.1, p.2) from rfl, slot_key hk] at hslot
  exact hkeys.keys _ hslot rfl

/-- **`NULL` is a set item only at first**: joined to anything, it makes that `WILD`. -/
theorem joinAll_null (h : Rebuilt done out) (hd : out.isDefined = true) (hi : Items (done ++ l))
    (hl : ∀ p ∈ l, isPlain p = true) (hp : p ∈ l) (hn : p.2.isNull = true)
    (hr : joinAll l out = some r) : r.isFinal = true := by
  induction l generalizing done out with
  | nil => cases hp
  | cons q l ih =>
    obtain ⟨key, value⟩ := q
    have hplain := hl _ mem_cons_self
    rw [joinAll_cons] at hr
    obtain ⟨this, hthis, hrest⟩ := bind_eq_some_iff.1 hr
    cases hqn : value.isNull with
    | true =>
      have hkw : key.isWild = true := by
        by_contra hkw
        rw [(isPlain_iff.1 hplain).2.2.2 (by simpa using hkw)] at hqn
        cases hqn
      have hj : SValue.joinItem out key value Flags.none = some key := by
        have hkf : key.isFinal = true := by rw [isFinal, hkw]; rfl
        have hcode := isNull_iff_code.1 hqn
        have hvd : value.isDefined = true := by rw [isDefined_code hcode]; decide
        have hvf : value.isFinal = false := by
          rw [isFinal, isWild_code hcode, isError_code hcode]
          decide
        have hvm : value.isMap = false := by
          rw [isMap_eq_not_isSimple, isSimple_code hcode]
          decide
        unfold SValue.joinItem SValue.joinItemWith
        rw [isFinal, h.not_wild, h.not_error, isDefined_of_isWild hkw, hvd, hkw, hd, hvf, hvm, hqn,
          ← join_final hkf]
        rfl
      obtain rfl := Option.some.inj (hthis.symm.trans hj)
      have hfin : this.isFinal = true := by rw [isFinal, hkw]; rfl
      rw [joinAll_final hfin] at hrest
      exact Option.some.inj hrest ▸ hfin
    | false =>
      obtain ⟨this', hthis', hd', hb⟩ := h.joinItem hi hplain fun _ hv => by
        rw [hqn] at hv; cases hv
      obtain ⟨⟩ := hthis.symm.trans hthis'
      rcases mem_cons.1 hp with rfl | hp
      · rw [hn] at hqn; cases hqn
      · rw [append_cons] at hi
        exact ih hb hd' hi (fun q hq => hl q (mem_cons_of_mem _ hq)) hp hrest

theorem rebuilds_of_joinAll (hn : (map m).isNormal = true)
    (h : joinAll m.maps undefined = some r) (hc : r.code = (map m).code) :
    rebuilds m.maps = true := by
  obtain ⟨hi, hne, -⟩ := isNormal_map.1 hn
  have hs := isSimple_key hn h hc
  have hnf := not_final_of_code hc
  have he : ∀ p ∈ m.maps, p.1.isError = false ∧ p.2.isError = false := by
    intro p hp
    by_contra hex
    have hor : p.1.isError = true ∨ p.2.isError = true := by
      cases h1 : p.1.isError <;> cases h2 : p.2.isError <;> simp [h1, h2] at hex ⊢
    rw [joinAll_error (fun q hq => ⟨hi.joinable q hq, hs q hq⟩) hp hor h] at hnf
    cases hnf
  have hplain : ∀ p ∈ m.maps, isPlain p = true := fun p hp => isPlain_iff.2
    ⟨hs p hp, (he p hp).1, (he p hp).2, not_null_entry hi hs he h hc hp⟩
  cases hm : m.maps with
  | nil => rfl
  | cons p l =>
    rw [hm] at hi hplain h
    refine rebuilds_cons.2 ⟨hplain _ mem_cons_self, fun q hq =>
      ⟨hplain q (mem_cons_of_mem _ hq), ?_⟩⟩
    by_contra hqn
    obtain ⟨this, hthis, hd, hb⟩ := Rebuilt.nil.joinItem hi (hplain _ mem_cons_self)
      fun _ _ => by decide
    rw [joinAll_cons, hthis] at h
    rw [joinAll_null hb hd hi (fun q hq => hplain q (mem_cons_of_mem _ hq)) hq
      (by simpa using hqn) h] at hnf
    cases hnf

end OpenBinder.SValue
