import OpenBinder.Cache.GenericCache
import OpenBinder.Lib.Word
import Mathlib.Algebra.Order.BigOperators.Group.List

/-!
# What a cache keeps

* `Sound`: the size is accounted for, and ages tell the last uses of the entries.
* `purge_spec`: the entries that are purged are those of the lowest ages, and are purged until there
  is room or nothing to purge.
* `cache_run`: **a cache accounts for its contents and evicts the least recently used entries** in
  every run whose calls are right.
-/

namespace OpenBinder

open Lib Function List BitVec Nat

namespace SAbstractCache

variable {K T : Type} {cmp : K → K → Ordering} (size : PerformSize T)

/-- What an entry counts with. -/
def counted (e : K × CacheEntry T) : ℕ :=
  if e.2.IsPermanent then 0 else (size.size e.2.data).toNat

/-- **The sizes of the entries** that can be purged. -/
def total (l : List (K × CacheEntry T)) : ℕ := (l.map (counted size)).sum

theorem total_cons (e : K × CacheEntry T) (l : List (K × CacheEntry T)) :
    total size (e :: l) = counted size e + total size l := by
  simp [total]

theorem total_perm {l l' : List (K × CacheEntry T)} (h : l.Perm l') : total size l = total size l' :=
  (h.map _).sum_eq

theorem total_eq_zero {l : List (K × CacheEntry T)} (h : ∀ e ∈ l, e.2.IsPermanent) :
    total size l = 0 := by
  induction l with
  | nil => rfl
  | cons e l ih =>
    rw [total_cons, counted, if_pos (h e mem_cons_self),
      ih fun e he => h e (mem_cons_of_mem _ he)]

/-- **The accounts of a cache**: the size that is used, and the ages. -/
structure Sound (c : SAbstractCache cmp T) : Prop where
  limit : c.cacheSize.toNat < 2 ^ 31
  used : c.sizeUsed.toNat = total size c.entries.items
  small : total size c.entries.items < 2 ^ 31
  permanent : ∀ e ∈ c.entries.items, e.2.IsPermanent → e.2.age = 0xFFFFFFFF#32

/-- The ages of the entries that can be purged are not after that of the cache. -/
structure Aged (c : SAbstractCache cmp T) : Prop where
  even : c.age &&& 1 = 0
  le : ∀ e ∈ c.entries.items, ¬ e.2.IsPermanent → e.2.age ≤ c.age

/-- **What is purged**: entries of the lowest ages, until there is room or nothing to purge. -/
structure Purged (age dataSize : BitVec 32) (c c' : SAbstractCache cmp T) : Prop where
  sound : Sound size c'
  cacheSize : c'.cacheSize = c.cacheSize
  age_eq : c'.age = c.age
  subset : ∀ e ∈ c'.entries.items, e ∈ c.entries.items
  total_le : total size c'.entries.items ≤ total size c.entries.items
  lowest : ∀ e ∈ c.entries.items, e ∉ c'.entries.items → ¬ e.2.IsPermanent ∧
    ∀ e' ∈ c'.entries.items, ¬ e'.2.age < e.2.age
  room : dataSize.toInt ≤ c'.sizeLeft ∨ ∀ e ∈ c'.entries.items, ¬ e.2.age < age

variable {size} {c : SAbstractCache cmp T} {age dataSize : BitVec 32}

theorem Purged.refl (h : Sound size c)
    (hroom : dataSize.toInt ≤ c.sizeLeft ∨ ∀ e ∈ c.entries.items, ¬ e.2.age < age) :
    Purged size age dataSize c c :=
  ⟨h, rfl, rfl, fun _ he => he, le_refl _, fun _ he hne => absurd he hne, hroom⟩

theorem Sound.sizeLeft_eq (h : Sound size c) :
    c.sizeLeft = (c.cacheSize.toNat : ℤ) - total size c.entries.items := by
  have hlimit := h.limit
  have hsmall := h.small
  have hused := h.used
  unfold sizeLeft
  rw [toInt_sub, toInt_eq_toNat_of_lt (by omega), toInt_eq_toNat_of_lt (by omega),
    hused]
  exact Int.bmod_eq_of_le (by omega) (by omega)

theorem toInt_of_small {x : BitVec 32} (h : x.toNat < 2 ^ 31) : x.toInt = x.toNat :=
  toInt_eq_toNat_of_lt (by omega)

/-! ### The loop for the lowest age -/

/-- **The entry of the lowest age** is found, if one is lower than what the loop starts with. -/
theorem scanAges_cases : ∀ (es : List (K × CacheEntry T)) (i : ℕ) (minAge : BitVec 32)
    (index : Option ℕ),
    (scanAges es i minAge index = index ∧ ∀ e ∈ es, ¬ e.2.age < minAge) ∨
      ∃ j e, scanAges es i minAge index = some (i + j) ∧ es[j]? = some e ∧ e.2.age < minAge ∧
        ∀ e' ∈ es, ¬ e'.2.age < e.2.age := by
  intro es
  induction es with
  | nil => intro i minAge index; exact .inl ⟨rfl, nofun⟩
  | cons e es ih =>
    intro i minAge index
    by_cases hlt : e.2.age < minAge
    · rw [scanAges, if_pos hlt]
      refine .inr ?_
      rcases ih (i + 1) e.2.age (some i) with ⟨heq, hmin⟩ | ⟨j, e', heq, hget, hlow, hmin⟩
      · refine ⟨0, e, heq, rfl, hlt, fun e' he' => ?_⟩
        rcases mem_cons.1 he' with rfl | he'
        · exact BitVec.lt_irrefl _
        · exact hmin e' he'
      · refine ⟨j + 1, e', by rw [heq]; congr 1; omega, hget, BitVec.lt_trans hlow hlt, ?_⟩
        intro e'' he''
        rcases mem_cons.1 he'' with rfl | he''
        · exact fun h => BitVec.lt_irrefl _ (BitVec.lt_trans h hlow)
        · exact hmin e'' he''
    · rw [scanAges, if_neg hlt]
      rcases ih (i + 1) minAge index with ⟨heq, hmin⟩ | ⟨j, e', heq, hget, hlow, hmin⟩
      · refine .inl ⟨heq, fun e' he' => ?_⟩
        rcases mem_cons.1 he' with rfl | he'
        · exact hlt
        · exact hmin e' he'
      · refine .inr ⟨j + 1, e', by rw [heq]; congr 1; omega, hget, hlow, ?_⟩
        intro e'' he''
        rcases mem_cons.1 he'' with rfl | he''
        · exact fun h => hlt (BitVec.lt_trans h hlow)
        · exact hmin e'' he''

/-! ### Eviction -/

theorem Sound.evict (h : Sound size c) {i : ℕ} {e : K × CacheEntry T}
    (hget : c.entries.items[i]? = some e) (he : ¬ e.2.IsPermanent) :
    Sound size (c.evict size i) ∧ c.entries.items.Perm (e :: (c.evict size i).entries.items) ∧
      (c.evict size i).cacheSize = c.cacheSize ∧ (c.evict size i).age = c.age := by
  have hevict : c.evict size i = { c with
      sizeUsed := c.sizeUsed - size.size e.2.data, entries := c.entries.removeAt i } := by
    unfold SAbstractCache.evict
    rw [hget]
  obtain ⟨hlt, rfl⟩ := List.getElem?_eq_some_iff.1 hget
  have hperm : c.entries.items.Perm (c.entries.items[i] :: c.entries.items.eraseIdx i) :=
    (getElem_cons_eraseIdx_perm hlt).symm
  have htotal := total_perm size hperm
  rw [total_cons, counted, if_neg he] at htotal
  have hused := h.used
  have hsmall := h.small
  rw [hevict]
  refine ⟨⟨h.limit, ?_, ?_, ?_⟩, hperm, rfl, rfl⟩
  · show (c.sizeUsed - size.size (c.entries.items[i]).2.data).toNat =
      total size (c.entries.items.eraseIdx i)
    rw [toNat_sub_of_le (by rw [le_def]; omega)]
    omega
  · show total size (c.entries.items.eraseIdx i) < 2 ^ 31
    omega
  · exact fun e he => h.permanent e (mem_of_mem_eraseIdx he)

theorem purge_spec : ∀ (n : ℕ) (c : SAbstractCache cmp T), Sound size c →
    c.entries.items.length ≤ n → Purged size age dataSize c (c.purge size age dataSize n) := by
  intro n
  induction n with
  | zero =>
    intro c h hlen
    have hnil : c.entries.items = [] := length_eq_zero_iff.1 (by omega)
    exact Purged.refl h (.inr fun e he => by rw [hnil] at he; cases he)
  | succ n ih =>
    intro c h hlen
    by_cases hroom : c.sizeLeft < dataSize.toInt
    · rw [purge, if_pos hroom]
      rcases scanAges_cases c.entries.items 0 age none with ⟨heq, hmin⟩ | ⟨j, e, heq, hget, hlow, hmin⟩
      · rw [heq]
        exact Purged.refl h (.inr hmin)
      · rw [heq, zero_add]
        have hmem := mem_of_getElem? hget
        have he : ¬ e.2.IsPermanent := by
          intro hp
          rw [h.permanent e hmem hp, lt_def] at hlow
          have hones : (0xFFFFFFFF#32).toNat = 2 ^ 32 - 1 := by decide
          omega
        obtain ⟨hsound, hperm, hsize, hage⟩ := h.evict hget he
        have hlen' : (c.evict size j).entries.items.length ≤ n := by
          have hl := hperm.length_eq
          rw [length_cons] at hl
          omega
        have hle : total size (c.evict size j).entries.items ≤ total size c.entries.items := by
          rw [total_perm size hperm, total_cons]
          exact le_add_left _ _
        obtain ⟨h1, h2, h3, h4, h5, h6, h7⟩ := ih _ hsound hlen'
        refine ⟨h1, h2.trans hsize, h3.trans hage, fun e' he' => ?_, h5.trans hle,
          fun e' he' hne => ?_, h7⟩
        · exact hperm.mem_iff.2 (mem_cons_of_mem _ (h4 e' he'))
        · rcases mem_cons.1 (hperm.mem_iff.1 he') with rfl | hin
          · refine ⟨he, fun e'' he'' => hmin e'' ?_⟩
            exact hperm.mem_iff.2 (mem_cons_of_mem _ (h4 e'' he''))
          · exact h6 e' hin hne
    · rw [purge, if_neg hroom]
      exact Purged.refl h (.inl (by omega))

/-- Whether the cache may be purged for an entry. -/
def MayPurge (c : SAbstractCache cmp T) (dataSize : BitVec 32) (flags : CacheFlags) : Prop :=
  c.cacheSize ≠ 0 ∧ ¬ (c.cacheSize.toNat < dataSize.toNat ∧ flags.dontPurge = true)

theorem makeRoom_spec (h : Sound size c) (hsize : dataSize.toNat < 2 ^ 31) (flags : CacheFlags) :
    (MayPurge c dataSize flags ∧ Purged size c.age dataSize c (c.makeRoom size dataSize flags)) ∨
      (¬ MayPurge c dataSize flags ∧ c.makeRoom size dataSize flags = c) := by
  have hcond : c.cacheSize.toInt < dataSize.toInt ↔ c.cacheSize.toNat < dataSize.toNat := by
    rw [toInt_of_small h.limit, toInt_of_small hsize]
    exact Int.ofNat_lt
  unfold makeRoom MayPurge
  by_cases h0 : c.cacheSize = 0
  · rw [if_pos h0]
    exact .inr ⟨fun hmay => hmay.1 h0, rfl⟩
  · rw [if_neg h0]
    by_cases hdont : c.cacheSize.toNat < dataSize.toNat ∧ flags.dontPurge = true
    · rw [if_pos ⟨hcond.2 hdont.1, hdont.2⟩]
      exact .inr ⟨fun hmay => hmay.2 hdont, rfl⟩
    · rw [if_neg fun hboth => hdont ⟨hcond.1 hboth.1, hboth.2⟩]
      exact .inl ⟨⟨h0, hdont⟩, purge_spec _ c h (le_refl _)⟩

/-! ### Ages -/

/-- **The ages tell the last uses** of the entries that can be purged. -/
structure Recent (c : SAbstractCache cmp T) (lastUse : K → ℕ) (clock : ℕ) : Prop where
  aged : Aged c
  order : ∀ e ∈ c.entries.items, ∀ e' ∈ c.entries.items, ¬ e.2.IsPermanent →
    ¬ e'.2.IsPermanent → e.2.age < e'.2.age → lastUse e.1 < lastUse e'.1
  apart : ∀ e ∈ c.entries.items, ∀ e' ∈ c.entries.items, ¬ e.2.IsPermanent →
    ¬ e'.2.IsPermanent → e.2.age = e'.2.age → e.1 = e'.1
  before : ∀ e ∈ c.entries.items, lastUse e.1 < clock

variable {c' : SAbstractCache cmp T} {lastUse : K → ℕ} {clock : ℕ} {key : K}

theorem Recent.subset (h : Recent c lastUse clock) (hage : c'.age = c.age)
    (hsub : ∀ e ∈ c'.entries.items, e ∈ c.entries.items) : Recent c' lastUse clock := by
  refine ⟨⟨by rw [hage]; exact h.aged.even, fun e he hp => ?_⟩, fun e he e' he' => ?_,
    fun e he e' he' => ?_, fun e he => h.before e (hsub e he)⟩
  · rw [hage]
    exact h.aged.le e (hsub e he) hp
  · exact h.order e (hsub e he) e' (hsub e' he')
  · exact h.apart e (hsub e he) e' (hsub e' he')

theorem Recent.lt_tick (h : Recent c lastUse clock) (hfits : CacheRun.AgeFits c key)
    {e : K × CacheEntry T} (he : e ∈ c.entries.items) (hp : ¬ e.2.IsPermanent) (hkey : e.1 ≠ key) :
    e.2.age < c.age + 2 := by
  have hle := h.aged.le e he hp
  have heven := and_one_eq_zero_iff.1 h.aged.even
  have hne : c.age.toNat ≠ 0xFFFFFFFE := fun heq =>
    hkey (hfits (eq_of_toNat_eq heq) e he hp)
  rw [le_def] at hle
  rw [lt_def, toNat_add]
  have htwo : (2 : BitVec 32).toNat = 2 := rfl
  omega

section Uses

variable [DecidableEq K]

/-- **A use of a key**, with a tick for the age of its entry. -/
theorem Recent.use (h : Recent c lastUse clock) (hfits : CacheRun.AgeFits c key)
    (hage : c'.age = c.age + 2)
    (hmem : ∀ e ∈ c'.entries.items, (e.1 = key ∧ (¬ e.2.IsPermanent → e.2.age = c'.age)) ∨
      (e ∈ c.entries.items ∧ e.1 ≠ key)) :
    Recent c' (update lastUse key clock) (clock + 1) := by
  have hnew : ∀ e ∈ c'.entries.items, e.1 = key → ¬ e.2.IsPermanent → e.2.age = c'.age := by
    intro e he hkey hp
    rcases hmem e he with hcase | hcase
    · exact hcase.2 hp
    · exact absurd hkey hcase.2
  have hold : ∀ e ∈ c'.entries.items, e.1 ≠ key → e ∈ c.entries.items := by
    intro e he hkey
    rcases hmem e he with hcase | hcase
    · exact absurd hcase.1 hkey
    · exact hcase.1
  have hlt : ∀ e ∈ c'.entries.items, e.1 ≠ key → ¬ e.2.IsPermanent → e.2.age < c'.age := by
    intro e he hkey hp
    rw [hage]
    exact h.lt_tick hfits (hold e he hkey) hp hkey
  refine ⟨⟨?_, fun e he hp => ?_⟩, fun e he e' he' hp hp' hage' => ?_,
    fun e he e' he' hp hp' hage' => ?_, fun e he => ?_⟩
  · have heven := and_one_eq_zero_iff.1 h.aged.even
    rw [hage, and_one_eq_zero_iff, toNat_add]
    have htwo : (2 : BitVec 32).toNat = 2 := rfl
    omega
  · by_cases hkey : e.1 = key
    · rw [hnew e he hkey hp]
      exact BitVec.le_refl _
    · exact BitVec.le_of_lt (hlt e he hkey hp)
  · by_cases hkey : e.1 = key
    · -- the new age is not before another one
      exfalso
      rw [hnew e he hkey hp] at hage'
      by_cases hkey' : e'.1 = key
      · rw [hnew e' he' hkey' hp'] at hage'
        exact BitVec.lt_irrefl _ hage'
      · exact BitVec.lt_irrefl _ (BitVec.lt_trans hage' (hlt e' he' hkey' hp'))
    · rw [update_of_ne hkey]
      have hin := hold e he hkey
      by_cases hkey' : e'.1 = key
      · rw [hkey', update_self]
        exact h.before e hin
      · rw [update_of_ne hkey']
        exact h.order e hin e' (hold e' he' hkey') hp hp' hage'
  · by_cases hkey : e.1 = key
    · by_cases hkey' : e'.1 = key
      · rw [hkey, hkey']
      · rw [hnew e he hkey hp] at hage'
        exact absurd (hlt e' he' hkey' hp') (by rw [hage']; exact BitVec.lt_irrefl _)
    · have hin := hold e he hkey
      by_cases hkey' : e'.1 = key
      · rw [hnew e' he' hkey' hp'] at hage'
        exact absurd (hlt e he hkey hp) (by rw [hage']; exact BitVec.lt_irrefl _)
      · exact h.apart e hin e' (hold e' he' hkey') hp hp' hage'
  · by_cases hkey : e.1 = key
    · rw [hkey, update_self]
      exact lt_succ_self _
    · rw [update_of_ne hkey]
      exact lt_succ_of_lt (h.before e (hold e he hkey))

theorem Recent.touch (h : Recent c lastUse clock)
    (hkey : ∀ e ∈ c.entries.items, ¬ e.2.IsPermanent → e.1 ≠ key) :
    Recent c (update lastUse key clock) (clock + 1) := by
  refine ⟨h.aged, fun e he e' he' hp hp' hage => ?_, h.apart, fun e he => ?_⟩
  · rw [update_of_ne (hkey e he hp), update_of_ne (hkey e' he' hp')]
    exact h.order e he e' he' hp hp' hage
  · by_cases heq : e.1 = key
    · rw [heq, update_self]
      exact lt_succ_self _
    · rw [update_of_ne heq]
      exact lt_succ_of_lt (h.before e he)

end Uses

/-! ### Entries that go -/

theorem eq_of_key [Std.TransCmp cmp] {e e' : K × CacheEntry T} (he : e ∈ c.entries.items) (he' : e' ∈ c.entries.items)
    (heq : e.1 = e'.1) : e = e' :=
  inj_on_of_nodup_map c.entries.nodup_keys he he' heq

variable [Std.TransCmp cmp] [Std.LawfulEqCmp cmp]

variable (size) in
theorem total_remove (c : SAbstractCache cmp T) (key : K) :
    total size c.entries.items = ((c.entries.valueFor key).elim 0 fun e => counted size (key, e)) +
      total size (c.entries.remove key).items := by
  cases hv : c.entries.valueFor key with
  | none =>
    rw [Keyed.remove_of_none hv]
    exact (zero_add _).symm
  | some e =>
    rw [total_perm size (Keyed.perm_of_valueFor hv), total_cons]
    rfl

theorem Sound.remove (h : Sound size c) {sizeUsed : BitVec 32}
    (hused : sizeUsed.toNat = total size (c.entries.remove key).items) :
    Sound size { c with sizeUsed := sizeUsed, entries := c.entries.remove key } := by
  have hsmall := h.small
  rw [total_remove size c key] at hsmall
  exact ⟨h.limit, hused, lt_of_le_of_lt (le_add_left _ _) hsmall,
    fun e he => h.permanent e (Keyed.mem_remove.1 he).1⟩

theorem Sound.dropKeyed (h : Sound size c) (hcounted : ∀ e, c.entries.valueFor key = some e →
    e.IsPermanent → size.size e.data = 0) :
    Sound size (c.dropKeyed size key) ∧ (c.dropKeyed size key).entries = c.entries.remove key ∧
      (c.dropKeyed size key).cacheSize = c.cacheSize ∧ (c.dropKeyed size key).age = c.age := by
  have hused := h.used
  have htotal := total_remove size c key
  unfold SAbstractCache.dropKeyed
  cases hv : c.entries.valueFor key with
  | none =>
    rw [Keyed.remove_of_none hv]
    exact ⟨h, rfl, rfl, rfl⟩
  | some e =>
    refine ⟨h.remove ?_, rfl, rfl, rfl⟩
    rw [hv, Option.elim_some, counted] at htotal
    dsimp only at htotal
    by_cases hp : e.IsPermanent
    · rw [if_pos hp] at htotal
      rw [hcounted e hv hp, show c.sizeUsed - 0 = c.sizeUsed from BitVec.sub_zero _]
      omega
    · rw [if_neg hp] at htotal
      rw [toNat_sub_of_le (by rw [le_def]; omega)]
      omega

theorem Sound.abstractRemove (h : Sound size c) (key : K) :
    Sound size (c.abstractRemove size key).1 := by
  have hused := h.used
  have htotal := total_remove size c key
  unfold SAbstractCache.abstractRemove
  cases hv : c.entries.valueFor key with
  | none => exact h
  | some e =>
    refine h.remove ?_
    rw [hv, Option.elim_some, counted] at htotal
    dsimp only at htotal
    by_cases hp : e.IsPermanent
    · rw [if_pos hp] at htotal ⊢
      omega
    · rw [if_neg hp] at htotal ⊢
      rw [toNat_sub_of_le (by rw [le_def]; omega)]
      omega

end SAbstractCache

namespace CacheRun

open SAbstractCache

variable {K T : Type} [DecidableEq K] {cmp : K → K → Ordering} [Std.TransCmp cmp]
  [Std.LawfulEqCmp cmp] (size : PerformSize T)

/-- **A sound run**: the accounts, the ages, and the limit that only what is added last exceeds. -/
structure Inv (r : CacheRun cmp T) : Prop where
  sound : Sound size r.cache
  recent : Recent r.cache r.lastUse r.clock
  limit : r.cache.cacheSize = 0 ∨
    total size r.cache.entries.items ≤ r.cache.cacheSize.toNat ∨
      r.cache.cacheSize.toNat < r.lastSize

/-- **The cache accounts for its contents**, and is over its limit only for what is added last. -/
def Counted (r : CacheRun cmp T) : Prop :=
  r.cache.sizeUsed.toInt = total size r.cache.entries.items ∧
    (r.cache.cacheSize = 0 ∨ r.cache.sizeUsed.toInt ≤ r.cache.cacheSize.toInt ∨
      r.cache.cacheSize.toInt < r.lastSize)

/-- **What a call does**: a lookup finds the data and changes none. An addition puts the entry in or
leaves what there was, and evicts entries that can be purged and have been used before all of those
that stay. A removal takes one entry out. -/
def Performs (r : CacheRun cmp T) : CacheCall K T → Prop
  | .lookup key =>
    (r.cache.abstractLookup key).2 = (r.cache.entries.valueFor key).map CacheEntry.data ∧
      ∀ k, ((r.cache.abstractLookup key).1.entries.valueFor k).map CacheEntry.data =
        (r.cache.entries.valueFor k).map CacheEntry.data
  | .add key data flags created =>
    let added := r.cache.abstractAdd size key data flags created
    ((added.2 = .ok ∧ ∃ e, added.1.entries.valueFor key = some e ∧ e.data = data ∧
        (e.IsPermanent ↔ flags.neverPurge = true)) ∨
      (added.2 ≠ .ok ∧ added.1.entries.valueFor key = r.cache.entries.valueFor key)) ∧
    (∀ e ∈ added.1.entries.items, e.1 ≠ key → e ∈ r.cache.entries.items) ∧
    ∀ e ∈ r.cache.entries.items, e.1 ≠ key → e ∉ added.1.entries.items → ¬ e.2.IsPermanent ∧
      ∀ e' ∈ added.1.entries.items, ¬ e'.2.IsPermanent → r.lastUse e.1 < r.use key e'.1
  | .remove key =>
    (r.cache.abstractRemove size key).2 = r.cache.entries.has key ∧
      ∀ k, (r.cache.abstractRemove size key).1.entries.valueFor k =
        if k = key then none else r.cache.entries.valueFor k

variable {size} {r : CacheRun cmp T} {key : K} {data : T} {flags : CacheFlags} {created : Bool}

omit [DecidableEq K] [Std.TransCmp cmp] [Std.LawfulEqCmp cmp] in
theorem Inv.counted (h : Inv size r) : Counted size r := by
  have hused : r.cache.sizeUsed.toInt = total size r.cache.entries.items := by
    rw [toInt_of_small (by rw [h.sound.used]; exact h.sound.small), h.sound.used]
  refine ⟨hused, h.limit.imp_right fun hlimit => ?_⟩
  rw [hused, toInt_of_small h.sound.limit]
  omega

omit [DecidableEq K] [Std.TransCmp cmp] [Std.LawfulEqCmp cmp] in
theorem Inv.start (limit : SizeLimit) : Inv size (CacheRun.start limit : CacheRun cmp T) where
  sound := ⟨limit.nonneg, rfl, Nat.two_pow_pos 31, nofun⟩
  recent := ⟨⟨(by decide : (0 : BitVec 32) &&& 1 = 0), nofun⟩, nofun, nofun, nofun⟩
  limit := .inr (.inl (zero_le _))

/-! ### Additions -/

omit [DecidableEq K] [Std.TransCmp cmp] [Std.LawfulEqCmp cmp] in
theorem dataSize_lt (data : T) (flags : CacheFlags) :
    (dataSize size data flags).toNat < 2 ^ 31 := by
  unfold dataSize
  split
  · exact Nat.two_pow_pos 31
  · exact size.nonneg data

variable (size) in
/-- **Room for an entry**: the cache that it is added to, without that of its key. -/
structure Room (r : CacheRun cmp T) (key : K) (dataSize : BitVec 32) (flags : CacheFlags)
    (c : SAbstractCache cmp T) : Prop where
  sound : Sound size c
  cacheSize : c.cacheSize = r.cache.cacheSize
  age : c.age = r.cache.age + 2
  subset : ∀ e ∈ c.entries.items, e ∈ r.cache.entries.items ∧ e.1 ≠ key
  total_le : total size c.entries.items ≤ total size r.cache.entries.items
  lowest : ∀ e ∈ r.cache.entries.items, e.1 ≠ key → e ∉ c.entries.items →
    ¬ e.2.IsPermanent ∧ ∀ e' ∈ c.entries.items, ¬ e'.2.age < e.2.age
  purged : MayPurge r.cache dataSize flags →
    total size c.entries.items + dataSize.toNat ≤ c.cacheSize.toNat ∨
      total size c.entries.items = 0
  kept : ¬ MayPurge r.cache dataSize flags →
    total size c.entries.items = (r.cache.dropKeyed size key).sizeUsed.toNat

omit [DecidableEq K] in
theorem Inv.room (h : Inv size r) (ho : AddFits size r.cache key data flags created) :
    Room size r key (dataSize size data flags) flags
      ((r.cache.dropKeyed size key).tick.makeRoom size (dataSize size data flags) flags) := by
  obtain ⟨hsound, hentries, hsize, hage⟩ := h.sound.dropKeyed ho.counted
  set c := r.cache.dropKeyed size key with hc
  have htick : Sound size c.tick := ⟨hsound.limit, hsound.used, hsound.small, hsound.permanent⟩
  have hmem : ∀ e, e ∈ c.tick.entries.items ↔ e ∈ r.cache.entries.items ∧ e.1 ≠ key := by
    intro e
    show e ∈ c.entries.items ↔ _
    rw [hentries]
    exact Keyed.mem_remove
  have hle : total size c.entries.items ≤ total size r.cache.entries.items := by
    rw [hentries, total_remove size r.cache key]
    exact le_add_left _ _
  have hmay : MayPurge c.tick (dataSize size data flags) flags ↔
      MayPurge r.cache (dataSize size data flags) flags := by
    unfold MayPurge
    rw [show c.tick.cacheSize = r.cache.cacheSize from hsize]
  rcases makeRoom_spec htick (dataSize_lt data flags) flags with ⟨hm, hp⟩ | ⟨hm, heq⟩
  · rw [hmay] at hm
    refine ⟨hp.sound, hp.cacheSize.trans hsize, hp.age_eq.trans (by rw [tick, hage]), fun e he => ?_,
      hp.total_le.trans hle, fun e he hkey hne => ?_, fun _ => ?_, fun hnot => absurd hm hnot⟩
    · exact (hmem e).1 (hp.subset e he)
    · exact hp.lowest e ((hmem e).2 ⟨he, hkey⟩) hne
    · rcases hp.room with hroom | hroom
      · left
        rw [hp.sound.sizeLeft_eq, toInt_of_small (dataSize_lt data flags)] at hroom
        omega
      · right
        refine total_eq_zero size fun e he => ?_
        -- an entry that can be purged is older than the tick
        by_contra hperm
        obtain ⟨hin, hkey⟩ := (hmem e).1 (hp.subset e he)
        refine hroom e he ?_
        rw [tick, hage]
        exact h.recent.lt_tick ho.age hin hperm hkey
  · rw [hmay] at hm
    rw [heq]
    refine ⟨htick, hsize, by rw [tick, hage], fun e he => (hmem e).1 he, hle,
      fun e he hkey hne => absurd ((hmem e).2 ⟨he, hkey⟩) hne, fun hnot => absurd hnot hm,
      fun _ => hsound.used.symm⟩

omit [DecidableEq K] [Std.TransCmp cmp] [Std.LawfulEqCmp cmp] in
/-- **Where it may be purged**, there is room for an entry that is not larger than the cache. -/
theorem Room.sizeLeft {c : SAbstractCache cmp T} {dataSize : BitVec 32}
    (h : Room size r key dataSize flags c) (hmay : MayPurge r.cache dataSize flags)
    (hle : dataSize.toNat ≤ c.cacheSize.toNat) : (dataSize.toNat : ℤ) ≤ c.sizeLeft := by
  rw [h.sound.sizeLeft_eq]
  rcases h.purged hmay with hroom | hnone
  · omega
  · omega

variable (size) in
omit [DecidableEq K] in
theorem abstractAdd_eq (c : SAbstractCache cmp T) (key : K) (data : T) (flags : CacheFlags)
    (created : Bool) :
    c.abstractAdd size key data flags created =
      let room := (c.dropKeyed size key).tick.makeRoom size (dataSize size data flags) flags
      if flags.dontAdd = true ∧ room.sizeLeft < (dataSize size data flags).toInt then
        (room, .noMemory)
      else if created then
        ({ room with
            entries := room.entries.add key
              ⟨if flags.neverPurge then 0xFFFFFFFF#32 else (c.dropKeyed size key).tick.age, data⟩
            sizeUsed := room.sizeUsed + dataSize size data flags }, .ok)
      else (room, .failed) := rfl

omit [DecidableEq K] [Std.TransCmp cmp] [Std.LawfulEqCmp cmp] in
/-- **The entry that is added** fits, as what is counted stays within the counter. -/
theorem Room.fits {c : SAbstractCache cmp T}
    (h : Room size r key (dataSize size data flags) flags c)
    (ho : AddFits size r.cache key data flags created) (hcreated : created = true)
    (hroom : ¬ (flags.dontAdd = true ∧ c.sizeLeft < (dataSize size data flags).toInt)) :
    total size c.entries.items + (dataSize size data flags).toNat < 2 ^ 31 ∧
      (c.cacheSize = 0 ∨
        total size c.entries.items + (dataSize size data flags).toNat ≤ c.cacheSize.toNat ∨
          c.cacheSize.toNat < (dataSize size data flags).toNat) := by
  have hlimit := h.sound.limit
  have hsize : (dataSize size data flags).toNat < 2 ^ 31 := dataSize_lt data flags
  have hmayeq : MayPurge r.cache (dataSize size data flags) flags ↔ c.cacheSize ≠ 0 ∧
      ¬ (c.cacheSize.toNat < (dataSize size data flags).toNat ∧ flags.dontPurge = true) := by
    unfold MayPurge
    rw [h.cacheSize]
  by_cases hdont : flags.dontAdd = true
  · -- it is added where there is room
    have hleft : (dataSize size data flags).toInt ≤ c.sizeLeft := by
      by_contra hlt
      exact hroom ⟨hdont, by omega⟩
    rw [toInt_of_small hsize, h.sound.sizeLeft_eq] at hleft
    omega
  · by_cases hmay : MayPurge r.cache (dataSize size data flags) flags
    · rcases h.purged hmay with hfit | hnone
      · omega
      · omega
    · have hwhole : c.cacheSize = 0 ∨ c.cacheSize.toNat < (dataSize size data flags).toNat ∧
          flags.dontPurge = true := by
        rw [hmayeq] at hmay
        tauto
      have hfit := ho.used (by rw [← h.cacheSize]; exact hwhole) (by simpa using hdont) hcreated
      rw [← h.kept hmay] at hfit
      exact ⟨hfit, hwhole.imp_right fun hlarge => .inr hlarge.1⟩

omit [DecidableEq K] [Std.LawfulEqCmp cmp] in
theorem Room.evicted {c : SAbstractCache cmp T} {dataSize : BitVec 32}
    (h : Room size r key dataSize flags c) (hinv : Inv size r) {e : K × CacheEntry T}
    (he : e ∈ r.cache.entries.items) (hkey : e.1 ≠ key) (hne : e ∉ c.entries.items) :
    ¬ e.2.IsPermanent ∧ ∀ e' ∈ c.entries.items, ¬ e'.2.IsPermanent →
      r.lastUse e.1 < r.lastUse e'.1 := by
  obtain ⟨hp, hlow⟩ := h.lowest e he hkey hne
  refine ⟨hp, fun e' he' hp' => ?_⟩
  have hin := (h.subset e' he').1
  refine hinv.recent.order e he e' hin hp hp' ?_
  have hage := hlow e' he'
  rw [lt_def] at hage ⊢
  by_contra hnot
  -- equal ages are those of one entry
  have heq := eq_of_key he hin
    (hinv.recent.apart e he e' hin hp hp' (eq_of_toNat_eq (by omega)))
  exact hne (heq ▸ he')

omit [DecidableEq K] in
theorem Room.absent {c : SAbstractCache cmp T}
    (h : Room size r key (dataSize size data flags) flags c)
    (ho : AddFits size r.cache key data flags created)
    (hnot : created = false ∨ flags.dontAdd = true ∧ c.sizeLeft < (dataSize size data flags).toInt) :
    c.entries.valueFor key = r.cache.entries.valueFor key := by
  have hnone : c.entries.valueFor key = none :=
    Keyed.valueFor_eq_none.2 fun e he => (h.subset e he).2
  rw [hnone, eq_comm, ← Keyed.has_eq_false]
  by_contra hhas
  obtain ⟨hcreated, hdont⟩ := ho.stored (by simpa using hhas)
  have hsize : (dataSize size data flags).toNat < 2 ^ 31 := dataSize_lt data flags
  rcases hnot with hfail | ⟨hflag, hleft⟩
  · rw [hcreated] at hfail
    cases hfail
  · have hroom := hdont hflag
    rw [toInt_of_small hsize] at hleft
    by_cases h0 : r.cache.cacheSize = 0
    · rw [if_pos h0] at hroom
      have hkept := h.kept fun hmay => hmay.1 h0
      rw [h.sound.sizeLeft_eq, h.cacheSize, h0] at hleft
      omega
    · rw [if_neg h0] at hroom
      have hle := h.sizeLeft ⟨h0, by omega⟩ (by rw [h.cacheSize]; exact hroom)
      omega

omit [Std.TransCmp cmp] [Std.LawfulEqCmp cmp] in
theorem Room.inv {c : SAbstractCache cmp T} {dataSize : BitVec 32}
    (h : Room size r key dataSize flags c) (hinv : Inv size r) (hfits : AgeFits r.cache key) :
    Inv size ⟨c, r.use key, r.clock + 1, r.lastSize⟩ where
  sound := h.sound
  recent := hinv.recent.use hfits h.age fun e he => .inr (h.subset e he)
  limit := by
    have hle := h.total_le
    dsimp only
    rw [h.cacheSize]
    rcases hinv.limit with h0 | hfit | hlarge
    · exact .inl h0
    · exact .inr (.inl (by omega))
    · exact .inr (.inr hlarge)

theorem isPermanent_added {age : BitVec 32} (heven : age &&& 1 = 0) (data : T) (flags : CacheFlags) :
    (CacheEntry.mk (if flags.neverPurge then 0xFFFFFFFF#32 else age) data).IsPermanent ↔
      flags.neverPurge = true := by
  unfold CacheEntry.IsPermanent
  cases flags.neverPurge with
  | false => simpa using heven
  | true => simp

theorem Room.inv_added {c : SAbstractCache cmp T}
    (h : Room size r key (dataSize size data flags) flags c) (hinv : Inv size r)
    (ho : AddFits size r.cache key data flags created) (hcreated : created = true)
    (hroom : ¬ (flags.dontAdd = true ∧ c.sizeLeft < (dataSize size data flags).toInt)) :
    Inv size ⟨{ c with
        entries := c.entries.add key
          ⟨if flags.neverPurge then 0xFFFFFFFF#32 else r.cache.age + 2, data⟩
        sizeUsed := c.sizeUsed + dataSize size data flags },
      r.use key, r.clock + 1, (dataSize size data flags).toNat⟩ := by
  obtain ⟨hsmall, hlimit⟩ := h.fits ho hcreated hroom
  have heven : (r.cache.age + 2) &&& 1 = 0 := by
    rw [← h.age]
    exact (hinv.recent.use ho.age h.age fun e he => .inr (h.subset e he)).aged.even
  set entry : CacheEntry T :=
    ⟨if flags.neverPurge then 0xFFFFFFFF#32 else r.cache.age + 2, data⟩ with hentry
  have hperm : entry.IsPermanent ↔ flags.neverPurge = true := isPermanent_added heven data flags
  have hcount : SAbstractCache.counted size (key, entry) = (dataSize size data flags).toNat := by
    unfold SAbstractCache.counted dataSize
    by_cases hp : flags.neverPurge = true
    · rw [if_pos (hperm.2 hp), if_pos hp]
      rfl
    · rw [if_neg fun hpe => hp (hperm.1 hpe), if_neg hp]
  have htotal : total size (c.entries.add key entry).items =
      (dataSize size data flags).toNat + total size c.entries.items := by
    rw [total_perm size (Keyed.perm_add c.entries key entry), total_cons, hcount,
      Keyed.remove_of_none (Keyed.valueFor_eq_none.2 fun e he => (h.subset e he).2)]
  constructor
  · refine ⟨h.sound.limit, ?_, ?_, fun e he hp => ?_⟩
    · show (c.sizeUsed + dataSize size data flags).toNat = total size (c.entries.add key entry).items
      rw [toNat_add, h.sound.used, htotal, mod_eq_of_lt (by omega), add_comm]
    · show total size (c.entries.add key entry).items < 2 ^ 31
      omega
    · rcases Keyed.mem_add.1 he with rfl | ⟨hin, -⟩
      · rw [hentry]
        exact if_pos (hperm.1 hp)
      · exact h.sound.permanent e hin hp
  · refine hinv.recent.use ho.age h.age fun e he => ?_
    rcases Keyed.mem_add.1 he with rfl | ⟨hin, -⟩
    · refine .inl ⟨rfl, fun hp => ?_⟩
      rw [hentry]
      exact (if_neg fun hn => hp (hperm.2 hn)).trans h.age.symm
    · exact .inr (h.subset e hin)
  · show c.cacheSize = 0 ∨ total size (c.entries.add key entry).items ≤ c.cacheSize.toNat ∨ _
    rw [htotal, add_comm]
    exact hlimit

variable {r' : CacheRun cmp T}

theorem Inv.add (h : Inv size r) (ho : AddFits size r.cache key data flags created)
    (hs : r.step size (.add key data flags created) = some r') : Inv size r' := by
  have hr := h.room ho
  have hdrop : (r.cache.dropKeyed size key).tick.age = r.cache.age + 2 := by
    rw [tick, (h.sound.dropKeyed ho.counted).2.2.2]
  have hadd := abstractAdd_eq size r.cache key data flags created
  rw [hdrop] at hadd
  obtain ⟨⟩ := hs
  rw [hadd]
  by_cases hroom : flags.dontAdd = true ∧
      ((r.cache.dropKeyed size key).tick.makeRoom size (dataSize size data flags) flags).sizeLeft <
        (dataSize size data flags).toInt
  · rw [if_pos hroom]
    exact hr.inv h ho.age
  · rw [if_neg hroom]
    cases hcreated : created with
    | false => exact hr.inv h ho.age
    | true => exact hr.inv_added h ho hcreated hroom

theorem Inv.performs_add (h : Inv size r) (ho : AddFits size r.cache key data flags created) :
    Performs size r (.add key data flags created) := by
  have hr := h.room ho
  have hdrop : (r.cache.dropKeyed size key).tick.age = r.cache.age + 2 := by
    rw [tick, (h.sound.dropKeyed ho.counted).2.2.2]
  have hadd := abstractAdd_eq size r.cache key data flags created
  rw [hdrop] at hadd
  set c := (r.cache.dropKeyed size key).tick.makeRoom size (dataSize size data flags) flags with hc
  have hstay : ∀ e ∈ c.entries.items, r.use key e.1 = r.lastUse e.1 := fun e he =>
    update_of_ne (hr.subset e he).2 _ _
  simp only [Performs, hadd]
  by_cases hroom : flags.dontAdd = true ∧ c.sizeLeft < (dataSize size data flags).toInt
  · rw [if_pos hroom]
    refine ⟨.inr ⟨nofun, hr.absent ho (.inr hroom)⟩, fun e he _ => (hr.subset e he).1,
      fun e he hkey hne => ?_⟩
    obtain ⟨hp, hold⟩ := hr.evicted h he hkey hne
    exact ⟨hp, fun e' he' hp' => by rw [hstay e' he']; exact hold e' he' hp'⟩
  · rw [if_neg hroom]
    cases hcreated : created with
    | false =>
      refine ⟨.inr ⟨nofun, hr.absent ho (.inl hcreated)⟩, fun e he _ => (hr.subset e he).1,
        fun e he hkey hne => ?_⟩
      obtain ⟨hp, hold⟩ := hr.evicted h he hkey hne
      exact ⟨hp, fun e' he' hp' => by rw [hstay e' he']; exact hold e' he' hp'⟩
    | true =>
      have heven : (r.cache.age + 2) &&& 1 = 0 := by
        rw [← hr.age]
        exact (h.recent.use ho.age hr.age fun e he => .inr (hr.subset e he)).aged.even
      refine ⟨.inl ⟨rfl, _, ?_, rfl, isPermanent_added heven data flags⟩, fun e he hkey => ?_,
        fun e he hkey hne => ?_⟩
      · rw [if_pos rfl, Keyed.valueFor_add, if_pos rfl]
      · rcases Keyed.mem_add.1 he with rfl | ⟨hin, -⟩
        · exact absurd rfl hkey
        · exact (hr.subset e hin).1
      · have hgone : e ∉ c.entries.items := fun hin => hne (Keyed.mem_add.2 (.inr ⟨hin, hkey⟩))
        obtain ⟨hp, hold⟩ := hr.evicted h he hkey hgone
        refine ⟨hp, fun e' he' hp' => ?_⟩
        rcases Keyed.mem_add.1 he' with rfl | ⟨hin, -⟩
        · unfold CacheRun.use
          rw [update_self]
          exact h.recent.before e he
        · rw [hstay e' hin]
          exact hold e' hin hp'

/-! ### Runs -/

theorem Inv.lookup (h : Inv size r) (ho : Observes size r (.lookup key : CacheCall K T))
 (hs : r.step size (.lookup key) = some r') : Inv size r' := by
  obtain ⟨⟩ := hs
  unfold abstractLookup
  cases hv : r.cache.entries.valueFor key with
  | none =>
    refine ⟨h.sound, h.recent.touch fun e he _ => ?_, h.limit⟩
    exact Keyed.valueFor_eq_none.1 hv e he
  | some e =>
    have hin := Keyed.valueFor_eq_some.1 hv
    dsimp only
    by_cases hp : e.IsPermanent
    · rw [if_pos hp]
      refine ⟨h.sound, h.recent.touch fun e' he' hp' hkey => hp' ?_, h.limit⟩
      obtain rfl := eq_of_key he' hin hkey
      exact hp
    · rw [if_neg hp]
      have hfits := ho ⟨e, hv, hp⟩
      have hrecent : Recent { r.cache.tick with
            entries := r.cache.entries.add key { e with age := r.cache.tick.age } }
          (r.use key) (r.clock + 1) := by
        refine h.recent.use hfits rfl fun e' he' => ?_
        rcases Keyed.mem_add.1 he' with rfl | ⟨hin', hkey⟩
        · exact .inl ⟨rfl, fun _ => rfl⟩
        · exact .inr ⟨hin', hkey⟩
      have hnew : ¬ CacheEntry.IsPermanent { e with age := r.cache.tick.age } :=
        not_not.2 hrecent.aged.even
      have htotal : total size (r.cache.entries.add key { e with age := r.cache.tick.age }).items =
          total size r.cache.entries.items := by
        rw [total_perm size (Keyed.perm_add _ _ _), total_perm size (Keyed.perm_of_valueFor hv),
          total_cons, total_cons, SAbstractCache.counted, SAbstractCache.counted, if_neg hnew,
          if_neg hp]
      refine ⟨⟨h.sound.limit, ?_, ?_, fun e' he' hp' => ?_⟩, hrecent, ?_⟩
      · exact h.sound.used.trans htotal.symm
      · exact htotal.trans_lt h.sound.small
      · rcases Keyed.mem_add.1 he' with rfl | ⟨hin', -⟩
        · exact absurd hp' hnew
        · exact h.sound.permanent e' hin' hp'
      · dsimp only
        rw [htotal]
        exact h.limit

theorem performs_lookup (r : CacheRun cmp T) (key : K) :
    Performs size r (.lookup key : CacheCall K T) := by
  simp only [Performs, abstractLookup]
  cases hv : r.cache.entries.valueFor key with
  | none => exact ⟨rfl, fun _ => rfl⟩
  | some e =>
    dsimp only
    by_cases hp : e.IsPermanent
    · rw [if_pos hp]
      exact ⟨rfl, fun _ => rfl⟩
    · rw [if_neg hp]
      refine ⟨rfl, fun k => ?_⟩
      rw [Keyed.valueFor_add]
      by_cases hk : k = key
      · rw [if_pos hk, hk, hv]
        rfl
      · rw [if_neg hk]

theorem Inv.remove (h : Inv size r) (hs : r.step size (.remove key : CacheCall K T) = some r') :
    Inv size r' := by
  obtain ⟨⟩ := hs
  have hsound := h.sound.abstractRemove key
  have hcases : (r.cache.abstractRemove size key).1.cacheSize = r.cache.cacheSize ∧
      (r.cache.abstractRemove size key).1.age = r.cache.age ∧
      (r.cache.abstractRemove size key).1.entries = r.cache.entries.remove key := by
    unfold abstractRemove
    cases hv : r.cache.entries.valueFor key with
    | none => exact ⟨rfl, rfl, (Keyed.remove_of_none hv).symm⟩
    | some e => exact ⟨rfl, rfl, rfl⟩
  obtain ⟨hsize, hage, hentries⟩ := hcases
  refine ⟨hsound, h.recent.subset hage fun e he => ?_, ?_⟩
  · dsimp only at he
    rw [hentries] at he
    exact (Keyed.mem_remove.1 he).1
  · have hle := total_remove size r.cache key
    rw [hsize, hentries]
    rcases h.limit with h0 | hfit | hlarge
    · exact .inl h0
    · exact .inr (.inl (by omega))
    · exact .inr (.inr hlarge)

theorem performs_remove (r : CacheRun cmp T) (key : K) :
    Performs size r (.remove key : CacheCall K T) := by
  simp only [Performs, abstractRemove]
  cases hv : r.cache.entries.valueFor key with
  | none =>
    refine ⟨(Keyed.has_eq_false.2 hv).symm, fun k => ?_⟩
    by_cases hk : k = key
    · rw [if_pos hk, hk, hv]
    · rw [if_neg hk]
  | some e => exact ⟨(Keyed.has_iff.2 ⟨e, hv⟩).symm, fun k => Keyed.valueFor_remove _ _ _⟩

/-- **A step that observes** does what it should, and keeps the run sound. -/
theorem Inv.step (h : Inv size r) {call : CacheCall K T} (ho : Observes size r call) :
    Performs size r call ∧ ∀ r', r.step size call = some r' → Inv size r' := by
  cases call with
  | lookup key => exact ⟨performs_lookup r key, fun _ hs => h.lookup ho hs⟩
  | add key data flags created => exact ⟨h.performs_add ho, fun _ hs => h.add ho hs⟩
  | remove key => exact ⟨performs_remove r key, fun _ hs => h.remove hs⟩

/-- **A cache accounts for its contents** in every state, and every call does what it should, in
every run whose calls are right. -/
theorem cache_run (limit : SizeLimit) (calls : List (CacheCall K T))
    (h : AllSteps (CacheRun.step size) (Observes size) (start limit : CacheRun cmp T) calls) :
    AllStates (CacheRun.step size) (Counted size) (start limit : CacheRun cmp T) calls ∧
      AllSteps (CacheRun.step size) (Performs size) (start limit : CacheRun cmp T) calls := by
  have hstart : Inv size (start limit : CacheRun cmp T) := Inv.start limit
  constructor
  · refine AllStates.imp (fun _ hinv => Inv.counted hinv) calls _ ?_
    exact AllSteps.states (fun _ _ _ hinv hs ho => (hinv.step ho).2 _ hs) calls _ hstart h
  · refine AllSteps.imp (fun _ _ _ hinv hs ho => ?_) calls _ hstart h
    exact ⟨(hinv.step ho).1, (hinv.step ho).2 _ hs⟩

/-! ### A cache of bytes -/

/-- Data that are their own size. -/
def byteSize : PerformSize (BitVec 8) where
  size t := t.setWidth 32
  nonneg t := by
    rw [toNat_setWidth]
    have hlt := t.isLt
    omega

/-- Two entries, the second of which takes the room of the first. -/
theorem cache_run_evicts :
    AllStates (CacheRun.step byteSize) (Counted byteSize)
      (start ⟨10, by decide⟩ : CacheRun (compare : ℕ → ℕ → Ordering) (BitVec 8))
      [.add 1 8 ⟨false, false, false⟩ true, .add 2 5 ⟨false, false, false⟩ true, .lookup 2] ∧
    AllSteps (CacheRun.step byteSize) (Performs byteSize)
      (start ⟨10, by decide⟩ : CacheRun (compare : ℕ → ℕ → Ordering) (BitVec 8))
      [.add 1 8 ⟨false, false, false⟩ true, .add 2 5 ⟨false, false, false⟩ true, .lookup 2] := by
  apply cache_run
  refine .cons rfl ⟨nofun, ?_, ?_, ?_⟩ (.cons rfl ⟨nofun, ?_, ?_, ?_⟩ (.cons rfl ?_ trivial))
  · exact fun h => absurd h (by decide)
  · exact fun h => absurd h (by decide)
  · exact fun h => absurd h (by decide)
  · exact fun h => absurd h (by decide)
  · exact fun h => absurd h (by decide)
  · exact fun h => absurd h (by decide)
  · exact fun _ h => absurd h (by decide)

/-- A permanent entry is not counted, and its size is taken off when it is replaced. -/
theorem permanent_not_counted :
    ¬ AllStates (CacheRun.step byteSize) (Counted byteSize)
      (start ⟨10, by decide⟩ : CacheRun (compare : ℕ → ℕ → Ordering) (BitVec 8))
      [.add 1 5 ⟨true, false, false⟩ true, .add 1 5 ⟨true, false, false⟩ true] := by
  intro h
  have hlast := h.last (rfl : run _ _ _ = some _)
  exact absurd hlast.1 (by decide)

end CacheRun

end OpenBinder
