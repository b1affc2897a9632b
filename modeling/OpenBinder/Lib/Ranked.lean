import Mathlib.Data.Finset.Max

/-!
# Finite sets and maps by rank

Finite sets of a linear order, finite maps from them, and the lists that hold their keys in order.
The rank of a key is how many keys of the set are less.

* `IsFloor`, `IsCeil`: the nearest key at most and at least as great, or the first and the last one.
* `FiniteMap`: a finite map, with what is added, removed, and removed by rank.
* `Listed`: the list of a set, in order. `Listed.insert`, `Listed.erase`, `Listed.removeRange`: what
  is done to the list for what is done to the set.
-/

namespace OpenBinder.Lib

open List

variable {K V : Type*} [LinearOrder K]

/-- How many keys are less. -/
def rank (keys : Finset K) (a : K) : ℕ := (keys.filter (· < a)).card

/-- The keys but those with some ranks. -/
def removeRange (keys : Finset K) (index count : ℕ) : Finset K :=
  keys.filter fun a => ¬(index ≤ rank keys a ∧ rank keys a < index + count)

/-- **The greatest key** that is not greater, or the first one if all are. -/
def IsFloor (keys : Finset K) (a f : K) : Prop :=
  IsGreatest {b | b ∈ keys ∧ b ≤ a} f ∨ (∀ b ∈ keys, a < b) ∧ IsLeast {b | b ∈ keys} f

/-- **The least key** that is not less, or the last one if all are. -/
def IsCeil (keys : Finset K) (a f : K) : Prop :=
  IsLeast {b | b ∈ keys ∧ a ≤ b} f ∨ (∀ b ∈ keys, b < a) ∧ IsGreatest {b | b ∈ keys} f

/-- A finite map. -/
structure FiniteMap (K V : Type*) where
  keys : Finset K
  value : K → V

namespace FiniteMap

def empty [Inhabited V] : FiniteMap K V := ⟨∅, fun _ => default⟩

def insert (m : FiniteMap K V) (a : K) (v : V) : FiniteMap K V :=
  ⟨Insert.insert a m.keys, Function.update m.value a v⟩

def erase (m : FiniteMap K V) (a : K) : FiniteMap K V := ⟨m.keys.erase a, m.value⟩

/-- The entries but those with some ranks. -/
def removeRange (m : FiniteMap K V) (index count : ℕ) : FiniteMap K V :=
  ⟨Lib.removeRange m.keys index count, m.value⟩

end FiniteMap

/-! ### The nearest keys -/

variable {keys : Finset K} {a b f : K}

theorem exists_isFloor (h : keys.Nonempty) (a : K) : ∃ f, IsFloor keys a f := by
  by_cases hle : (keys.filter (· ≤ a)).Nonempty
  · have hmax := Finset.isGreatest_max' _ hle
    rw [Finset.coe_filter] at hmax
    exact ⟨_, .inl hmax⟩
  · refine ⟨_, .inr ⟨fun b hb => ?_, Finset.isLeast_min' keys h⟩⟩
    exact not_le.1 fun hba => hle ⟨b, Finset.mem_filter.2 ⟨hb, hba⟩⟩

theorem exists_isCeil (h : keys.Nonempty) (a : K) : ∃ f, IsCeil keys a f := by
  by_cases hge : (keys.filter (a ≤ ·)).Nonempty
  · have hmin := Finset.isLeast_min' _ hge
    rw [Finset.coe_filter] at hmin
    exact ⟨_, .inl hmin⟩
  · refine ⟨_, .inr ⟨fun b hb => ?_, Finset.isGreatest_max' keys h⟩⟩
    exact not_le.1 fun hab => hge ⟨b, Finset.mem_filter.2 ⟨hb, hab⟩⟩

theorem IsFloor.mem (h : IsFloor keys a f) : f ∈ keys := by
  rcases h with ⟨⟨hmem, -⟩, -⟩ | ⟨-, hmem, -⟩
  · exact hmem
  · exact hmem

theorem IsCeil.mem (h : IsCeil keys a f) : f ∈ keys := by
  rcases h with ⟨⟨hmem, -⟩, -⟩ | ⟨-, hmem, -⟩
  · exact hmem
  · exact hmem

theorem IsFloor.eq_of_mem (ha : a ∈ keys) (h : IsFloor keys a f) : f = a := by
  rcases h with ⟨⟨-, hle⟩, hmax⟩ | ⟨hall, -⟩
  · exact le_antisymm hle (hmax ⟨ha, le_rfl⟩)
  · exact absurd (hall a ha) (lt_irrefl a)

theorem IsCeil.eq_of_mem (ha : a ∈ keys) (h : IsCeil keys a f) : f = a := by
  rcases h with ⟨⟨-, hle⟩, hmin⟩ | ⟨hall, -⟩
  · exact le_antisymm (hmin ⟨ha, le_rfl⟩) hle
  · exact absurd (hall a ha) (lt_irrefl a)

/-! ### The list of a set -/

/-- **The list has the keys**, in order. -/
structure Listed (l : List K) (keys : Finset K) : Prop where
  sorted : l.Pairwise (· < ·)
  mem : ∀ a, a ∈ l ↔ a ∈ keys

variable {l x y : List K}

namespace Listed

theorem nil : Listed ([] : List K) ∅ := ⟨.nil, fun a => by simp⟩

theorem nodup (h : Listed l keys) : l.Nodup := h.sorted.imp fun hab => ne_of_lt hab

theorem parts (h : Listed (x ++ a :: y) keys) : (∀ b ∈ x, b < a) ∧ ∀ b ∈ y, a < b := by
  obtain ⟨-, hy, hxy⟩ := pairwise_append.1 h.sorted
  exact ⟨fun b hb => hxy b hb a mem_cons_self, (pairwise_cons.1 hy).1⟩

/-- **The rank is the place** in the list. -/
theorem rank_eq (h : Listed (x ++ y) keys) (hx : ∀ b ∈ x, b < a) (hy : ∀ b ∈ y, a ≤ b) :
    rank keys a = x.length := by
  have hfilter : keys.filter (· < a) = x.toFinset := by
    ext b
    rw [Finset.mem_filter, ← h.mem, mem_append, mem_toFinset]
    constructor
    · rintro ⟨hb | hb, hlt⟩
      · exact hb
      · exact absurd hlt (not_lt.2 (hy b hb))
    · exact fun hb => ⟨.inl hb, hx b hb⟩
  rw [rank, hfilter, toFinset_card_of_nodup (nodup_append.1 h.nodup).1]

theorem rank_mid (h : Listed (x ++ a :: y) keys) : rank keys a = x.length := by
  obtain ⟨hx, hy⟩ := h.parts
  refine h.rank_eq hx fun b hb => ?_
  rcases mem_cons.1 hb with rfl | hb
  · exact le_rfl
  · exact (hy b hb).le

/-- **A key is put between two.** -/
theorem insert (h : Listed (x ++ y) keys) (hx : ∀ b ∈ x, b < a) (hy : ∀ b ∈ y, a < b) :
    Listed (x ++ a :: y) (insert a keys) := by
  obtain ⟨hsx, hsy, hxy⟩ := pairwise_append.1 h.sorted
  constructor
  · refine pairwise_append.2 ⟨hsx, pairwise_cons.2 ⟨hy, hsy⟩, fun b hb c hc => ?_⟩
    rcases mem_cons.1 hc with rfl | hc
    · exact hx b hb
    · exact hxy b hb c hc
  · intro b
    rw [Finset.mem_insert, ← h.mem, mem_append, mem_cons, mem_append]
    tauto

theorem erase (h : Listed (x ++ a :: y) keys) : Listed (x ++ y) (keys.erase a) := by
  obtain ⟨hx, hy⟩ := h.parts
  constructor
  · exact h.sorted.sublist ((List.Sublist.refl x).append (sublist_cons_self a y))
  · intro b
    rw [Finset.mem_erase, ← h.mem, mem_append, mem_append, mem_cons]
    constructor
    · rintro (hb | hb)
      · exact ⟨(hx b hb).ne, .inl hb⟩
      · exact ⟨(hy b hb).ne', .inr (.inr hb)⟩
    · rintro ⟨hne, hb | rfl | hb⟩
      · exact .inl hb
      · exact absurd rfl hne
      · exact .inr hb

omit [LinearOrder K] in
/-- A key that is once in a list is in front of a place by how many are in front of it. -/
theorem mem_take_iff (hnd : (x ++ a :: y).Nodup) (n : ℕ) :
    a ∈ (x ++ a :: y).take n ↔ x.length < n := by
  have hax : a ∉ x := fun hmem =>
    (nodup_append.1 hnd).2.2 a hmem a mem_cons_self rfl
  rcases Nat.lt_or_ge x.length n with hn | hn
  · obtain ⟨k, rfl⟩ : ∃ k, n = x.length + (k + 1) := ⟨n - x.length - 1, by omega⟩
    rw [take_length_add_append, take_succ_cons]
    exact iff_of_true (by simp) hn
  · rw [take_append_of_le_length hn]
    exact iff_of_false (fun hmem => hax (mem_of_mem_take hmem)) (by omega)

omit [LinearOrder K] in
theorem mem_drop_iff (hnd : (x ++ a :: y).Nodup) (n : ℕ) :
    a ∈ (x ++ a :: y).drop n ↔ n ≤ x.length := by
  have hay : a ∉ y := (nodup_cons.1 (nodup_append.1 hnd).2.1).1
  rcases Nat.lt_or_ge x.length n with hn | hn
  · obtain ⟨k, rfl⟩ : ∃ k, n = x.length + (k + 1) := ⟨n - x.length - 1, by omega⟩
    rw [drop_length_add_append, drop_succ_cons]
    exact iff_of_false (fun hmem => hay (mem_of_mem_drop hmem)) (by omega)
  · rw [drop_append_of_le_length hn]
    exact iff_of_true (by simp) hn

/-- **Keys are taken out by rank.** -/
theorem removeRange (h : Listed l keys) (index count : ℕ) :
    Listed (l.take index ++ l.drop (index + count)) (removeRange keys index count) := by
  have hsub : (l.take index ++ l.drop (index + count)).Sublist l := by
    conv_rhs => rw [← take_append_drop index l]
    rw [← drop_drop]
    exact (List.Sublist.refl _).append (drop_sublist _ _)
  refine ⟨h.sorted.sublist hsub, fun a => ?_⟩
  rw [Lib.removeRange, Finset.mem_filter, ← h.mem]
  by_cases ha : a ∈ l
  · obtain ⟨x, y, rfl⟩ := append_of_mem ha
    rw [h.rank_mid, mem_append, mem_take_iff h.nodup, mem_drop_iff h.nodup]
    simp only [mem_append, mem_cons, true_or, or_true, true_and]
    omega
  · exact iff_of_false (fun hmem => ha (hsub.subset hmem)) fun hmem => ha hmem.1

/-- **The floor is in front** of where the key would be, if something is. -/
theorem rank_floor (h : Listed (x ++ y) keys) (hx : ∀ b ∈ x, b < a) (hy : ∀ b ∈ y, a < b)
    (hf : IsFloor keys a f) : rank keys f = x.length - 1 := by
  rcases eq_nil_or_concat x with rfl | ⟨x, b, rfl⟩
  · refine h.rank_eq (fun _ hb => (not_mem_nil hb).elim) fun b hb => ?_
    rcases hf with ⟨⟨hmem, hle⟩, -⟩ | ⟨-, -, hmin⟩
    · exact absurd (hy f ((h.mem f).2 hmem)) (not_lt.2 hle)
    · exact hmin ((h.mem b).1 hb)
  · rw [concat_eq_append] at h hx ⊢
    have hb : b ∈ keys := (h.mem b).1 (by simp)
    have hba : b < a := hx b (by simp)
    rw [append_assoc, singleton_append] at h
    obtain ⟨hxb, -⟩ := h.parts
    obtain rfl : f = b := by
      rcases hf with ⟨⟨hmem, hle⟩, hmax⟩ | ⟨hall, -⟩
      · refine le_antisymm ?_ (hmax ⟨hb, hba.le⟩)
        rcases mem_append.1 ((h.mem f).2 hmem) with hm | hm
        · exact (hxb f hm).le
        · rcases mem_cons.1 hm with rfl | hm
          · exact le_rfl
          · exact absurd (hy f hm) (not_lt.2 hle)
      · exact absurd (hall b hb) (not_lt.2 hba.le)
    rw [h.rank_mid, length_append, length_singleton, Nat.add_sub_cancel]

/-- **The ceil is where the key would be**, if something is. -/
theorem rank_ceil (h : Listed (x ++ y) keys) (hx : ∀ b ∈ x, b < a) (hy : ∀ b ∈ y, a < b)
    (hf : IsCeil keys a f) :
    rank keys f = if x.length < (x ++ y).length then x.length else (x ++ y).length - 1 := by
  cases y with
  | nil =>
    rw [append_nil] at h ⊢
    rw [if_neg (Nat.lt_irrefl _)]
    rcases hf with ⟨⟨hmem, hle⟩, -⟩ | ⟨-, hmem, hmax⟩
    · exact absurd (hx f ((h.mem f).2 hmem)) (not_lt.2 hle)
    · obtain ⟨u, v, rfl⟩ := append_of_mem ((h.mem f).2 hmem)
      -- nothing is behind the greatest
      obtain rfl : v = [] := by
        rw [eq_nil_iff_forall_not_mem]
        intro b hb
        exact absurd (h.parts.2 b hb) (not_lt.2 (hmax ((h.mem b).1 (by simp [hb]))))
      rw [h.rank_mid, length_append, length_singleton, Nat.add_sub_cancel]
  | cons c y =>
    have hc : c ∈ keys := (h.mem c).1 (by simp)
    have hac : a < c := hy c mem_cons_self
    obtain rfl : f = c := by
      rcases hf with ⟨⟨hmem, hle⟩, hmin⟩ | ⟨hall, -⟩
      · refine le_antisymm (hmin ⟨hc, hac.le⟩) ?_
        rcases mem_append.1 ((h.mem f).2 hmem) with hm | hm
        · exact absurd (hx f hm) (not_lt.2 hle)
        · rcases mem_cons.1 hm with rfl | hm
          · exact le_rfl
          · exact (h.parts.2 f hm).le
      · exact absurd (hall c hc) (not_lt.2 hac.le)
    rw [h.rank_mid, if_pos (by simp)]

end Listed

end OpenBinder.Lib
