import OpenBinder.Lib.Doubly
import OpenBinder.Vector.SortedVector
import OpenBinder.Vector.VectorLaw

/-!
# A sorted vector is a set, and a keyed vector a map

* `getOrderOf_spec`: the search finds the key, or where it would be between two.
* `SSortedVector.Holds.addOrdered` and so on: what a call leaves of a vector that lists a set.
* `SKeyedVector.Holds.addKeyed` and so on: the same of the two vectors and a map. A key is removed
  again where there is no memory for its value.
* `refines_of_observes`: **in every run** of calls that do not go wrong the sorted vector is the set
  and the keyed vector the map.
-/

namespace OpenBinder

open Lib List Option
open SAbstractVector (Ptr Env Result)

/-! ### Elements -/

namespace SAbstractVector

variable {α : Type} {v : SAbstractVector α} {l x y : List α} {a : α} {env : Env}

theorem Holds.read (h : v.Holds (x ++ a :: y)) : v.mem.read v.base x.length = some a := by
  have hm : v.mem v.base = some (filled x ++ some a :: (filled y ++ raw (v.avail - v.size))) := by
    rw [h.shape.stored, layout_base, filled_append, filled_cons]
    simp
  have hread := Store.read_eq hm
  rwa [filled_length] at hread

theorem Holds.itemAt (h : v.Holds (x ++ a :: y)) : v.itemAt x.length = some a := by
  rw [SAbstractVector.itemAt, if_pos (Int.natCast_nonneg _), Int.toNat_natCast, h.read]

variable {p : Ptr α} {amount index : ℕ}

theorem Holds.pointee [Inhabited α] (h : v.Holds l) (hp : v.Points p) :
    v.pointee p = some (ptrValue l (some p)) := by
  cases p with
  | given x => rfl
  | own i =>
    have hi : i < l.length := h.size ▸ hp
    have hl : l.take i ++ l[i] :: l.drop (i + 1) = l := by
      rw [getElem_cons_drop, take_append_drop]
    rw [← hl] at h
    have hread := h.read
    rw [length_take, Nat.min_eq_left hi.le] at hread
    show v.mem.read v.base i = some (l.getD i default)
    rw [hread, getD_eq_getElem?_getD, List.getElem?_eq_getElem hi]
    rfl

theorem Points.valid (h : v.Holds l) (hp : v.Points p) : p.Valid l := by
  cases p with
  | given x => trivial
  | own i =>
    show i < l.length
    rw [← h.size]
    exact hp

theorem growGap_true {pos : ℕ} {r : SAbstractVector α × Bool} (h : v.growGap amount pos = some r) :
    r.2 = true := by
  unfold growGap at h
  split at h
  · obtain ⟨mem, -, rfl⟩ := map_eq_some_iff.1 h
    rfl
  · obtain ⟨⟩ := h
    rfl

theorem fresh_of_grow {factor pos : ℕ} {r : SAbstractVector α × Bool}
    (h : v.grow amount factor pos env = some r) (hr : r.2 = false) : env.fresh = none := by
  unfold grow at h
  by_cases havail : v.avail < wrap (v.size + amount)
  · rw [if_pos havail] at h
    by_cases hlocal : v.localSpace < wrap (v.size + amount)
    · rw [if_pos hlocal] at h
      by_cases hin : v.localSpace < v.avail ∧ env.inplace = true
      · rw [if_pos hin] at h
        obtain ⟨mem, -, hgap⟩ := bind_eq_some_iff.1 h
        exact absurd (growGap_true hgap) (by rw [hr]; simp)
      · rw [if_neg hin] at h
        cases hf : env.fresh with
        | none => rfl
        | some b =>
          rw [hf] at h
          obtain ⟨mem, -, h⟩ := bind_eq_some_iff.1 h
          obtain ⟨mem, -, h⟩ := bind_eq_some_iff.1 h
          obtain ⟨w, -, rfl⟩ := map_eq_some_iff.1 h
          exact absurd hr (by simp)
    · rw [if_neg hlocal] at h
      exact absurd h (by simp)
  · rw [if_neg havail] at h
    exact absurd (growGap_true h) (by rw [hr]; simp)

theorem replaceAt_result {w : SAbstractVector α × Result} (h : v.replaceAt p index = some w) :
    w.2 = .value index := by
  cases p with
  | given x =>
    obtain ⟨mem, -, rfl⟩ := map_eq_some_iff.1 h
    rfl
  | own i =>
    obtain ⟨x, -, h⟩ := bind_eq_some_iff.1 h
    obtain ⟨mem, -, rfl⟩ := map_eq_some_iff.1 h
    rfl

theorem addAt_result [Inhabited α] {item : Option (Ptr α)} {w : SAbstractVector α × Result}
    (h : v.addAt item index env = some w) :
    w.2 = .noMemory ∧ env.fresh = none ∨ w.2 = .value (min index v.size) := by
  unfold SAbstractVector.addAt at h
  obtain ⟨⟨v', ok⟩, hgrow, h⟩ := bind_eq_some_iff.1 h
  cases ok with
  | false =>
    obtain ⟨⟩ := h
    exact .inl ⟨rfl, fresh_of_grow hgrow rfl⟩
  | true =>
    obtain ⟨v'', -, rfl⟩ := map_eq_some_iff.1 h
    exact .inr rfl

theorem Holds.addAt_of_fails [Inhabited α] {item : Option (Ptr α)} (h : v.Holds l)
    (hsize : v.size + 1 < 2 ^ 32) (hfails : v.Fails 1 env) :
    v.addAt item index env = some (v, .noMemory) := by
  have hfresh : ∀ b ∈ env.fresh, v.mem (.block b) = none := by
    rw [hfails.2]
    exact fun b hb => absurd hb (by simp)
  have hgrow : v.grow 1 3 (min index v.size) env = some (v, false) := by
    have hthree : 2 ≤ 3 := by decide
    rcases grow_spec h hthree ⟨hsize, .inl hfails⟩ (fun _ => Nat.one_pos) hfresh with
      ⟨-, hg⟩ | ⟨hnot, -⟩
    · exact hg
    · exact absurd hfails hnot
  unfold SAbstractVector.addAt
  dsimp only
  rw [hgrow]
  rfl

/-- A block that can hold four times as many elements has bytes for twice as many. -/
theorem Holds.canShrink (h : v.Holds l) (hlen : l.length ≤ 2 ^ 30) (hamount : 0 < amount) :
    v.CanShrink amount env := by
  intro hlocal hfour
  have hk : v.size - amount < 2 ^ 30 := by
    have := h.size
    omega
  rw [wrap_of_lt (by omega)] at hfour
  have hbytes := h.shape.bytes
  have hmul : (v.size - amount) * 4 * v.elementSize ≤ v.avail * v.elementSize :=
    Nat.mul_le_mul_right _ hfour.le
  left
  have heq : (v.size - amount) * 4 * v.elementSize =
      2 * ((v.size - amount) * 2 * v.elementSize) := by
    rw [← Nat.mul_assoc 2, Nat.mul_left_comm 2]
  omega

theorem Holds.remove (h : v.Holds l) (index count : ℕ) (hlen : l.length ≤ 2 ^ 30)
    (hcan : v.CanRemove index count) (hfresh : v.Fresh env) :
    ∃ w, v.removeItemsAt index count env = some w ∧
      w.Holds (l.take index ++ l.drop (index + count)) :=
  h.removeItemsAt (fun hc hi => ⟨hcan hc hi, h.canShrink hlen (by omega)⟩) hfresh

theorem Holds.removeOne (h : v.Holds (x ++ a :: y)) (hlen : (x ++ a :: y).length ≤ 2 ^ 30)
    (hfresh : v.Fresh env) :
    ∃ w, v.removeItemsAt x.length 1 env = some w ∧ w.Holds (x ++ y) := by
  have hsize := h.size
  obtain ⟨w, hw, hholds⟩ := h.remove x.length 1 hlen (fun _ hi => by omega) hfresh
  rw [take_left, ← drop_drop, drop_left, drop_one, tail_cons] at hholds
  exact ⟨w, hw, hholds⟩

theorem Holds.addOne [Inhabited α] (h : v.Holds (x ++ y)) (hlen : (x ++ y).length ≤ 2 ^ 30)
    (hcan : v.CanAdd env) (hp : v.Points p) (hstays : v.PtrStays 1 x.length env (some p))
    (hfresh : v.Fresh env) :
    ∃ w r, v.addAt (some p) x.length env = some (w, r) ∧
      (r = .noMemory ∧ env.fresh = none ∧ w.Holds (x ++ y) ∨
        r = .value x.length ∧ ¬v.Fails 1 env ∧ w.Holds (x ++ ptrValue (x ++ y) (some p) :: y)) := by
  have hsize := h.size
  have hle : x.length ≤ v.size := by
    rw [hsize, length_append]
    omega
  have hmin : min x.length v.size = x.length := Nat.min_eq_left hle
  obtain ⟨w, r, hadd, hholds⟩ : Keeps (v.addAt (some p) x.length env) (x ++ y)
      (insertAt (x ++ y) x.length [ptrValue (x ++ y) (some p)]) := h.addAt ⟨by omega, hcan⟩
    (fun q hq => Option.some.inj hq ▸ Points.valid h hp) (by rw [hmin]; exact hstays) hfresh
  refine ⟨w, r, hadd, ?_⟩
  rcases addAt_result hadd with ⟨hr, hnone⟩ | hr
  · rw [if_pos hr] at hholds
    exact .inl ⟨hr, hnone, hholds⟩
  · dsimp only at hr
    rw [hr, if_neg (by simp), insertAt, take_left, drop_left, append_assoc] at hholds
    rw [hmin] at hr
    refine .inr ⟨hr, fun hfails => ?_, hholds⟩
    have heq := (h.addAt_of_fails (by omega) hfails).symm.trans hadd
    exact absurd (congrArg Prod.snd (Option.some.inj heq)) (by rw [hr]; simp)

end SAbstractVector

namespace SSortedVector

variable {K : Type} [LinearOrder K] {compare : K → K → ℤ} {v : SAbstractVector K} {l : List K}
  {keys : Finset K} {a : K} {env : Env}

/-! ### The search -/

/-- **What a search finds**: the key, or where it would be between the less and the greater ones. -/
def Finds (l : List K) (a : K) (r : Option (Bool × ℕ)) : Prop :=
  ∃ x y, l = x ++ y ∧ (∀ b ∈ x, b < a) ∧
    (r = some (true, x.length) ∧ (∃ z, y = a :: z) ∨
      r = some (false, x.length) ∧ ∀ b ∈ y, a < b)

section

variable (hcompare : IsOrder compare) (h : v.Holds l) (hl : l.Pairwise (· < ·))
  (hlen : l.length ≤ 2 ^ 30)
include hcompare h hl hlen

/-- The search between what is less and what is greater. -/
theorem search_spec : ∀ (n : ℕ) (x m y : List K) (low high : ℤ), l = x ++ (m ++ y) →
      (∀ b ∈ x, b < a) → (∀ b ∈ y, a < b) → low = x.length → high = x.length + m.length - 1 →
      m.length < n → Finds l a (search compare v a n low high) := by
  intro n
  induction n with
  | zero => exact fun _ _ _ _ _ _ _ _ _ _ hn => absurd hn (Nat.not_lt_zero _)
  | succ n ih =>
    intro x m y low high hxy hx hy hlow hhigh hn
    rw [search]
    by_cases hle : low ≤ high
    · -- the element in the middle
      have hmid : (ssize (low + high)).tdiv 2 = ((x.length + (m.length - 1) / 2 : ℕ) : ℤ) := by
        have hsum : l.length = x.length + (m.length + y.length) := by simp [hxy]
        rw [ssize_of_lt (by omega) (by omega), Int.tdiv_eq_ediv_of_nonneg (by omega)]
        omega
      have hk : (m.length - 1) / 2 < m.length := by omega
      obtain ⟨m₁, c, m₂, rfl, hm₁⟩ : ∃ m₁ c m₂, m = m₁ ++ c :: m₂ ∧
          m₁.length = (m.length - 1) / 2 :=
        ⟨m.take ((m.length - 1) / 2), m[(m.length - 1) / 2], m.drop ((m.length - 1) / 2 + 1),
          by rw [getElem_cons_drop, take_append_drop],
          by rw [length_take, Nat.min_eq_left hk.le]⟩
      rw [← hm₁] at hmid
      have hsplit : l = (x ++ m₁) ++ c :: (m₂ ++ y) := by rw [hxy]; simp
      obtain ⟨-, hright, hleft⟩ := pairwise_append.1 (hsplit ▸ hl)
      have hitem : v.itemAt ((x.length + m₁.length : ℕ) : ℤ) = some c := by
        rw [← length_append]
        exact SAbstractVector.Holds.itemAt (hsplit ▸ h)
      rw [if_pos hle]
      dsimp only
      rw [hmid, hitem, bind_some]
      rw [length_append, length_cons] at hhigh hn
      rcases lt_trichotomy a c with hac | rfl | hac
      · rw [if_pos ((hcompare.neg a c).2 hac)]
        refine ih x m₁ (c :: (m₂ ++ y)) _ _ (by rw [hsplit, append_assoc]) hx ?_ hlow
          (by push_cast; omega) (by omega)
        intro b hb
        rcases mem_cons.1 hb with rfl | hb
        · exact hac
        · exact hac.trans ((pairwise_cons.1 hright).1 b hb)
      · rw [if_neg fun hneg => lt_irrefl _ ((hcompare.neg a a).1 hneg),
          if_neg fun hpos => lt_irrefl _ ((hcompare.pos a a).1 hpos)]
        refine ⟨x ++ m₁, a :: (m₂ ++ y), hsplit, fun b hb => hleft b hb a mem_cons_self,
          .inl ⟨?_, _, rfl⟩⟩
        rw [Int.toNat_natCast, length_append]
      · rw [if_neg fun hneg => lt_asymm hac ((hcompare.neg a c).1 hneg),
          if_pos ((hcompare.pos a c).2 hac)]
        refine ih (x ++ m₁ ++ [c]) m₂ y _ _ (by rw [hsplit]; simp) ?_ hy
          (by simp; omega) (by simp; omega) (by omega)
        intro b hb
        rcases mem_append.1 hb with hb | hb
        · exact (hleft b hb c mem_cons_self).trans hac
        · rw [mem_singleton.1 hb]
          exact hac
    · have hm : m = [] := by
        rw [← length_eq_zero_iff]
        omega
      rw [hm, nil_append] at hxy
      rw [if_neg hle]
      refine ⟨x, y, hxy, hx, .inr ⟨?_, hy⟩⟩
      rw [hlow, Int.toNat_natCast]

theorem getOrderOf_spec (a : K) : Finds l a (getOrderOf compare v a) := by
  have hsize := h.size
  refine search_spec hcompare h hl hlen (v.size + 1) [] l [] 0 _ (by simp) (by simp) (by simp) rfl
    ?_ (by omega)
  rw [ssize_of_lt (by omega) (by omega)]
  simp [hsize]

end

/-! ### A sorted vector and its set -/

/-- **The vector lists the set**, and is not too long to be searched. -/
structure Holds (v : SAbstractVector K) (l : List K) (keys : Finset K) : Prop where
  vec : v.Holds l
  listed : Listed l keys
  small : l.length ≤ 2 ^ 30

theorem Holds.finds (h : Holds v l keys) (hcompare : IsOrder compare) (a : K) :
    Finds l a (getOrderOf compare v a) :=
  getOrderOf_spec hcompare h.vec h.listed.sorted h.small a

theorem Holds.cases (h : Holds v l keys) (hcompare : IsOrder compare) (a : K) :
    (∃ x y, l = x ++ a :: y ∧ a ∈ keys ∧ getOrderOf compare v a = some (true, x.length)) ∨
      ∃ x y, l = x ++ y ∧ a ∉ keys ∧ (∀ b ∈ x, b < a) ∧ (∀ b ∈ y, a < b) ∧
        getOrderOf compare v a = some (false, x.length) := by
  obtain ⟨x, y, hl, hx, ⟨hget, z, rfl⟩ | ⟨hget, hy⟩⟩ := h.finds hcompare a
  · exact .inl ⟨x, z, hl, (h.listed.mem a).1 (by rw [hl]; simp), hget⟩
  · refine .inr ⟨x, y, hl, fun hmem => ?_, hx, hy, hget⟩
    have ha := (h.listed.mem a).2 hmem
    rw [hl] at ha
    rcases mem_append.1 ha with ha | ha
    · exact lt_irrefl a (hx a ha)
    · exact lt_irrefl a (hy a ha)

variable [Inhabited K] {p : Ptr K}

theorem Holds.addOrdered_mem (h : Holds v l keys) (env : Env) (hp : v.Points p)
    {x y : List K} (ha : SAbstractVector.ptrValue l (some p) = a) (hl : l = x ++ a :: y)
    (hget : getOrderOf compare v a = some (true, x.length)) :
    ∃ w, addOrdered compare v p env = some (w, .value x.length, false) ∧ Holds w l keys := by
  have hindex : x.length < v.size := by
    rw [h.vec.size, hl]
    simp
  obtain ⟨w, r, hrep, hholds⟩ : SAbstractVector.Keeps (v.replaceAt p x.length) l
    (l.set x.length (SAbstractVector.ptrValue l (some p))) :=
      h.vec.replaceAt (SAbstractVector.Points.valid h.vec hp) hindex
  have hset : l.set x.length (SAbstractVector.ptrValue l (some p)) = l := by
    rw [ha, hl]
    simp
  rw [hset, ite_self] at hholds
  refine ⟨w, ?_, hholds, h.listed, h.small⟩
  rw [addOrdered, h.vec.pointee hp, bind_some, ha, hget, bind_some, if_pos rfl, hrep]
  rfl

theorem Holds.addOrdered_notMem (h : Holds v l keys) (hp : v.Points p) {x y : List K}
    (ha : SAbstractVector.ptrValue l (some p) = a) (hl : l = x ++ y) (hnot : a ∉ keys)
    (hx : ∀ b ∈ x, b < a) (hy : ∀ b ∈ y, a < b)
    (hget : getOrderOf compare v a = some (false, x.length)) (hfresh : v.Fresh env)
    (hcan : v.Fails 1 env ∨ v.size < 2 ^ 30 ∧ v.Sized 1 3) :
    ∃ w r, addOrdered compare v p env = some (w, r) ∧
      (r = (.noMemory, false) ∧ env.fresh = none ∧ Holds w l keys ∨
        r = (.value x.length, true) ∧ ¬v.Fails 1 env ∧
          Holds w (x ++ a :: y) (insert a keys)) := by
  have hadd : addOrdered compare v p env =
      (v.addAt (some p) x.length env).map fun w => (w.1, w.2, decide (w.2 ≠ .noMemory)) := by
    rw [addOrdered, h.vec.pointee hp, bind_some, ha, hget]
    rfl
  -- a key of the vector is not new
  have hstays : v.PtrStays 1 x.length env (some p) := by
    rintro q hq
    obtain ⟨⟩ := hq
    cases p with
    | given x => trivial
    | own i =>
      have hi : i < l.length := SAbstractVector.Points.valid h.vec hp
      refine absurd ((h.listed.mem a).1 ?_) hnot
      rw [← ha]
      show l.getD i default ∈ l
      rw [getD_eq_getElem?_getD, List.getElem?_eq_getElem hi]
      exact getElem_mem hi
  subst hl
  have hlist := h.listed.insert hx hy
  obtain ⟨w, r, hw, hcase⟩ := h.vec.addOne h.small (hcan.imp id And.right) hp hstays hfresh
  rw [hadd, hw]
  rcases hcase with ⟨rfl, hnone, hholds⟩ | ⟨rfl, hnf, hholds⟩
  · exact ⟨w, _, rfl, .inl ⟨rfl, hnone, hholds, h.listed, h.small⟩⟩
  · have hlt := (hcan.resolve_left hnf).1
    rw [ha] at hholds
    refine ⟨w, _, rfl, .inr ⟨rfl, hnf, hholds, hlist, ?_⟩⟩
    have hsize := h.vec.size
    rw [length_append] at hsize ⊢
    rw [length_cons]
    omega

theorem Holds.removeOrdered (h : Holds v l keys) (hcompare : IsOrder compare) (hp : v.Points p)
    (ha : SAbstractVector.ptrValue l (some p) = a) (hfresh : v.Fresh env) :
    (∃ x y w, l = x ++ a :: y ∧ removeOrdered compare v p env = some (w, some x.length) ∧
      Holds w (x ++ y) (keys.erase a)) ∨
    a ∉ keys ∧ removeOrdered compare v p env = some (v, none) := by
  rcases h.cases hcompare a with ⟨x, y, rfl, -, hget⟩ | ⟨x, y, -, hnot, -, -, hget⟩
  · obtain ⟨w, hw, hholds⟩ := h.vec.removeOne h.small hfresh
    refine .inl ⟨x, y, w, rfl, ?_, hholds, h.listed.erase, ?_⟩
    · rw [SSortedVector.removeOrdered, h.vec.pointee hp, bind_some, ha, hget,
        bind_some, if_pos rfl, hw]
      rfl
    · have := h.small
      rw [length_append, length_cons] at this
      rw [length_append]
      omega
  · refine .inr ⟨hnot, ?_⟩
    rw [SSortedVector.removeOrdered, h.vec.pointee hp, bind_some, ha, hget,
      bind_some, if_neg (by simp)]

omit [Inhabited K] in
theorem Holds.removeItemsAt (h : Holds v l keys) (index count : ℕ)
    (hcan : v.CanRemove index count) (hfresh : v.Fresh env) :
    ∃ w, v.removeItemsAt index count env = some w ∧
      Holds w (l.take index ++ l.drop (index + count)) (removeRange keys index count) := by
  obtain ⟨w, hw, hholds⟩ := h.vec.remove index count h.small hcan hfresh
  refine ⟨w, hw, hholds, h.listed.removeRange index count, ?_⟩
  have := h.small
  rw [length_append, length_take, length_drop]
  omega

omit [Inhabited K] in
theorem Holds.orderOf (h : Holds v l keys) (hcompare : IsOrder compare) (a : K) :
    orderOf compare v a = some (if a ∈ keys then (rank keys a : ℤ) else nameNotFound) := by
  have hsmall := h.small
  rcases h.cases hcompare a with ⟨x, y, rfl, ha, hget⟩ | ⟨x, y, -, hnot, -, -, hget⟩
  · rw [SSortedVector.orderOf, hget, map_some, if_pos rfl, if_pos ha, h.listed.rank_mid]
    rw [length_append] at hsmall
    rw [ssize_of_lt (by omega) (by omega)]
  · rw [SSortedVector.orderOf, hget, map_some, if_neg (by simp), if_neg hnot]

omit [Inhabited K] in
theorem Holds.floorOrderOf (h : Holds v l keys) (hcompare : IsOrder compare) (hne : keys.Nonempty)
    (a : K) : ∃ f, IsFloor keys a f ∧ floorOrderOf compare v a = some (rank keys f : ℤ) := by
  obtain ⟨f, hf⟩ := exists_isFloor hne a
  refine ⟨f, hf, ?_⟩
  have hsmall := h.small
  have hsize := h.vec.size
  rcases h.cases hcompare a with ⟨x, y, rfl, ha, hget⟩ | ⟨x, y, rfl, -, hx, hy, hget⟩
  · obtain rfl := hf.eq_of_mem ha
    rw [length_append] at hsmall
    rw [SSortedVector.floorOrderOf, hget, map_some, if_pos rfl, h.listed.rank_mid,
      ssize_of_lt (by omega) (by omega)]
  · rw [length_append] at hsmall hsize
    rw [SSortedVector.floorOrderOf, hget, map_some, if_neg (by simp),
      h.listed.rank_floor hx hy hf]
    by_cases hpos : 0 < x.length
    · rw [if_pos hpos, ssize_of_lt (by omega) (by omega)]
      congr 1
      omega
    · have hlen : 0 < v.size := by
        obtain ⟨b, hb⟩ := hne
        have := length_pos_of_mem ((h.listed.mem b).2 hb)
        rw [length_append] at this
        omega
      rw [if_neg hpos, if_pos hlen]
      congr 1
      omega

omit [Inhabited K] in
theorem Holds.ceilOrderOf (h : Holds v l keys) (hcompare : IsOrder compare) (hne : keys.Nonempty)
    (a : K) : ∃ f, IsCeil keys a f ∧ ceilOrderOf compare v a = some (rank keys f : ℤ) := by
  obtain ⟨f, hf⟩ := exists_isCeil hne a
  refine ⟨f, hf, ?_⟩
  have hsmall := h.small
  have hsize := h.vec.size
  rcases h.cases hcompare a with ⟨x, y, rfl, ha, hget⟩ | ⟨x, y, rfl, -, hx, hy, hget⟩
  · obtain rfl := hf.eq_of_mem ha
    rw [length_append] at hsmall
    rw [SSortedVector.ceilOrderOf, hget, map_some, if_pos rfl, h.listed.rank_mid,
      ssize_of_lt (by omega) (by omega)]
  · have hlen : 0 < (x ++ y).length := by
      obtain ⟨b, hb⟩ := hne
      exact length_pos_of_mem ((h.listed.mem b).2 hb)
    rw [SSortedVector.ceilOrderOf, hget, map_some, if_neg (by simp),
      h.listed.rank_ceil hx hy hf, hsize]
    by_cases hlt : x.length < (x ++ y).length
    · rw [if_pos hlt, if_pos hlt, ssize_of_lt (by omega) (by omega)]
    · rw [if_neg hlt, if_neg hlt, if_pos hlen, ssize_of_lt (by omega) (by omega)]
      congr 1
      omega

omit [Inhabited K] in
theorem Holds.order_none (h : Holds v l ∅) (hcompare : IsOrder compare) (a : K) :
    SSortedVector.floorOrderOf compare v a = some nameNotFound ∧
      SSortedVector.ceilOrderOf compare v a = some nameNotFound := by
  have hnil : l = [] := eq_nil_iff_forall_not_mem.2 fun b hb => by
    simpa using (h.listed.mem b).1 hb
  subst hnil
  have hsize : v.size = 0 := h.vec.size
  rcases h.cases hcompare a with ⟨x, y, hl, -⟩ | ⟨x, y, hl, -, -, -, hget⟩
  · exact absurd hl (by simp)
  · obtain ⟨rfl, rfl⟩ := append_eq_nil_iff.1 hl.symm
    rw [SSortedVector.floorOrderOf, SSortedVector.ceilOrderOf, hget, hsize]
    exact ⟨rfl, rfl⟩


/-! ### Runs of a sorted vector -/

/-- **The invariant**: nothing was lost and the vector lists the set. -/
def Inv (s : State K) : Prop := s.faulted = false ∧ ∃ l, Holds s.vec l s.keys

variable {s : State K}

omit [Inhabited K] in
theorem Inv.refines (hcompare : IsOrder compare) (h : Inv s) :
    Refines compare s := by
  obtain ⟨hdefined, l, h⟩ := h
  refine ⟨⟨l, SAbstractVector.Inv.refines ⟨hdefined, h.vec⟩, h.listed⟩, h.orderOf hcompare,
    fun a hne => h.floorOrderOf hcompare hne a, fun a hne => h.ceilOrderOf hcompare hne a,
    fun a hempty => ?_⟩
  rw [hempty] at h
  exact h.order_none hcompare a

omit [Inhabited K] in
theorem Inv.init {elementSize : ℕ} (hpos : 0 < elementSize) :
    Inv (SSortedVector.init elementSize : State K) :=
  ⟨rfl, [], (SAbstractVector.Inv.init hpos).holds, Listed.nil, by simp⟩

theorem Inv.perform (hcompare : IsOrder compare) {a : Action K} (h : Inv s) (hallowed : Allowed s a)
    (hq : Observes s a) :
    ∃ s', SSortedVector.perform compare s a = some s' ∧ Inv s' := by
  obtain ⟨hdefined, l, h⟩ := h
  cases a with
  | addItem item env =>
    obtain ⟨hp, hfresh⟩ := hallowed
    have hx := h.vec.pointee hp
    rw [SSortedVector.perform, hx, bind_some]
    rcases h.cases hcompare (SAbstractVector.ptrValue l (some item)) with
      ⟨x, y, hl, ha, hget⟩ | ⟨x, y, hl, hnot, hx', hy', hget⟩
    · obtain ⟨w, hw, hholds⟩ := h.addOrdered_mem env hp rfl hl hget
      rw [hw, map_some]
      refine ⟨_, rfl, hdefined, l, ?_⟩
      rw [if_neg (by simp), Finset.insert_eq_of_mem ha]
      exact hholds
    · obtain ⟨w, r, hw, ⟨rfl, hnone, hholds⟩ | ⟨rfl, -, hholds⟩⟩ :=
        h.addOrdered_notMem hp rfl hl hnot hx' hy' hget hfresh (hq _ hx hnot)
      · rw [hw, map_some]
        refine ⟨_, rfl, hdefined, l, ?_⟩
        rw [if_pos ⟨rfl, hnone⟩]
        exact hholds
      · rw [hw, map_some]
        refine ⟨_, rfl, hdefined, x ++ SAbstractVector.ptrValue l (some item) :: y, ?_⟩
        rw [if_neg (by simp)]
        exact hholds
  | removeItemFor item env =>
    obtain ⟨hp, hfresh⟩ := hallowed
    rw [SSortedVector.perform, h.vec.pointee hp, bind_some]
    rcases h.removeOrdered hcompare hp rfl hfresh with ⟨x, y, w, -, hw, hholds⟩ | ⟨hnot, hw⟩
    · rw [hw, map_some]
      exact ⟨_, rfl, hdefined, _, hholds⟩
    · rw [hw, map_some]
      refine ⟨_, rfl, hdefined, l, ?_⟩
      rw [Finset.erase_eq_of_notMem hnot]
      exact h
  | removeItemsAt index count env =>
    obtain ⟨w, hw, hholds⟩ := h.removeItemsAt index.toNat count.toNat hq hallowed
    rw [SSortedVector.perform, hw, map_some]
    exact ⟨_, rfl, hdefined, _, hholds⟩

/-- **A step that does not go wrong keeps the invariant.** -/
theorem Inv.step (hcompare : IsOrder compare) {s' : State K} {a : Action K} (h : Inv s)
    (hs : SSortedVector.step compare s a = some s') (hq : Observes s a) : Inv s' := by
  obtain ⟨hallowed, hs⟩ := ite_none_right_eq_some.1 hs
  obtain ⟨s₁, hperform, hinv⟩ := h.perform hcompare hallowed hq
  rw [hperform] at hs
  obtain ⟨⟩ := hs
  exact hinv

end SSortedVector

/-! ### A keyed vector and its map -/

namespace SKeyedVector

variable {K V : Type} [LinearOrder K] {compare : K → K → ℤ} {m : SKeyedVector K V} {l : List K}
  {map : FiniteMap K V} {a : K}

/-- **The vectors list the map**: the keys, and their values at the same indices. -/
structure Holds (m : SKeyedVector K V) (l : List K) (map : FiniteMap K V) : Prop where
  keys : SSortedVector.Holds m.keys l map.keys
  values : m.values.Holds (l.map map.value)

theorem Holds.size_eq (h : Holds m l map) : m.values.size = m.keys.size := by
  rw [h.values.size, h.keys.vec.size, length_map]

theorem Holds.small (h : Holds m l map) : (l.map map.value).length ≤ 2 ^ 30 := by
  rw [length_map]
  exact h.keys.small

theorem Holds.valueFor_rank (h : Holds m l map) (ha : a ∈ map.keys) :
    m.valueFor (some (rank map.keys a : ℤ)) = some (map.value a, true) := by
  obtain ⟨x, y, rfl⟩ := append_of_mem ((h.keys.listed.mem a).2 ha)
  have hvalues := h.values
  have hsmall := h.keys.small
  have hsize := hvalues.size
  rw [length_map, length_append, length_cons] at hsize
  rw [length_append, length_cons] at hsmall
  rw [map_append, map_cons] at hvalues
  have hitem := hvalues.itemAt
  rw [length_map] at hitem
  rw [valueFor, bind_some, h.keys.listed.rank_mid]
  rw [ssize_of_lt (by omega) (by omega),
    if_neg (by omega : ¬(m.values.size : ℤ) ≤ (x.length : ℤ)), if_pos (Int.natCast_nonneg _), hitem]
  rfl

omit [LinearOrder K] in
theorem valueFor_nameNotFound (m : SKeyedVector K V) :
    m.valueFor (some SSortedVector.nameNotFound) = some (m.undefined, false) := by
  have hneg : SSortedVector.nameNotFound < 0 := by decide
  rw [valueFor, bind_some]
  split
  · rfl
  · rw [if_neg (by omega)]

section

variable (h : Holds m l map) (hcompare : IsOrder compare)
include h hcompare

theorem Holds.keyedFor (a : K) : m.keyedFor compare a =
      some (if a ∈ map.keys then (map.value a, true) else (m.undefined, false)) := by
  rw [SKeyedVector.keyedFor, h.keys.orderOf hcompare]
  by_cases ha : a ∈ map.keys
  · rw [if_pos ha, if_pos ha, h.valueFor_rank ha]
  · rw [if_neg ha, if_neg ha, valueFor_nameNotFound]

theorem Holds.floorKeyedFor (hne : map.keys.Nonempty) (a : K) :
    ∃ f, IsFloor map.keys a f ∧ m.floorKeyedFor compare a = some (map.value f, true) := by
  obtain ⟨f, hf, horder⟩ := h.keys.floorOrderOf hcompare hne a
  refine ⟨f, hf, ?_⟩
  rw [SKeyedVector.floorKeyedFor, horder, h.valueFor_rank hf.mem]

theorem Holds.ceilKeyedFor (hne : map.keys.Nonempty) (a : K) :
    ∃ f, IsCeil map.keys a f ∧ m.ceilKeyedFor compare a = some (map.value f, true) := by
  obtain ⟨f, hf, horder⟩ := h.keys.ceilOrderOf hcompare hne a
  refine ⟨f, hf, ?_⟩
  rw [SKeyedVector.ceilKeyedFor, horder, h.valueFor_rank hf.mem]

end

theorem map_insert_value {x : List K} (hx : a ∉ x) (v : V) :
    x.map (map.insert a v).value = x.map map.value :=
  map_congr_left fun b hb => Function.update_of_ne (fun hba : b = a => hx (hba ▸ hb)) _ _

theorem map_insert_middle {x y : List K} (hnd : (x ++ a :: y).Nodup) (v : V) :
    (x ++ a :: y).map (map.insert a v).value = x.map map.value ++ v :: y.map map.value := by
  obtain ⟨hax, hay⟩ := Linked.notMem_of_nodup hnd
  rw [map_append, map_cons, map_insert_value hax, map_insert_value hay]
  congr 2
  exact Function.update_self _ _ _

variable [Inhabited K] [Inhabited V] {key : Ptr K} {value : Ptr V} {env : AddEnv} {v : V}
  {x y : List K}

theorem Holds.addKeyed_mem (h : Holds m l map) (env : AddEnv) (hp : m.keys.Points key)
    (hv : m.values.Points value) (ha : SAbstractVector.ptrValue l (some key) = a)
    (hval : SAbstractVector.ptrValue (l.map map.value) (some value) = v) (hl : l = x ++ a :: y)
    (hget : SSortedVector.getOrderOf compare m.keys a = some (true, x.length)) :
    ∃ w n, m.addKeyed compare key value env = some (w, .value n) ∧
      Holds w l (map.insert a v) := by
  obtain ⟨w, hw, hkeys⟩ := h.keys.addOrdered_mem env.key hp ha hl hget
  have hindex : x.length < m.values.size := by
    rw [h.size_eq, h.keys.vec.size, hl]
    simp
  obtain ⟨u, r, hrep, hvalues⟩ : SAbstractVector.Keeps (m.values.replaceAt value x.length)
    (l.map map.value) ((l.map map.value).set x.length
      (SAbstractVector.ptrValue (l.map map.value) (some value))) :=
    h.values.replaceAt (SAbstractVector.Points.valid h.values hv) hindex
  have hr : r = .value x.length := SAbstractVector.replaceAt_result hrep
  rw [hr, if_neg (by simp), hval] at hvalues
  have hset : (l.map map.value).set x.length v = l.map (map.insert a v).value := by
    have hnd := h.keys.listed.nodup
    rw [hl] at hnd
    rw [hl, map_insert_middle hnd, map_append, map_cons,
      set_append_right _ _ (by simp)]
    simp
  refine ⟨{ m with keys := w, values := u }, x.length, ?_, ?_, ?_⟩
  · rw [addKeyed, hw, bind_some]
    dsimp only
    rw [hrep]
    rfl
  · have hinsert : (map.insert a v).keys = map.keys := Finset.insert_eq_of_mem
      ((h.keys.listed.mem a).1 (by rw [hl]; simp))
    rw [hinsert]
    exact hkeys
  · rw [← hset]
    exact hvalues

/-- `AddKeyed` of a new key. Where there is no memory for the value the key goes again. -/
theorem Holds.addKeyed_notMem (h : Holds m l map) (hp : m.keys.Points key)
    (hv : m.values.Points value) (ha : SAbstractVector.ptrValue l (some key) = a)
    (hval : SAbstractVector.ptrValue (l.map map.value) (some value) = v) (hl : l = x ++ y)
    (hnot : a ∉ map.keys) (hx : ∀ b ∈ x, b < a) (hy : ∀ b ∈ y, a < b)
    (hget : SSortedVector.getOrderOf compare m.keys a = some (false, x.length))
    (hkfresh : m.keys.Fresh env.key) (hvfresh : m.values.Fresh env.value)
    (hundo : ∀ r ∈ SSortedVector.addOrdered compare m.keys key env.key, r.1.Fresh env.undo)
    (hcan : m.keys.Fails 1 env.key ∨
      (m.keys.size < 2 ^ 30 ∧ m.keys.Sized 1 3) ∧ m.values.CanAdd env.value ∧
        m.values.PtrStays 1 (rank map.keys a) env.value (some value)) :
    ∃ w r, m.addKeyed compare key value env = some (w, r) ∧
      (r = .noMemory ∧ (env.key.fresh = none ∨ env.value.fresh = none) ∧ Holds w l map ∨
        r ≠ .noMemory ∧ Holds w (x ++ a :: y) (map.insert a v)) := by
  obtain ⟨w, r, hw, ⟨rfl, hnone, hkeys⟩ | ⟨rfl, hnf, hkeys⟩⟩ :=
    h.keys.addOrdered_notMem hp ha hl hnot hx hy hget hkfresh (hcan.imp id And.left)
  · refine ⟨{ m with keys := w }, .noMemory, ?_, .inl ⟨rfl, .inl hnone, hkeys, h.values⟩⟩
    rw [addKeyed, hw]
    rfl
  · obtain ⟨-, hadd, hstays⟩ := hcan.resolve_left hnf
    have hvalues := h.values
    have hsmall := h.small
    subst hl
    rw [h.keys.listed.rank_eq hx fun b hb => (hy b hb).le] at hstays
    rw [map_append] at hvalues hsmall hval
    have hlen : (x.map map.value).length = x.length := length_map _
    rw [← hlen] at hstays
    obtain ⟨u, r, hu, ⟨rfl, hnone, hrest⟩ | ⟨rfl, -, hrest⟩⟩ :=
      hvalues.addOne hsmall hadd hv hstays hvfresh
    · obtain ⟨t, ht, hback⟩ := hkeys.vec.removeOne hkeys.small (hundo _ hw)
      refine ⟨{ m with keys := t, values := u }, .noMemory, ?_,
        .inl ⟨rfl, .inr hnone, ⟨hback, h.keys.listed, h.keys.small⟩, ?_⟩⟩
      · rw [length_map] at hu
        rw [addKeyed, hw, bind_some]
        dsimp only
        rw [hu, bind_some]
        rw [ht]
        rfl
      · rw [map_append]
        exact hrest
    · refine ⟨{ m with keys := w, values := u }, .value x.length, ?_,
        .inr ⟨by simp, hkeys, ?_⟩⟩
      · rw [length_map] at hu
        rw [addKeyed, hw, bind_some]
        dsimp only
        rw [hu]
        rfl
      · rw [map_insert_middle hkeys.listed.nodup, ← hval]
        exact hrest

omit [Inhabited V] in
theorem Holds.removeKeyed (h : Holds m l map) (hcompare : IsOrder compare)
    (hp : m.keys.Points key) (ha : SAbstractVector.ptrValue l (some key) = a)
    {keyEnv valueEnv : Env} (hkfresh : m.keys.Fresh keyEnv) (hvfresh : m.values.Fresh valueEnv) :
    ∃ w l', m.removeKeyed compare key keyEnv valueEnv = some w ∧ Holds w l' (map.erase a) := by
  rcases h.keys.removeOrdered hcompare hp ha hkfresh with ⟨x, y, w, rfl, hw, hkeys⟩ | ⟨hnot, hw⟩
  · have hvalues := h.values
    have hsmall := h.small
    rw [map_append, map_cons] at hvalues hsmall
    obtain ⟨u, hu, hrest⟩ := hvalues.removeOne hsmall hvfresh
    rw [length_map] at hu
    refine ⟨{ m with keys := w, values := u }, x ++ y, ?_, hkeys, ?_⟩
    · rw [SKeyedVector.removeKeyed, hw, bind_some]
      dsimp only
      rw [hu]
      rfl
    · rw [map_append]
      exact hrest
  · refine ⟨m, l, ?_, ?_, h.values⟩
    · rw [SKeyedVector.removeKeyed, hw]
      rfl
    · show SSortedVector.Holds m.keys l (map.keys.erase a)
      rw [Finset.erase_eq_of_notMem hnot]
      exact h.keys

omit [Inhabited K] [Inhabited V] in
theorem Holds.removeItemsAt (h : Holds m l map) {index count : ℕ}
    (hcan : m.keys.CanRemove index count) {keyEnv valueEnv : Env} (hkfresh : m.keys.Fresh keyEnv)
    (hvfresh : m.values.Fresh valueEnv) :
    ∃ w, m.removeItemsAt index count keyEnv valueEnv = some w ∧
      Holds w (l.take index ++ l.drop (index + count)) (map.removeRange index count) := by
  obtain ⟨w, hw, hkeys⟩ := h.keys.removeItemsAt index count hcan hkfresh
  have hcan' : m.values.CanRemove index count := by
    intro hc hi
    rw [h.size_eq] at hi
    exact hcan hc hi
  obtain ⟨u, hu, hvalues⟩ := h.values.remove index count h.small hcan' hvfresh
  refine ⟨{ m with keys := w, values := u }, ?_, hkeys, ?_⟩
  · rw [SKeyedVector.removeItemsAt, hw, bind_some, hu]
    rfl
  · rw [map_append, map_take, map_drop]
    exact hvalues

/-! ### Runs of a keyed vector -/

/-- **The invariant**: nothing was lost and the vectors list the map. -/
def Inv (s : State K V) : Prop := s.faulted = false ∧ ∃ l, Holds s.vec l s.map

variable {s : State K V}

omit [Inhabited K] [Inhabited V] in
theorem Inv.refines (hcompare : IsOrder compare) (h : Inv s) :
    Refines compare s := by
  obtain ⟨hdefined, l, h⟩ := h
  refine ⟨⟨l, SAbstractVector.Inv.refines ⟨hdefined, h.keys.vec⟩,
    SAbstractVector.Inv.refines ⟨hdefined, h.values⟩, h.keys.listed⟩, h.keyedFor hcompare,
    fun a hne => h.floorKeyedFor hcompare hne a, fun a hne => h.ceilKeyedFor hcompare hne a,
    fun a hempty => ?_⟩
  have hkeys := h.keys
  rw [hempty] at hkeys
  obtain ⟨hfloor, hceil⟩ := hkeys.order_none hcompare a
  rw [floorKeyedFor, ceilKeyedFor, hfloor, hceil]
  exact ⟨valueFor_nameNotFound _, valueFor_nameNotFound _⟩

omit [Inhabited K] in
theorem Inv.init {keySize valueSize : ℕ} (hkey : 0 < keySize) (hvalue : 0 < valueSize) (u : V) :
    Inv (SKeyedVector.init keySize valueSize u : State K V) :=
  ⟨rfl, [], ⟨(SAbstractVector.Inv.init hkey).holds, Listed.nil, by simp⟩,
    (SAbstractVector.Inv.init hvalue).holds⟩

theorem Inv.perform (hcompare : IsOrder compare) {a : Action K V} (h : Inv s)
    (hallowed : Allowed compare s a) (hq : Observes s a) :
    ∃ s', SKeyedVector.perform compare s a = some s' ∧ Inv s' := by
  obtain ⟨hdefined, l, h⟩ := h
  cases a with
  | addItem key value env =>
    obtain ⟨⟨hp, hv⟩, ⟨hkfresh, hvfresh⟩, hundo⟩ := hallowed
    have hk := h.keys.vec.pointee hp
    rw [SKeyedVector.perform, hk, bind_some, h.values.pointee hv, bind_some]
    rcases h.keys.cases hcompare (SAbstractVector.ptrValue l (some key)) with
      ⟨x, y, hl, ha, hget⟩ | ⟨x, y, hl, hnot, hx, hy, hget⟩
    · obtain ⟨w, n, hw, hholds⟩ := h.addKeyed_mem env hp hv rfl rfl hl hget
      rw [hw, map_some]
      refine ⟨_, rfl, hdefined, l, ?_⟩
      rw [if_neg (by simp)]
      exact hholds
    · obtain ⟨w, r, hw, ⟨rfl, hnone, hholds⟩ | ⟨hr, hholds⟩⟩ :=
        h.addKeyed_notMem hp hv rfl rfl hl hnot hx hy hget hkfresh hvfresh hundo (hq _ hk hnot)
      · rw [hw, map_some]
        refine ⟨_, rfl, hdefined, l, ?_⟩
        rw [if_pos ⟨rfl, hnone⟩]
        exact hholds
      · rw [hw, map_some]
        refine ⟨_, rfl, hdefined, x ++ SAbstractVector.ptrValue l (some key) :: y, ?_⟩
        rw [if_neg fun hno => hr hno.1]
        exact hholds
  | removeItemFor key keyEnv valueEnv =>
    obtain ⟨hp, hkfresh, hvfresh⟩ := hallowed
    rw [SKeyedVector.perform, h.keys.vec.pointee hp, bind_some]
    obtain ⟨w, l', hw, hholds⟩ := h.removeKeyed hcompare hp rfl hkfresh hvfresh
    rw [hw, map_some]
    exact ⟨_, rfl, hdefined, l', hholds⟩
  | removeItemsAt index count keyEnv valueEnv =>
    obtain ⟨w, hw, hholds⟩ := h.removeItemsAt hq hallowed.1 hallowed.2
    rw [SKeyedVector.perform, hw, map_some]
    exact ⟨_, rfl, hdefined, _, hholds⟩

/-- **A step that does not go wrong keeps the invariant.** -/
theorem Inv.step (hcompare : IsOrder compare) {s' : State K V} {a : Action K V} (h : Inv s)
    (hs : SKeyedVector.step compare s a = some s') (hq : Observes s a) : Inv s' := by
  obtain ⟨hallowed, hs⟩ := ite_none_right_eq_some.1 hs
  obtain ⟨s₁, hperform, hinv⟩ := h.perform hcompare hallowed hq
  rw [hperform] at hs
  obtain ⟨⟩ := hs
  exact hinv

/-- **A sorted vector is a set and a keyed vector a map**, in every state of a run of calls that do
not go wrong. -/
theorem sorted_refines (hcompare : IsOrder compare) {keySize valueSize : ℕ} (hkey : 0 < keySize)
    (hvalue : 0 < valueSize) (u : V) :
    (∀ actions, AllSteps (SSortedVector.step compare) SSortedVector.Observes
        (SSortedVector.init keySize) actions →
      AllStates (SSortedVector.step compare) (SSortedVector.Refines compare)
        (SSortedVector.init keySize) actions) ∧
    ∀ actions, AllSteps (step compare) Observes (init keySize valueSize u : State K V) actions →
      AllStates (step compare) (Refines compare) (init keySize valueSize u) actions := by
  constructor
  · intro actions hall
    exact AllStates.imp (fun _ => SSortedVector.Inv.refines hcompare) actions _
      (AllSteps.states (fun _ _ _ => SSortedVector.Inv.step hcompare) actions _
        (SSortedVector.Inv.init hkey) hall)
  · intro actions hall
    exact AllStates.imp (fun _ => Inv.refines hcompare) actions _
      (AllSteps.states (fun _ _ _ => Inv.step hcompare) actions _ (Inv.init hkey hvalue u) hall)

/-- `BCompare` of numbers. -/
def compareNumbers (a b : ℕ) : ℤ := a - b

theorem isOrder_compareNumbers : IsOrder compareNumbers :=
  ⟨fun a b => by unfold compareNumbers; omega, fun a b => by unfold compareNumbers; omega⟩

/-- Keys of four bytes stay, values of eight go to the heap, and one finds no memory at first. -/
theorem sorted_refines_words :
    AllStates (SSortedVector.step compareNumbers) (SSortedVector.Refines compareNumbers)
      (SSortedVector.init 4)
      [.addItem (.given 7) ⟨false, none⟩, .addItem (.given 5) ⟨false, none⟩,
        .addItem (.own 1) ⟨false, none⟩, .removeItemFor (.given 5) ⟨false, none⟩] ∧
    AllStates (step compareNumbers) (Refines compareNumbers) (init 4 8 0 : State ℕ ℕ)
      [.addItem (.given 7) (.given 70) ⟨⟨false, none⟩, ⟨false, none⟩, ⟨false, none⟩⟩,
        .addItem (.given 5) (.given 50) ⟨⟨false, none⟩, ⟨false, none⟩, ⟨false, none⟩⟩,
        .addItem (.given 5) (.given 50) ⟨⟨false, none⟩, ⟨false, some 0⟩, ⟨false, none⟩⟩,
        .addItem (.given 7) (.own 0) ⟨⟨false, none⟩, ⟨false, none⟩, ⟨false, none⟩⟩,
        .removeItemsAt 1 3 ⟨false, none⟩ ⟨false, none⟩] := by
  have h := sorted_refines isOrder_compareNumbers (by decide : 0 < 4) (by decide : 0 < 8) (0 : ℕ)
  constructor
  · apply h.1
    refine AllSteps.cons rfl ?_ ?_
    · rintro _ - -
      exact .inr ⟨by decide, fun _ => ⟨by decide, by decide⟩⟩
    refine AllSteps.cons rfl ?_ ?_
    · rintro _ - -
      exact .inr ⟨by decide, fun _ => ⟨by decide, by decide⟩⟩
    refine AllSteps.cons rfl ?_ (AllSteps.cons rfl trivial trivial)
    rintro _ - -
    exact .inr ⟨by decide, fun _ => ⟨by decide, by decide⟩⟩
  · apply h.2
    refine AllSteps.cons rfl ?_ ?_
    · rintro _ - -
      refine .inr ⟨⟨by decide, fun _ => ⟨by decide, by decide⟩⟩, .inr fun _ =>
        ⟨by decide, by decide⟩, ?_⟩
      rintro _ ⟨⟩
      trivial
    refine AllSteps.cons rfl ?_ ?_
    · rintro _ - -
      refine .inr ⟨⟨by decide, fun _ => ⟨by decide, by decide⟩⟩, .inr fun _ =>
        ⟨by decide, by decide⟩, ?_⟩
      rintro _ ⟨⟩
      trivial
    refine AllSteps.cons rfl ?_ ?_
    · rintro _ - -
      refine .inr ⟨⟨by decide, fun _ => ⟨by decide, by decide⟩⟩, .inr fun _ =>
        ⟨by decide, by decide⟩, ?_⟩
      rintro _ ⟨⟩
      trivial
    refine AllSteps.cons rfl ?_ ?_
    · rintro _ ⟨⟩ hnot
      exact absurd (by decide) hnot
    exact AllSteps.cons rfl (fun _ _ => by decide) trivial

omit [Inhabited K] [Inhabited V] in
theorem Refines.defined (h : Refines compare s) : s.faulted = false := by
  obtain ⟨l, hkeys, -⟩ := h.entries
  exact hkeys.defined

/-- A count that wraps around takes more than there is. -/
theorem not_sorted_refines :
    ¬AllStates (step compareNumbers) (Refines compareNumbers) (init 4 4 0 : State ℕ ℕ)
      [.addItem (.given 5) (.given 50) ⟨⟨false, none⟩, ⟨false, none⟩, ⟨false, none⟩⟩,
        .addItem (.given 7) (.given 70) ⟨⟨false, none⟩, ⟨false, none⟩, ⟨false, none⟩⟩,
        .removeItemsAt 1 0xFFFFFFFF ⟨false, none⟩ ⟨false, none⟩] := by
  intro h
  have hlast := h.last (rfl : run (step compareNumbers) (init 4 4 0 : State ℕ ℕ) _ = some _)
  exact absurd hlast.defined (by decide)

end SKeyedVector

end OpenBinder
