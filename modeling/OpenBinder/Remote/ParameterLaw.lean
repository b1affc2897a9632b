import OpenBinder.Remote.Parameter

/-!
# Values of the same bytes

* `equal_small`: small data is compared by the bytes that it has.
* `equal_of_bytes`: values of one type and the same bytes are equal.
-/

namespace OpenBinder.SValue

open Lib

theorem localBytes_eq (data : BitVec 32) {n : ℕ} (h : n ≤ 4) :
    localBytes data n = ((wordBytes data).take n).map fun b => (b.toNat : ℤ) := by
  have hbyte : ∀ i, (((data.toNat / 256 ^ i % 256 : ℕ) : ℕ) : ℤ) =
      ((data.extractLsb' (8 * i) 8).toNat : ℤ) := by
    intro i
    rw [BitVec.extractLsb'_toNat, Nat.shiftRight_eq_div_pow, Nat.pow_mul]
  have hword : wordBytes data = (List.range 4).map fun i => data.extractLsb' (8 * i) 8 := rfl
  have hfour : localBytes data 4 = (wordBytes data).map fun b => (b.toNat : ℤ) := by
    rw [hword, List.map_map]
    exact List.map_congr_left fun i _ => hbyte i
  have hrange : List.range n = (List.range 4).take n := by
    rw [List.take_range, Nat.min_eq_left h]
  unfold localBytes at hfour ⊢
  rw [hrange, List.map_take, hfour, List.map_take]

theorem equal_small {type : SmallType} {data data' : BitVec 32}
    (h : (wordBytes data).take (unpackTypeLength type.1) =
      (wordBytes data').take (unpackTypeLength type.1)) :
    (small type data).Equal (small type data') := by
  apply equal_of_code
  rw [code, code]
  unfold localKey
  split
  · rename_i h4
    rw [h4, List.take_of_length_le (wordBytes_length _).le,
      List.take_of_length_le (wordBytes_length _).le] at h
    have hdata := congrArg wordOf h
    rw [wordOf_wordBytes, wordOf_wordBytes] at hdata
    rw [hdata]
  · rw [localBytes_eq data type.2, localBytes_eq data' type.2, h]

theorem mType_ofBytes (type : BitVec 32) (b : List Byte) : (ofBytes type b).mType =
    if b.length ≤ typeLengthMax then packSmallType type b.length else packLargeType type := by
  unfold ofBytes
  split <;> rfl

theorem equal_of_bytes {v w : SValue} {b : List Byte} (htype : v.mType = w.mType)
    (hv : v.bytes = some b) (hw : w.bytes = some b) : v.Equal w := by
  cases v with
  | small type data =>
    cases w with
    | small type' data' =>
      obtain rfl : type = type' := Subtype.ext htype
      exact equal_small ((Option.some.inj hv).trans (Option.some.inj hw).symm)
    | large type' buffer => exact absurd htype (type.ne_large type')
    | map m => cases hw
  | large type buffer =>
    cases w with
    | small type' data => exact absurd htype.symm (type'.ne_large type)
    | large type' buffer' =>
      obtain rfl : type = type' := Subtype.ext htype
      obtain rfl : buffer = buffer' := (Option.some.inj hv).trans (Option.some.inj hw).symm
      exact Equal.refl _
    | map m => cases hw
  | map m => cases hv

end OpenBinder.SValue
