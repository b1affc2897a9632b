import OpenBinder.Inform.Informant

/-!
# Registrations are found where they are looked for

The search for a registration ends at an equal one, if it ends at one; it ends at the registration
if what is compared on the way stands on the right side. A change of the registrations of a key is
one of the others of the key, and none of those of other keys.

* `InformList.add_cases`, `InformList.remove_cases`: what `Add` and `Remove` do.
* `getOrderOf_same`, `getOrderOf_reached`: what is found.
* `BInformant.cookie_callArgs`, `BInformant.message_callMessage`: what a call is made with.
-/

namespace OpenBinder

open Lib

namespace CallbackInfo

variable {gone : List (BitVec 32)} {infos : List CallbackInfo} {info r : CallbackInfo}

theorem Same.refl (info : CallbackInfo) : info.Same info := ⟨rfl, rfl, SValue.Equal.refl _⟩

theorem Same.symm (h : r.Same info) : info.Same r := ⟨h.1.symm, h.2.1.symm, h.2.2.symm⟩

theorem Same.isWeak (h : r.Same info) : r.isWeak = info.isWeak := by
  unfold CallbackInfo.isWeak
  rw [h.2.1]

theorem Same.target (h : r.Same info) : r.target gone = info.target gone := by
  unfold CallbackInfo.target
  rw [h.isWeak, h.1]

/-- What compares equal has the flags, the method and, as it is found now, the target. -/
theorem compare_eq_iff : info.compare gone r = .eq ↔
    info.mFlags = r.mFlags ∧ info.target gone = r.target gone ∧ info.mMethod.Equal r.mMethod := by
  have hword : ∀ a b : BitVec 32, cmpInt a.toNat b.toNat = .eq ↔ a = b := by
    intro a b
    rw [cmpInt_eq_iff]
    exact ⟨fun h => BitVec.eq_of_toNat_eq (by exact_mod_cast h), fun h => by rw [h]⟩
  unfold CallbackInfo.compare
  rw [Ordering.then_eq_eq, Ordering.then_eq_eq, hword, hword]
  rfl

/-- The target of a registration that is not `NULL` is the one of the pointer. -/
theorem target_eq_self (h : info.mTarget ∉ gone) : info.target gone = info.mTarget := by
  simp [target, h]

theorem target_ne_zero (h : info.target gone ≠ 0) : info.target gone = info.mTarget := by
  unfold target at h ⊢
  split at h
  · exact absurd rfl h
  · rename_i hcond
    rw [if_neg hcond]

theorem target_eq_zero (h : info.target gone = 0) :
    info.mTarget = 0 ∨ info.isWeak = true ∧ info.mTarget ∈ gone := by
  unfold target at h
  split at h
  · rename_i hcond
    rw [Bool.and_eq_true, decide_eq_true_eq] at hcond
    exact .inr hcond
  · exact .inl h

theorem target_zero (h : info.mTarget = 0 ∨ info.isWeak = true ∧ info.mTarget ∈ gone) :
    info.target gone = 0 := by
  unfold target
  rcases h with h | ⟨hweak, hmem⟩
  · rw [h, ite_self]
  · rw [if_pos (by rw [hweak, decide_eq_true hmem]; rfl)]

theorem verdict_eq_iff {i : ℕ} : verdict gone infos info i = .eq ↔
    ∃ r, infos[i]? = some r ∧ info.compare gone r = .eq := by
  unfold verdict
  cases infos[i]? with
  | none => simp
  | some r => simp

theorem getOrderOf_hit (h : (getOrderOf gone infos info).1 = true) :
    ∃ r, infos[(getOrderOf gone infos info).2]? = some r ∧ info.compare gone r = .eq :=
  verdict_eq_iff.1 ((bisect_within _ _ _ (Nat.zero_le _)).2.2 h).2

theorem getOrderOf_le : (getOrderOf gone infos info).2 ≤ infos.length :=
  (bisect_within _ _ _ (Nat.zero_le _)).2.1

/-- **The search for a target that is there ends at its registration**, if it ends at one. -/
theorem getOrderOf_same (h : (getOrderOf gone infos info).1 = true) (hgone : info.mTarget ∉ gone)
    (hne : info.mTarget ≠ 0) :
    ∃ r, infos[(getOrderOf gone infos info).2]? = some r ∧ r.Same info := by
  obtain ⟨r, hr, hcmp⟩ := getOrderOf_hit h
  obtain ⟨hflags, htarget, hmethod⟩ := compare_eq_iff.1 hcmp
  rw [target_eq_self hgone] at htarget
  have hr' : r.target gone = r.mTarget := target_ne_zero (htarget ▸ hne)
  exact ⟨r, hr, hr'.symm.trans htarget.symm, hflags.symm, hmethod.symm⟩

theorem getOrderOf_reached {i : ℕ} (hi : infos[i]? = some r) (hsame : r.Same info)
    (hlead : Leads (verdict gone infos info) i infos.length 0 infos.length) :
    getOrderOf gone infos info = (true, i) := by
  have heq : verdict gone infos info i = .eq :=
    verdict_eq_iff.2 ⟨r, hi, compare_eq_iff.2 ⟨hsame.2.1.symm, hsame.target.symm, hsame.2.2.symm⟩⟩
  exact (bisect_eq_iff heq _ _ _ (Nat.le_refl _) (Nat.zero_le i)
    (List.getElem?_eq_some_iff.1 hi).1).2 hlead

end CallbackInfo

namespace InformList

open CallbackInfo

variable {gone : List (BitVec 32)} {l : InformList} {key : SValue} {info : CallbackInfo}

theorem find_set (key' : SValue) (infos : List CallbackInfo) :
    InformList.find ⟨l.mList.add key.code infos⟩ key' =
      if key'.code = key.code then infos else l.find key' := by
  unfold find
  rw [Keyed.valueFor_add]
  split <;> rfl

theorem find_erase (key' : SValue) : InformList.find ⟨l.mList.remove key.code⟩ key' =
    if key'.code = key.code then [] else l.find key' := by
  unfold find
  rw [Keyed.valueFor_remove]
  split <;> rfl

theorem perm_infos (l : InformList) (key : SValue) :
    l.infos.Perm (l.find key ++ InformList.infos ⟨l.mList.remove key.code⟩) := by
  unfold infos find
  cases h : l.mList.valueFor key.code with
  | none => rw [Keyed.remove_of_none h, Option.getD_none, List.nil_append]
  | some infos =>
    have hperm := (Keyed.perm_of_valueFor h).flatMap_right Prod.snd
    rwa [List.flatMap_cons] at hperm

theorem perm_set (l : InformList) (key : SValue) (infos : List CallbackInfo) :
    (InformList.infos ⟨l.mList.add key.code infos⟩).Perm
      (infos ++ InformList.infos ⟨l.mList.remove key.code⟩) := by
  have hperm := (Keyed.perm_add l.mList key.code infos).flatMap_right Prod.snd
  rwa [List.flatMap_cons] at hperm

section

variable (gone l key info)

theorem add_cases (infoOk keyOk : Bool) : (getOrderOf gone (l.find key) info).1 = true ∧
        l.add gone key info infoOk keyOk = (l, nameInUse) ∨
      (getOrderOf gone (l.find key) info).1 = false ∧ (infoOk && keyOk) = false ∧
        l.add gone key info infoOk keyOk = (l, noMemory) ∨
      (getOrderOf gone (l.find key) info).1 = false ∧
        l.add gone key info infoOk keyOk = (⟨l.mList.add key.code ((l.find key).insertIdx
          (getOrderOf gone (l.find key) info).2 info)⟩, 0) := by
  unfold add find
  cases l.mList.valueFor key.code with
  | none =>
    -- the vector of a new key is searched for nothing
    have hnew : getOrderOf gone [] info = (false, 0) := rfl
    rw [Option.getD_none, hnew]
    cases hok : infoOk && keyOk
    · exact .inr (.inl ⟨rfl, rfl, rfl⟩)
    · exact .inr (.inr ⟨rfl, rfl⟩)
  | some registered =>
    rw [Option.getD_some]
    dsimp only
    cases hhit : (getOrderOf gone registered info).1 with
    | true => exact .inl ⟨rfl, rfl⟩
    | false =>
      cases infoOk with
      | false => exact .inr (.inl ⟨rfl, rfl, rfl⟩)
      | true => exact .inr (.inr ⟨rfl, rfl⟩)

theorem remove_cases : ∃ left, ((l.remove gone key info).1.infos.Perm
        (left ++ InformList.infos ⟨l.mList.remove key.code⟩)) ∧
      (∀ key' : SValue, (l.remove gone key info).1.find key' =
        if key'.code = key.code then left else l.find key') ∧
      ((getOrderOf gone (l.find key) info).1 = false ∧ left = l.find key ∧
          (l.remove gone key info).2 = none ∨
        ∃ r, (getOrderOf gone (l.find key) info).1 = true ∧
          (l.find key)[(getOrderOf gone (l.find key) info).2]? = some r ∧
          left = (l.find key).eraseIdx (getOrderOf gone (l.find key) info).2 ∧
          (l.remove gone key info).2 = some r) := by
  cases hvalue : l.mList.valueFor key.code with
  | none =>
    have hfind : l.find key = [] := by rw [find, hvalue]; rfl
    have hremove : l.remove gone key info = (l, none) := by rw [remove, hvalue]
    rw [hremove, hfind]
    refine ⟨[], ?_, ?_, .inl ⟨rfl, rfl, rfl⟩⟩
    · rw [Keyed.remove_of_none hvalue]
      exact List.Perm.refl _
    · intro key'
      split
      · rename_i hkey
        rw [find, hkey, hvalue]
        rfl
      · rfl
  | some infos =>
    have hfind : l.find key = infos := by rw [find, hvalue]; rfl
    rw [hfind]
    have hset : ∀ left : List CallbackInfo,
        (InformList.infos ⟨if left.isEmpty then l.mList.remove key.code
          else l.mList.add key.code left⟩).Perm
            (left ++ InformList.infos ⟨l.mList.remove key.code⟩) ∧
          ∀ key' : SValue, InformList.find ⟨if left.isEmpty then l.mList.remove key.code
            else l.mList.add key.code left⟩ key' =
              if key'.code = key.code then left else l.find key' := by
      intro left
      cases left with
      | nil => exact ⟨List.Perm.refl _, fun key' => find_erase key'⟩
      | cons a left => exact ⟨perm_set l key (a :: left), fun key' => find_set key' (a :: left)⟩
    unfold remove
    rw [hvalue]
    dsimp only
    cases hhit : (getOrderOf gone infos info).1 with
    | false => exact ⟨infos, (hset infos).1, (hset infos).2, .inl ⟨rfl, rfl, rfl⟩⟩
    | true =>
      obtain ⟨r, hr, -⟩ := getOrderOf_hit hhit
      exact ⟨_, (hset _).1, (hset _).2, .inr ⟨r, rfl, hr, rfl, hr⟩⟩

end

end InformList

namespace SValue

theorem binder_ofBinder (t : BitVec 32) : (ofBinder t).binder = t := by
  have htype : isSmallObject (packSmallType (unpackTypeCode kPackedLargeBinderType) 4) = true := by
    decide
  have hstrong : ∀ cookie : BitVec 32, FlatBinder.isStrong ⟨packLargeType (unpackTypeCode
      (packSmallType (unpackTypeCode kPackedLargeBinderType) 4)), t, cookie⟩ = true := by
    intro cookie
    unfold FlatBinder.isStrong
    exact (by decide : (packLargeType (unpackTypeCode
      (packSmallType (unpackTypeCode kPackedLargeBinderType) 4)) == kPackedLargeBinderType ||
        packLargeType (unpackTypeCode (packSmallType (unpackTypeCode kPackedLargeBinderType) 4)) ==
          kPackedLargeBinderHandleType) = true)
  simp only [binder, toObject, ofBinder, object, htype, if_true, hstrong]

theorem binder_of_equal {v : SValue} {t : BitVec 32} (h : v.Equal (ofBinder t)) : v.binder = t := by
  obtain ⟨data, rfl⟩ := Equal.small h.symm
  have hlen : unpackTypeLength (packSmallType (unpackTypeCode kPackedLargeBinderType) 4) = 4 := by
    decide
  obtain rfl : data = t := word_of_code hlen h.code
  exact binder_ofBinder data

theorem isError_ofBinder (t : BitVec 32) : (ofBinder t).isError = false :=
  (by decide : (packSmallType (unpackTypeCode kPackedLargeBinderType) 4 == kErrorTypeCode) = false)

theorem withItem_argued {this v : SValue} {n : BitVec 32} (h : this.IsArguments)
    (habs : this.Absent (int32 n)) (hv : v.isError = false) :
    Argued this (int32 n) v (this.withItem n v) := by
  obtain ⟨r, hr, hargued⟩ := h.joinItem (isKey_int32 n) habs hv
  rw [withItem, hr]
  exact hargued

end SValue

namespace BInformant

open SValue

/-- **The arguments of a call have the cookie**, and an error only if the cookie is one. -/
theorem cookie_callArgs {information cookie key : SValue} (hinfo : information.isError = false)
    (hkey : key.isError = false) :
    ((callArgs information cookie key).valueFor (.int32 1)).Equal cookie ∧
      (cookie.isError = false → (callArgs information cookie key).isError = false) := by
  obtain ⟨r, hr, hone⟩ := initAsMap_argued (isKey_int32 0) hinfo
  have hmade : (initAsMap Flags.none (int32 0) information).getD undefined = r := by rw [hr]; rfl
  unfold callArgs
  rw [hmade]
  have habs1 : r.Absent (int32 1) :=
    hone.absent _ (isKey_int32 1) (int32_code_ne (by decide)) (absent_undefined _)
  have habs2 : r.Absent (int32 2) :=
    hone.absent _ (isKey_int32 2) (int32_code_ne (by decide)) (absent_undefined _)
  by_cases hcookie : cookie.isError = true
  · -- an error is all that there is then
    have hfinal : r.isFinal = false := by
      rw [isFinal, hone.arguments.wild, hone.arguments.error]
      rfl
    have herror : r.withItem 1 cookie = cookie := by
      rw [withItem, joinItem_isError hfinal (isKey_int32 1) hcookie]
      rfl
    have hrest : cookie.withItem 2 key = cookie := by
      have hstop : cookie.isFinal = true := by rw [isFinal, hcookie, Bool.or_true]
      simp [withItem, joinItem, joinItemWith, hstop]
    rw [herror, hrest, valueFor_isError (isKey_int32 1) hcookie]
    exact ⟨Equal.refl _, fun h => absurd hcookie (by rw [h]; decide)⟩
  · have htwo := withItem_argued hone.arguments habs1 (v := cookie) (by simpa using hcookie)
    have habs3 := htwo.absent _ (isKey_int32 2) (int32_code_ne (by decide)) habs2
    have hthree := withItem_argued htwo.arguments habs3 hkey
    rw [hthree.others _ (isKey_int32 1) (int32_code_ne (by decide))]
    exact ⟨htwo.value, fun _ => hthree.arguments.error⟩

/-- **The message of a call** has the target, the method and the arguments. -/
theorem message_callMessage {target : BitVec 32} {method args : SValue}
    (hmethod : method.isError = false) (hargs : args.isError = false) :
    ((callMessage target method args).valueFor (.int32 0)).binder = target ∧
      ((callMessage target method args).valueFor (.int32 1)).Equal method ∧
      ((callMessage target method args).valueFor (.int32 2)).Equal args := by
  have hone := withItem_argued isArguments_undefined (absent_undefined _) (n := 0)
    (isError_ofBinder target)
  have habs1 := hone.absent _ (isKey_int32 1) (int32_code_ne (by decide)) (absent_undefined _)
  have habs2 := hone.absent _ (isKey_int32 2) (int32_code_ne (by decide)) (absent_undefined _)
  have htwo := withItem_argued hone.arguments habs1 hmethod
  have habs3 := htwo.absent _ (isKey_int32 2) (int32_code_ne (by decide)) habs2
  have hthree := withItem_argued htwo.arguments habs3 hargs
  unfold callMessage
  refine ⟨binder_of_equal ?_, ?_, hthree.value⟩
  · rw [hthree.others _ (isKey_int32 0) (int32_code_ne (by decide)),
      htwo.others _ (isKey_int32 0) (int32_code_ne (by decide))]
    exact hone.value
  · rw [hthree.others _ (isKey_int32 1) (int32_code_ne (by decide))]
    exact htwo.value

end BInformant

end OpenBinder
