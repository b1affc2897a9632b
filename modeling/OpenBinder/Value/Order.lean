import Mathlib.Data.List.Forall2
import OpenBinder.Value.Basic

/-!
# `Compare` is a total order

Every value is written out as a code word (`SValue.code`) so that `Compare` is the
lexicographic order of code words (`compare_code`). Two values compare equal when
their code words are the same (`compare_eq_iff`), that is, up to the capacity and
the cached size of their tables and the unused bytes of `m_data.local`.

`compare_map` is the order of the **slots** of pairs (`compareMap_eq`): the slot of
a pair is its key, or, for a wild key, its value, marked to come just before the
equal key.
-/

namespace OpenBinder.SValue

open Lib

mutual

/-- The code word of a value: the type word and the data `Compare` looks at. -/
def code : SValue → List ℤ
  | small type data => type.1.toNat :: localKey (unpackTypeLength type.1) data
  | large type buffer => type.1.toNat :: buffer.length :: buffer.map fun b => (b.toNat : ℤ)
  | map ⟨_, _, maps⟩ => kMapTypeCode.toNat :: maps.length :: codeMaps maps

/-- The code words of the pairs of a table, one after the other. -/
def codeMaps : List Pair → List ℤ
  | [] => []
  | (k, v) :: rest => code k ++ (code v ++ codeMaps rest)

end

theorem localKey_length (n : ℕ) (data data' : BitVec 32) :
    (localKey n data).length = (localKey n data').length := by
  unfold localKey localBytes
  split <;> simp

theorem toNat_ne {s t : BitVec 32} (h : s ≠ t) : ((s.toNat : ℕ) : ℤ) ≠ (t.toNat : ℤ) := by
  intro he
  exact h (BitVec.eq_of_toNat_eq (by exact_mod_cast he))

theorem code_eq_cons (v : SValue) : ∃ rest, v.code = (v.mType.toNat : ℤ) :: rest := by
  cases v with
  | small type data => exact ⟨_, by rw [code]; rfl⟩
  | large type buffer => exact ⟨_, by rw [code]; rfl⟩
  | map m => obtain ⟨avail, dataSize, maps⟩ := m; exact ⟨_, by rw [code]; rfl⟩

variable {a b : SValue}

theorem codeCmp_of_mType_ne (h : a.mType ≠ b.mType) :
    CodeCmp (cmpInt a.mType.toNat b.mType.toNat) a.code b.code := by
  obtain ⟨x, hx⟩ := code_eq_cons a
  obtain ⟨y, hy⟩ := code_eq_cons b
  rw [hx, hy]
  exact CodeCmp.tag (toNat_ne h)

theorem codeMaps_cmp {maps : List Pair}
    (ih : ∀ p ∈ maps, (∀ b, CodeCmp (p.1.compare b) p.1.code b.code) ∧
      ∀ b, CodeCmp (p.2.compare b) p.2.code b.code) :
    ∀ maps', maps.length = maps'.length →
      CodeCmp (SValue.compareMaps maps maps') (codeMaps maps) (codeMaps maps') := by
  induction maps with
  | nil =>
    intro maps' h
    cases maps' with
    | nil => rw [codeMaps, SValue.compareMaps]; exact CodeCmp.nil; simp
    | cons _ _ => simp at h
  | cons p maps ihl =>
    intro maps' h
    cases maps' with
    | nil => simp at h
    | cons q maps' =>
      obtain ⟨k, v⟩ := p
      obtain ⟨k', v'⟩ := q
      rw [codeMaps, codeMaps, SValue.compareMaps]
      obtain ⟨hk, hv⟩ := ih (k, v) List.mem_cons_self
      exact (hk k').append ((hv v').append
        (ihl (fun p hp => ih p (List.mem_cons_of_mem _ hp)) maps' (by simpa using h)))

/-- **`Compare` compares code words.** -/
theorem compare_codeCmp : ∀ a b : SValue, CodeCmp (a.compare b) a.code b.code := by
  intro a
  induction a using SValue.ind with
  | small type data =>
    intro b
    cases b with
    | small type' data' =>
      rw [SValue.compare, code, code]
      refine CodeCmp.cons _ _ fun h => ?_
      have : type.1 = type'.1 := BitVec.eq_of_toNat_eq (by exact_mod_cast h)
      rw [this]
      exact CodeCmp.of_length (localKey_length _ _ _)
    | large type' buffer' =>
      rw [SValue.compare]
      · exact codeCmp_of_mType_ne (a := small type data) (b := large type' buffer')
          (type.ne_large type')
      all_goals simp
    | map m => rw [SValue.compare]; exact codeCmp_of_mType_ne type.ne_map; all_goals simp
  | large type buffer =>
    intro b
    cases b with
    | small type' data' =>
      rw [SValue.compare]
      · exact codeCmp_of_mType_ne (a := large type buffer) (b := small type' data')
          (type'.ne_large type).symm
      all_goals simp
    | large type' buffer' =>
      rw [SValue.compare, code, code]
      refine CodeCmp.cons _ _ fun _ => CodeCmp.cons _ _ fun h => CodeCmp.of_length ?_
      simpa using h
    | map m => rw [SValue.compare]; exact codeCmp_of_mType_ne type.ne_map; all_goals simp
  | map m ih =>
    intro b
    obtain ⟨avail, dataSize, maps⟩ := m
    cases b with
    | small type' data' =>
      rw [SValue.compare]
      · exact codeCmp_of_mType_ne (b := small type' data') type'.ne_map.symm
      all_goals simp
    | large type' buffer' =>
      rw [SValue.compare]
      · exact codeCmp_of_mType_ne (b := large type' buffer') type'.ne_map.symm
      all_goals simp
    | map m' =>
      obtain ⟨avail', dataSize', maps'⟩ := m'
      rw [SValue.compare, code, code]
      have h := CodeCmp.cons (kMapTypeCode.toNat : ℤ) kMapTypeCode.toNat fun _ =>
        CodeCmp.cons (maps.length : ℤ) maps'.length fun h =>
          codeMaps_cmp ih maps' (by exact_mod_cast h)
      simpa using h

theorem compare_code (a b : SValue) : a.compare b = cmpCode a.code b.code :=
  (compare_codeCmp a b).eq

theorem compare_eq_iff : a.compare b = .eq ↔ a.code = b.code := by
  rw [compare_code, cmpCode_eq_iff]

@[simp] theorem compare_self (a : SValue) : a.compare a = .eq := compare_eq_iff.2 rfl

instance : Std.TransCmp SValue.compare where
  eq_swap := by
    intro a b
    rw [compare_code, compare_code b]
    exact Std.OrientedCmp.eq_swap
  isLE_trans := by
    intro a b c
    simp only [compare_code]
    exact Std.TransCmp.isLE_trans

theorem mType_eq_of_code (h : a.code = b.code) : a.mType = b.mType := by
  obtain ⟨x, hx⟩ := code_eq_cons a
  obtain ⟨y, hy⟩ := code_eq_cons b
  rw [hx, hy] at h
  exact BitVec.eq_of_toNat_eq (by exact_mod_cast (List.cons.inj h).1)

theorem compare_of_mType_ne (h : a.mType ≠ b.mType) :
    a.compare b = cmpInt a.mType.toNat b.mType.toNat := by
  rw [compare_code]
  exact (codeCmp_of_mType_ne h).eq.symm

theorem compareMaps_eq : ∀ l l' : List Pair, l.length = l'.length →
    SValue.compareMaps l l' = .eq →
    List.Forall₂ (fun p q => p.1.code = q.1.code ∧ p.2.code = q.2.code) l l'
  | [], [], _, _ => List.Forall₂.nil
  | [], _ :: _, h, _ => by simp at h
  | _ :: _, [], h, _ => by simp at h
  | (k, v) :: l, (k', v') :: l', hlen, h => by
    rw [SValue.compareMaps, Ordering.then_eq_eq, Ordering.then_eq_eq] at h
    exact List.Forall₂.cons ⟨compare_eq_iff.1 h.1, compare_eq_iff.1 h.2.1⟩
      (compareMaps_eq l l' (by simpa using hlen) h.2.2)

theorem code_length_lt {maps : List Pair} {p : Pair} (h : p ∈ maps) (avail : ℕ)
    (dataSize : Option ℕ) :
    p.1.code.length < (map ⟨avail, dataSize, maps⟩ : SValue).code.length ∧
      p.2.code.length < (map ⟨avail, dataSize, maps⟩ : SValue).code.length := by
  have hmaps : p.1.code.length ≤ (codeMaps maps).length ∧
      p.2.code.length ≤ (codeMaps maps).length := by
    induction maps with
    | nil => cases h
    | cons q maps ih =>
      rw [codeMaps, List.length_append, List.length_append]
      rcases List.mem_cons.1 h with rfl | h
      · exact ⟨Nat.le_add_right _ _, (Nat.le_add_right _ _).trans (Nat.le_add_left _ _)⟩
      · have := ih h
        exact ⟨by omega, by omega⟩
  rw [code, List.length_cons, List.length_cons]
  exact ⟨by omega, by omega⟩

theorem getElem?_of_forall₂ {α β : Type} {R : α → β → Prop} {l : List α} {l' : List β}
    (h : List.Forall₂ R l l') : ∀ i : ℕ, l[i]? = none ∧ l'[i]? = none ∨
      ∃ a b, l[i]? = some a ∧ l'[i]? = some b ∧ R a b := by
  induction h with
  | nil => exact fun i => .inl ⟨rfl, rfl⟩
  | @cons a b l l' hab _ ih =>
    intro i
    cases i with
    | zero => exact .inr ⟨a, b, rfl, rfl, hab⟩
    | succ i => exact ih i

theorem codeMaps_of_forall₂ {l l' : List Pair}
    (h : List.Forall₂ (fun p q => p.1.code = q.1.code ∧ p.2.code = q.2.code) l l') :
    codeMaps l = codeMaps l' := by
  induction h with
  | nil => rfl
  | @cons p q l l' hpq _ ih =>
    rw [codeMaps, codeMaps, hpq.1, hpq.2, ih]

theorem forall₂_of_code {m m' : BValueMap SValue} (h : (map m).code = (map m').code) :
    List.Forall₂ (fun p q => p.1.code = q.1.code ∧ p.2.code = q.2.code) m.maps m'.maps := by
  have hcmp := compare_eq_iff.2 h
  obtain ⟨avail, dataSize, maps⟩ := m
  obtain ⟨avail', dataSize', maps'⟩ := m'
  rw [SValue.compare, Ordering.then_eq_eq, cmpInt_eq_iff] at hcmp
  exact compareMaps_eq maps maps' (by exact_mod_cast hcmp.1) hcmp.2

theorem code_of_forall₂ {m m' : BValueMap SValue}
    (h : List.Forall₂ (fun p q => p.1.code = q.1.code ∧ p.2.code = q.2.code) m.maps m'.maps) :
    (map m).code = (map m').code := by
  rw [code, code, codeMaps_of_forall₂ h, h.length_eq]

end OpenBinder.SValue
