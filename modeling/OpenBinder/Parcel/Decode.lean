import OpenBinder.Parcel.ArchiveLaw

/-!
# Archives can be told apart

What `Archive` appends ends where it says, so that values archived back to back come apart in one
way only.

* `code_of_append`: of two values whose bytes begin the same way, each is equal to the other.
* `archiveAll_decodable`: an archive goes on where another one ends only with more values.
-/

namespace OpenBinder.SValue

open Lib List

variable {v w : SValue} {r r' : List Byte}

theorem wireBytes_ne_nil (v : SValue) : v.wireBytes ≠ [] := by
  cases v <;> simp [wireBytes, mapHeader, wordBytes]

/-- **Bytes that are read are those of one value.** -/
theorem code_of_append (hv : v.Plain) (hvu : v.isUnambiguous = true) (hw : w.Plain)
    (hwu : w.isUnambiguous = true) (heq : v.wireBytes ++ r = w.wireBytes ++ r')
    (hlt : v.wireSize + r.length < 2 ^ 31) : v.code = w.code ∧ r = r' := by
  let source : SParcel := ⟨v.wireBytes ++ r, 0, 0, []⟩
  have hlen : source.length < 2 ^ 31 := by
    simp only [source, SParcel.length, length_append]
    exact_mod_cast hlt
  have hat : source.At v.wireBytes r := ⟨le_rfl, Int.natCast_nonneg _, hlen, rfl⟩
  have hat' : source.At w.wireBytes r' := ⟨le_rfl, Int.natCast_nonneg _, hlen, heq⟩
  -- one reader, which comes back with both of them
  obtain ⟨v', hv', hcode⟩ := (reads_unarchive hv hat).1 hvu
  obtain ⟨w', hw', hcode'⟩ := (reads_unarchive hw hat').1 hwu
  rw [hv', Except.ok.injEq, Prod.mk.injEq, Prod.mk.injEq] at hw'
  obtain ⟨rfl, hsize, -⟩ := hw'
  exact ⟨hcode.symm.trans hcode', (append_inj heq (by exact_mod_cast hsize)).2⟩

theorem forall₂_of_prefix : ∀ {vs ws : List SValue}, (∀ v ∈ vs, v.Plain ∧ v.isUnambiguous = true) →
    (∀ w ∈ ws, w.Plain ∧ w.isUnambiguous = true) → (ws.map wireSize).sum < 2 ^ 31 →
    vs.flatMap wireBytes <+: ws.flatMap wireBytes →
    ∃ front, front <+: ws ∧ Forall₂ (fun v w => v.compare w = .eq) vs front := by
  intro vs
  induction vs with
  | nil => exact fun _ _ _ _ => ⟨[], nil_prefix, Forall₂.nil⟩
  | cons v vs ih =>
    intro ws hvs hws hlt hpre
    obtain ⟨hv, hvu⟩ := hvs v mem_cons_self
    obtain ⟨t, ht⟩ := hpre
    cases ws with
    | nil =>
      simp only [flatMap_cons, flatMap_nil, append_assoc, append_eq_nil_iff] at ht
      exact absurd ht.1 v.wireBytes_ne_nil
    | cons w ws =>
      obtain ⟨hw, hwu⟩ := hws w mem_cons_self
      simp only [flatMap_cons, append_assoc] at ht
      have hsum := flatMap_wireBytes_length ws
      rw [map_cons, sum_cons] at hlt
      obtain ⟨hcode, hrest⟩ := code_of_append hw hwu hv hvu ht.symm (by omega)
      obtain ⟨front, hfront, hall⟩ := ih (fun v hv => hvs v (mem_cons_of_mem _ hv))
        (fun w hw => hws w (mem_cons_of_mem _ hw)) (by omega) ⟨t, hrest.symm⟩
      exact ⟨w :: front, cons_prefix_cons.2 ⟨rfl, hfront⟩,
        Forall₂.cons (compare_eq_iff.2 hcode.symm) hall⟩

/-- **Archives are uniquely decodable**: if values archived back to back are the beginning of what
other values are archived to, the first of those are equal to them. -/
theorem archiveAll_decodable (flat : BitVec 32 → BitVec 32 → BitVec 32 × BitVec 32)
    {vs ws : List SValue} {into written written' : SParcel}
    (hvs : ∀ v ∈ vs, v.Plain ∧ v.isUnambiguous = true)
    (hws : ∀ w ∈ ws, w.Plain ∧ w.isUnambiguous = true) (hend : into.AtEnd)
    (hlt : into.length + (vs.map wireSize).sum < 2 ^ 31)
    (hlt' : into.length + (ws.map wireSize).sum < 2 ^ 31)
    (hv : archiveAll flat vs into = .ok written) (hw : archiveAll flat ws into = .ok written')
    (hpre : written.data <+: written'.data) :
    ∃ front, front <+: ws ∧ Forall₂ (fun v w => v.compare w = .eq) vs front := by
  obtain ⟨a, ha⟩ := archiveAll_spec flat vs into (fun v hv => (hvs v hv).1) hend hlt
  obtain ⟨b, hb⟩ := archiveAll_spec flat ws into (fun w hw => (hws w hw).1) hend hlt'
  obtain rfl := Except.ok.inj (ha.symm.trans hv)
  obtain rfl := Except.ok.inj (hb.symm.trans hw)
  have h0 : 0 ≤ into.length := Int.natCast_nonneg _
  exact forall₂_of_prefix hvs hws (by omega) ((prefix_append_right_inj into.data).1 hpre)

/-- One number, and two that begin with it. -/
theorem archiveAll_decodable_number : ∃ front, front <+: [int32 1, int32 2] ∧
    Forall₂ (fun v w => v.compare w = .eq) [int32 1] front := by
  have hplain : ∀ n, (int32 n).Plain ∧ (int32 n).isUnambiguous = true :=
    fun n => ⟨⟨rfl, rfl, rfl⟩, rfl⟩
  have hall : ∀ l : List ℤ, ∀ v ∈ l.map int32, v.Plain ∧ v.isUnambiguous = true := by
    intro l v hv
    obtain ⟨n, -, rfl⟩ := mem_map.1 hv
    exact hplain n
  exact @archiveAll_decodable keepObject _ _ ⟨[], 0, 64, []⟩ _ _ (hall [1]) (hall [1, 2]) rfl
    (by decide) (by decide) rfl rfl (by decide)

end OpenBinder.SValue
