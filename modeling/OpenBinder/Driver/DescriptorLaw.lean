import OpenBinder.Driver.Descriptors
import OpenBinder.Lib.Run

/-!
# The accounting of descriptors

`Kept` adds two things to `Sound`: every count is an `s32`, and nodes without a slot have no
reference. A call adds a reference to a slot (`Kept.add`), takes one away (`Kept.sub`), or makes a
new slot (`Kept.insert`).

* `descriptors_sound_iff`: every state of a run is sound exactly when no count is incremented at
  its maximum or decremented at zero, and `Node2Descriptor` adds a weak reference to a slot only
  if that has one.
-/

namespace OpenBinder

open Lib Function

variable {N : Type} [LinearOrder N] {bucket : N → ℕ}

section

variable (d : Descriptor N) (k : Bool)
include d k

@[simp] theorem Descriptor.add_node (c : ℤ) : (d.add k c).node = d.node := by
  unfold Descriptor.add
  split <;> rfl

@[simp] theorem Descriptor.add_count (c : ℤ) : (d.add k c).count k = ssize (d.count k + c) := by
  unfold Descriptor.add Descriptor.count
  cases k <;> rfl

@[simp] theorem Descriptor.add_count_not (c : ℤ) : (d.add k c).count (!k) = d.count (!k) := by
  unfold Descriptor.add Descriptor.count
  cases k <;> rfl

theorem Descriptor.forall_count (p : Bool → ℤ → Prop) :
    (∀ j, p j (d.count j)) ↔ p k (d.count k) ∧ p (!k) (d.count (!k)) := by
  cases k
  · exact ⟨fun h => ⟨h _, h _⟩, fun h j => by cases j; exacts [h.1, h.2]⟩
  · exact ⟨fun h => ⟨h _, h _⟩, fun h j => by cases j; exacts [h.2, h.1]⟩

end

theorem Descriptor.count_one (n : N) (strong k : Bool) :
    (Descriptor.mk n (if strong then 1 else 0) (if strong then 0 else 1)).count k =
      if k = strong then 1 else 0 := by
  cases k <;> cases strong <;> rfl

namespace Descriptors

omit [LinearOrder N]

variable {t : Descriptors N} {i : ℕ} {d : Descriptor N}

theorem slot_eq_some : t.slot i = some d ↔ t.slots[i]? = some (some d) := by
  unfold slot
  exact Option.join_eq_some_iff

theorem slot_set (h : t.slot i = some d) (d' : Descriptor N) (j : ℕ) :
    (t.set i d').slot j = if j = i then some d' else t.slot j := by
  have hi : i < t.slots.length := (List.getElem?_eq_some_iff.1 (slot_eq_some.1 h)).1
  unfold slot set
  by_cases hj : j = i
  · rw [if_pos hj, hj, List.getElem?_set_self hi]
    rfl
  · rw [if_neg hj, List.getElem?_set_ne (Ne.symm hj)]

theorem at?_eq_some {handle : ℤ} (h : t.at? handle = some (i, d)) : t.slot i = some d := by
  unfold at? at h
  split at h
  · obtain ⟨d', hd, he⟩ := Option.map_eq_some_iff.1 h
    cases he
    exact hd
  · cases h

theorem at?_succ (h : t.slot i = some d) : t.at? ((i : ℤ) + 1) = some (i, d) := by
  unfold at?
  rw [if_pos (by omega), show ((i : ℤ) + 1 - 1).toNat = i by omega, h]
  rfl

theorem room_spec (t : Descriptors N) : t.room.1 < t.room.2.length ∧ t.slot t.room.1 = none ∧
    ∀ j, j ≠ t.room.1 → (t.room.2[j]?).join = t.slot j := by
  unfold room slot
  split
  · rename_i i hi
    obtain ⟨hlt, hnone, -⟩ := List.findIdx?_eq_some_iff_getElem.1 hi
    refine ⟨hlt, ?_, fun j _ => rfl⟩
    rw [List.getElem?_eq_getElem hlt]
    simpa using hnone
  · dsimp only
    refine ⟨?_, ?_, fun j hj => ?_⟩
    · rw [List.length_append, List.length_replicate]
      split <;> omega
    · rw [List.getElem?_eq_none (le_refl _)]
      rfl
    · rw [List.getElem?_append]
      split
      · rfl
      · rename_i hge
        rw [List.getElem?_eq_none (Nat.le_of_not_lt hge), List.getElem?_replicate]
        split <;> split <;> rfl

end Descriptors

namespace Holdings

variable {s : Holdings N} {i : ℕ} {d : Descriptor N}

/-- **The whole invariant.** -/
structure Kept (bucket : N → ℕ) (s : Holdings N) : Prop where
  sound : s.Sound bucket
  lt : ∀ i d, s.table.slot i = some d → ∀ k, d.count k < 2 ^ 31
  absent : ∀ n, (∀ i d, s.table.slot i = some d → d.node ≠ n) → ∀ k, s.held k n = 0

variable {held' : Bool → N → ℤ} {handle : ℤ}

section

variable (h : s.Kept bucket)
include h

/-- **A slot changes its counts**, and the references on its node with them. -/
theorem Kept.set (hi : s.table.slot i = some d) {d' : Descriptor N} (hnode : d'.node = d.node)
    (hcount : ∀ k, 0 ≤ d'.count k) (hzero : ∃ k, d'.count k ≠ 0) (hlt : ∀ k, d'.count k < 2 ^ 31)
    (hself : ∀ k, held' k d.node = if 0 < d'.count k then 1 else 0)
    (hother : ∀ k m, m ≠ d.node → held' k m = s.held k m) :
    Kept bucket ⟨s.table.set i d', held'⟩ := by
  have hslot := fun j => Descriptors.slot_set hi d' j
  -- a slot after it is the one that changed, or another one with another node
  have hcases : ∀ j e, (s.table.set i d').slot j = some e →
      (j = i ∧ e = d') ∨ (j ≠ i ∧ s.table.slot j = some e ∧ e.node ≠ d.node) := by
    intro j e he
    rw [hslot] at he
    by_cases hj : j = i
    · rw [if_pos hj] at he
      exact .inl ⟨hj, (Option.some.inj he).symm⟩
    · rw [if_neg hj] at he
      exact .inr ⟨hj, he, fun hn => hj (h.sound.unique _ _ _ _ he hi hn)⟩
  have hnodes : ∀ j n, (∃ e, (s.table.set i d').slot j = some e ∧ e.node = n) ↔
      ∃ e, s.table.slot j = some e ∧ e.node = n := by
    intro j n
    rw [hslot]
    by_cases hj : j = i
    · subst hj
      rw [if_pos rfl, hi]
      simp [hnode]
    · rw [if_neg hj]
  refine ⟨⟨?_, ?_, ?_, h.sound.sorted, fun b n j => ?_⟩, ?_, ?_⟩
  · intro j e he
    rcases hcases j e he with ⟨-, rfl⟩ | ⟨-, he, -⟩
    · exact ⟨hcount, hzero⟩
    · exact h.sound.count j e he
  · intro j e he k
    rcases hcases j e he with ⟨-, rfl⟩ | ⟨-, he, hn⟩
    · rw [hnode]
      exact hself k
    · exact (hother k _ hn).trans (h.sound.held j e he k)
  · intro j j' e e' he he' hn
    rcases hcases j e he with ⟨rfl, rfl⟩ | ⟨-, he, hne⟩ <;>
      rcases hcases j' e' he' with ⟨rfl, rfl⟩ | ⟨-, he', hne'⟩
    · rfl
    · exact absurd (hn.symm.trans hnode) hne'
    · exact absurd (hn.trans hnode) hne
    · exact h.sound.unique _ _ _ _ he he' hn
  · exact (h.sound.hash b n j).trans (and_congr_right fun _ => (hnodes j n).symm)
  · intro j e he
    rcases hcases j e he with ⟨-, rfl⟩ | ⟨-, he, -⟩
    · exact hlt
    · exact h.lt j e he
  · intro n hn k
    have hne : n ≠ d.node := by
      rintro rfl
      exact hn i d' (by rw [hslot, if_pos rfl]) hnode
    refine (hother k n hne).trans (h.absent n (fun j e he heq => ?_) k)
    obtain ⟨e', he', hn'⟩ := (hnodes j n).2 ⟨e, he, heq⟩
    exact hn j e' he' hn'

/-- **A slot is given up**, and its node has no reference left. -/
theorem Kept.erase (hi : s.table.slot i = some d) (hself : ∀ k, held' k d.node = 0)
    (hother : ∀ k m, m ≠ d.node → held' k m = s.held k m) :
    Kept bucket ⟨s.table.erase bucket i d.node, held'⟩ := by
  have hlen : i < s.table.slots.length :=
    (List.getElem?_eq_some_iff.1 (Descriptors.slot_eq_some.1 hi)).1
  have hslot : ∀ j, (s.table.erase bucket i d.node).slot j =
      if j = i then none else s.table.slot j := by
    intro j
    unfold Descriptors.slot Descriptors.erase
    by_cases hj : j = i
    · rw [if_pos hj, hj, List.getElem?_set_self hlen]
      rfl
    · rw [if_neg hj, List.getElem?_set_ne (Ne.symm hj)]
  have hcases : ∀ j e, (s.table.erase bucket i d.node).slot j = some e →
      s.table.slot j = some e ∧ e.node ≠ d.node := by
    intro j e he
    rw [hslot] at he
    by_cases hj : j = i
    · rw [if_pos hj] at he
      cases he
    · rw [if_neg hj] at he
      exact ⟨he, fun hn => hj (h.sound.unique _ _ _ _ he hi hn)⟩
  refine ⟨⟨?_, ?_, ?_, fun b => ?_, fun b n j => ?_⟩, ?_, ?_⟩
  · exact fun j e he => h.sound.count j e (hcases j e he).1
  · intro j e he k
    obtain ⟨he, hn⟩ := hcases j e he
    exact (hother k _ hn).trans (h.sound.held j e he k)
  · exact fun j j' e e' he he' => h.sound.unique _ _ _ _ (hcases j e he).1 (hcases j' e' he').1
  · by_cases hb : b = bucket d.node
    · subst hb
      simp only [Descriptors.erase, update_self]
      exact (h.sound.sorted _).erase _
    · simp only [Descriptors.erase, update_of_ne hb]
      exact h.sound.sorted b
  · have hold := h.sound.hash b n j
    have hentry : (n, j) ∈ (s.table.erase bucket i d.node).hash b ↔
        (n, j) ∈ s.table.hash b ∧ n ≠ d.node := by
      by_cases hb : b = bucket d.node
      · subst hb
        simp only [Descriptors.erase, update_self]
        exact mem_chainErase (h.sound.sorted _)
      · simp only [Descriptors.erase, update_of_ne hb]
        refine ⟨fun hm => ⟨hm, ?_⟩, fun hm => hm.1⟩
        rintro rfl
        exact hb (hold.1 hm).1.symm
    rw [hentry, hold, hslot]
    constructor
    · rintro ⟨⟨hb, e, he, rfl⟩, hn⟩
      refine ⟨hb, e, ?_, rfl⟩
      rw [if_neg]
      · exact he
      · rintro rfl
        rw [hi] at he
        cases he
        exact hn rfl
    · rintro ⟨hb, e, he, rfl⟩
      rw [← hslot] at he
      obtain ⟨he, hn⟩ := hcases j e he
      exact ⟨⟨hb, e, he, rfl⟩, hn⟩
  · exact fun j e he => h.lt j e (hcases j e he).1
  · intro n hn k
    by_cases hne : n = d.node
    · rw [hne]
      exact hself k
    · refine (hother k n hne).trans (h.absent n (fun j e he heq => ?_) k)
      refine hn j e ?_ heq
      rw [hslot, if_neg]
      · exact he
      · rintro rfl
        rw [hi] at he
        cases he
        exact hne heq.symm

theorem Kept.insert (hfind : s.table.find bucket d.node = none) (hcount : ∀ k, 0 ≤ d.count k)
    (hzero : ∃ k, d.count k ≠ 0) (hlt : ∀ k, d.count k < 2 ^ 31)
 (hself : ∀ k, held' k d.node = if 0 < d.count k then 1 else 0)
    (hother : ∀ k m, m ≠ d.node → held' k m = s.held k m) :
    Kept bucket ⟨(s.table.insert bucket d).2, held'⟩ := by
  obtain ⟨hlen, hfree, hkeep⟩ := s.table.room_spec
  have hnot : ∀ j e, s.table.slot j = some e → e.node ≠ d.node := by
    intro j e he hn
    have hm := (h.sound.hash (bucket d.node) d.node j).2 ⟨rfl, e, he, hn⟩
    exact chainFind_eq_none (h.sound.sorted _) hfind j hm
  have hslot : ∀ j, (s.table.insert bucket d).2.slot j =
      if j = s.table.room.1 then some d else s.table.slot j := by
    intro j
    unfold Descriptors.insert Descriptors.slot
    by_cases hj : j = s.table.room.1
    · rw [if_pos hj, hj, List.getElem?_set_self hlen]
      rfl
    · rw [if_neg hj, List.getElem?_set_ne (Ne.symm hj)]
      exact hkeep j hj
  have hcases : ∀ j e, (s.table.insert bucket d).2.slot j = some e →
      (j = s.table.room.1 ∧ e = d) ∨ (s.table.slot j = some e ∧ e.node ≠ d.node) := by
    intro j e he
    rw [hslot] at he
    by_cases hj : j = s.table.room.1
    · rw [if_pos hj] at he
      exact .inl ⟨hj, (Option.some.inj he).symm⟩
    · rw [if_neg hj] at he
      exact .inr ⟨he, hnot j e he⟩
  have hhash : (s.table.insert bucket d).2.hash = update s.table.hash (bucket d.node)
      (chainInsert d.node s.table.room.1 (s.table.hash (bucket d.node))) := rfl
  refine ⟨⟨?_, ?_, ?_, fun b => ?_, fun b n j => ?_⟩, ?_, ?_⟩
  · intro j e he
    rcases hcases j e he with ⟨-, rfl⟩ | ⟨he, -⟩
    · exact ⟨hcount, hzero⟩
    · exact h.sound.count j e he
  · intro j e he k
    rcases hcases j e he with ⟨-, rfl⟩ | ⟨he, hn⟩
    · exact hself k
    · exact (hother k _ hn).trans (h.sound.held j e he k)
  · intro j j' e e' he he' hn
    rcases hcases j e he with ⟨rfl, rfl⟩ | ⟨he, hne⟩ <;>
      rcases hcases j' e' he' with ⟨rfl, rfl⟩ | ⟨he', hne'⟩
    · rfl
    · exact absurd hn.symm hne'
    · exact absurd hn hne
    · exact h.sound.unique _ _ _ _ he he' hn
  · simp only [hhash]
    by_cases hb : b = bucket d.node
    · subst hb
      rw [update_self]
      exact (h.sound.sorted _).insert (chainFind_eq_none (h.sound.sorted _) hfind)
    · rw [update_of_ne hb]
      exact h.sound.sorted b
  · simp only [hhash, hslot]
    have hold := h.sound.hash b n j
    have hentry : (n, j) ∈ update s.table.hash (bucket d.node)
        (chainInsert d.node s.table.room.1 (s.table.hash (bucket d.node))) b ↔
        (b = bucket d.node ∧ n = d.node ∧ j = s.table.room.1) ∨ (n, j) ∈ s.table.hash b := by
      by_cases hb : b = bucket d.node
      · subst hb
        rw [update_self, mem_chainInsert, Prod.mk.injEq]
        simp only [true_and]
      · rw [update_of_ne hb]
        simp only [hb, false_and, false_or]
    rw [hentry, hold]
    constructor
    · rintro (⟨rfl, rfl, rfl⟩ | ⟨hb, e, he, rfl⟩)
      · exact ⟨rfl, d, if_pos rfl, rfl⟩
      · refine ⟨hb, e, ?_, rfl⟩
        rw [if_neg]
        · exact he
        · rintro rfl
          rw [hfree] at he
          cases he
    · rintro ⟨hb, e, he, rfl⟩
      by_cases hj : j = s.table.room.1
      · rw [if_pos hj] at he
        cases he
        exact .inl ⟨hb.symm, rfl, hj⟩
      · rw [if_neg hj] at he
        exact .inr ⟨hb, e, he, rfl⟩
  · intro j e he
    rcases hcases j e he with ⟨-, rfl⟩ | ⟨he, -⟩
    · exact hlt
    · exact h.lt j e he
  · intro n hn k
    have hne : n ≠ d.node := by
      rintro rfl
      exact hn s.table.room.1 d (by rw [hslot, if_pos rfl]) rfl
    refine (hother k n hne).trans (h.absent n (fun j e he heq => ?_) k)
    refine hn j e ?_ heq
    rw [hslot, if_neg]
    · exact he
    · rintro rfl
      rw [hfree] at he
      cases he

theorem Kept.add (hi : s.table.slot i = some d) {k : Bool} (hc : Countable (d.count k)) :
    Kept bucket ⟨s.table.set i (d.add k 1),
      (if 0 < d.count k then [] else [RefOp.acquire d.node k]).foldl account s.held⟩ := by
  have hnonneg := (h.sound.count i d hi).1
  have hadd : (d.add k 1).count k = d.count k + 1 := by
    rw [Descriptor.add_count]
    exact ssize_of_lt (by have := hnonneg k; omega) (by unfold Countable at hc; omega)
  have hnot := Descriptor.add_count_not d k 1
  refine h.set hi (Descriptor.add_node d k 1) ?_ ⟨k, ?_⟩ ?_ ?_ ?_
  · rw [Descriptor.forall_count _ k fun _ c => 0 ≤ c, hadd, hnot]
    exact ⟨by have := hnonneg k; omega, hnonneg _⟩
  · have := hnonneg k
    omega
  · rw [Descriptor.forall_count _ k fun _ c => c < 2 ^ 31, hadd, hnot]
    exact ⟨by unfold Countable at hc; omega, h.lt i d hi _⟩
  · have hheld := h.sound.held i d hi
    have hk := hheld k
    have hpos : 0 < d.count k + 1 := by have := hnonneg k; omega
    rw [Descriptor.forall_count _ k fun j c =>
      ((if 0 < d.count k then [] else [RefOp.acquire d.node k]).foldl account s.held) j d.node =
        if 0 < c then 1 else 0, hadd, hnot, if_pos hpos]
    by_cases hc0 : 0 < d.count k
    · rw [if_pos hc0] at hk ⊢
      exact ⟨hk, hheld _⟩
    · rw [if_neg hc0] at hk ⊢
      refine ⟨?_, ?_⟩
      · simp [account, hk]
      · have := hheld (!k)
        simpa [account] using this
  · intro j m hm
    split
    · rfl
    · simp [account, hm]

theorem Kept.unref {k : Bool} (hat : s.table.at? handle = some (i, d)) (hc : 0 < d.count k) :
    Kept bucket ⟨(s.table.unrefDescriptor bucket handle k).2.1,
      (s.table.unrefDescriptor bucket handle k).2.2.foldl account s.held⟩ := by
  have hi := Descriptors.at?_eq_some hat
  have hnonneg := (h.sound.count i d hi).1
  have hheld := h.sound.held i d hi
  have hadd : (d.add k (-1)).count k = d.count k - 1 := by
    rw [Descriptor.add_count]
    exact ssize_of_lt (by omega) (by have := h.lt i d hi k; omega)
  have hnot := Descriptor.add_count_not d k (-1)
  have hnode := Descriptor.add_node d k (-1)
  have hpos := Descriptor.forall_count (d.add k (-1)) k fun _ c => 0 ≤ c
  have hlt := Descriptor.forall_count (d.add k (-1)) k fun _ c => c < 2 ^ 31
  have hle : (d.add k (-1)).priRef ≤ 0 ∧ (d.add k (-1)).secRef ≤ 0 ↔
      (d.add k (-1)).count k ≤ 0 ∧ (d.add k (-1)).count (!k) ≤ 0 := by
    rw [← Descriptor.forall_count _ k fun _ c => c ≤ 0]
    exact ⟨fun hle j => by cases j; exacts [hle.2, hle.1], fun hle => ⟨hle true, hle false⟩⟩
  rw [hadd, hnot] at hpos hlt hle
  have hcount : ∀ j, 0 ≤ (d.add k (-1)).count j := hpos.2 ⟨by omega, hnonneg _⟩
  have hbound : ∀ j, (d.add k (-1)).count j < 2 ^ 31 :=
    hlt.2 ⟨by have := h.lt i d hi k; omega, h.lt i d hi _⟩
  have hother : ∀ j m, m ≠ d.node → account s.held (.release d.node k) j m = s.held j m := by
    intro j m hm
    simp [account, hm]
  unfold Descriptors.unrefDescriptor
  rw [hat]
  dsimp only
  rw [hadd, hnode]
  by_cases hzero : d.count k - 1 = 0
  · have hk := hheld k
    have hk' := hheld (!k)
    rw [if_pos (by omega)] at hk
    rw [if_pos hzero]
    by_cases hlast : (d.add k (-1)).priRef ≤ 0 ∧ (d.add k (-1)).secRef ≤ 0
    · rw [if_pos hlast]
      -- it was the last one of the slot
      have hnone : ¬ 0 < d.count (!k) := not_lt.2 (hle.1 hlast).2
      rw [if_neg hnone] at hk'
      refine h.erase hi (fun j => ?_) hother
      by_cases hj : j = k
      · subst hj
        simp [account, hk]
      · obtain rfl : j = !k := by cases j <;> cases k <;> simp_all
        simp [account, hk']
    · rw [if_neg hlast]
      have hsome : 0 < d.count (!k) := by
        by_contra hn
        exact hlast (hle.2 ⟨by omega, not_lt.1 hn⟩)
      refine h.set hi hnode hcount ⟨!k, ?_⟩ hbound ?_ hother
      · rw [hnot]
        exact ne_of_gt hsome
      · refine (Descriptor.forall_count _ k fun j c =>
          account s.held (.release d.node k) j d.node = if 0 < c then 1 else 0).2 ?_
        rw [hadd, hnot]
        refine ⟨?_, ?_⟩
        · rw [if_neg (by omega)]
          simp [account, hk]
        · simpa [account] using hk'
  · rw [if_neg hzero]
    refine h.set hi hnode hcount ⟨k, by rw [hadd]; exact hzero⟩ hbound ?_ fun _ _ _ => rfl
    refine (Descriptor.forall_count _ k fun j c => s.held j d.node = if 0 < c then 1 else 0).2 ?_
    rw [hadd, hnot]
    have hk := hheld k
    rw [if_pos hc] at hk
    refine ⟨?_, hheld _⟩
    rw [if_pos (by omega)]
    exact hk

end

/-! ### The calls -/

theorem Sound.find (h : s.Sound bucket) {n : N} (hf : s.table.find bucket n = some i) :
    ∃ d, s.table.slot i = some d ∧ d.node = n :=
  ((h.hash _ n i).1 ((chainFind_iff (h.sorted _)).1 hf)).2

theorem Kept.node2Descriptor (h : s.Kept bucket) {n : N} {ref strong attempt : Bool}
    (hfits : s.Fits bucket (.node2Descriptor n ref strong attempt)) :
    Kept bucket ⟨(s.table.node2Descriptor bucket n ref strong attempt).2.1,
      (s.table.node2Descriptor bucket n ref strong attempt).2.2.foldl account s.held⟩ := by
  unfold Descriptors.node2Descriptor
  split
  · rename_i i hfind
    obtain ⟨d, hi, rfl⟩ := h.sound.find hfind
    have hfits := hfits i d hfind hi
    rw [hi]
    cases ref
    · exact h
    · obtain ⟨hc, hweak⟩ := hfits rfl
      cases strong
      · have := h.add hi hc
        rw [if_pos (show 0 < d.count false from hweak rfl)] at this
        exact this
      · have := h.add hi hc
        by_cases hpri : 0 < d.priRef
        · rw [if_pos (show 0 < d.count true from hpri)] at this
          simpa [hpri] using this
        · rw [if_neg (show ¬ 0 < d.count true from hpri)] at this
          cases attempt
          · simpa [hpri] using h
          · simpa [hpri] using this
  · rename_i hfind
    split
    · rename_i hok
      have hcount := Descriptor.count_one n strong
      refine h.insert hfind (fun k => ?_) ⟨strong, ?_⟩ (fun k => ?_) ?_ ?_
      · rw [hcount]
        split <;> decide
      · rw [hcount, if_pos rfl]
        decide
      · rw [hcount]
        split <;> decide
      · intro k
        have hnone : s.held k n = 0 := by
          refine h.absent n (fun j e he hn => ?_) k
          have hm := (h.sound.hash (bucket n) n j).2 ⟨rfl, e, he, hn⟩
          exact chainFind_eq_none (h.sound.sorted _) hfind j hm
        rw [hcount]
        by_cases hk : k = strong
        · subst hk
          simp [account, hnone]
        · simp [account, hnone, hk]
      · intro k m hm
        simp [account, hm]
    · exact h

theorem Kept.refDescriptor (h : s.Kept bucket) {strong : Bool}
    (hfits : s.Fits bucket (.refDescriptor handle strong)) :
    Kept bucket ⟨(s.table.refDescriptor handle strong).2.1,
      (s.table.refDescriptor handle strong).2.2.foldl account s.held⟩ := by
  unfold Descriptors.refDescriptor
  split
  · exact h
  · rename_i i d hat
    have := h.add (Descriptors.at?_eq_some hat) (hfits i d hat)
    split
    · rename_i hpos
      rw [if_pos hpos] at this
      exact this
    · rename_i hpos
      rw [if_neg hpos] at this
      split
      · rename_i hweak
        cases strong
        · exact this
        · cases hweak
      · exact h

theorem Kept.attemptRefDescriptor (h : s.Kept bucket) {attempt : Bool}
    (hfits : s.Fits bucket (.attemptRefDescriptor handle attempt)) :
    Kept bucket ⟨(s.table.attemptRefDescriptor handle attempt).2.1,
      (s.table.attemptRefDescriptor handle attempt).2.2.foldl account s.held⟩ := by
  unfold Descriptors.attemptRefDescriptor
  split
  · exact h
  · rename_i i d hat
    have := h.add (k := true) (Descriptors.at?_eq_some hat) (hfits i d hat)
    split
    · rename_i hpos
      rw [if_pos (show 0 < d.count true from hpos)] at this
      exact this
    · rename_i hpos
      rw [if_neg (show ¬ 0 < d.count true from hpos)] at this
      split
      · exact this
      · exact h

theorem Sound.node2Descriptor_at? (h : s.Sound bucket) (n : N) :
    s.table.at? (s.table.node2Descriptor bucket n false true false).1 =
      (s.table.find bucket n).bind fun i => (s.table.slot i).map fun d => (i, d) := by
  unfold Descriptors.node2Descriptor
  cases hfind : s.table.find bucket n with
  | none => rfl
  | some i =>
    obtain ⟨d, hi, -⟩ := h.find hfind
    dsimp only
    rw [Option.bind_some, hi]
    exact Descriptors.at?_succ hi

theorem Kept.forceRefNode (h : s.Kept bucket) {n : N}
    (hfits : s.Fits bucket (.forceRefNode n)) :
    Kept bucket ⟨(s.table.forceRefNode bucket n).1,
      (s.table.forceRefNode bucket n).2.foldl account s.held⟩ := by
  unfold Descriptors.forceRefNode
  rw [h.sound.node2Descriptor_at?]
  cases hfind : s.table.find bucket n with
  | none => exact h
  | some i =>
    obtain ⟨d, hi, rfl⟩ := h.sound.find hfind
    rw [Option.bind_some, hi]
    dsimp only [Option.map_some]
    have := h.add (k := true) hi (hfits i d hfind hi)
    have hnonneg : 0 ≤ d.priRef := (h.sound.count i d hi).1 true
    by_cases hpri : d.priRef = 0
    · rw [if_neg (show ¬ 0 < d.count true from not_lt.2 (le_of_eq hpri))] at this
      rw [if_pos hpri]
      exact this
    · rw [if_pos (show 0 < d.count true from lt_of_le_of_ne hnonneg (Ne.symm hpri))] at this
      rw [if_neg hpri]
      exact this

/-- **A call that fits** keeps the accounting. -/
theorem Kept.step (h : s.Kept bucket) {call : DescriptorCall N} {s' : Holdings N}
    (hs : s.step bucket call = some s') (hfits : s.Fits bucket call) : s'.Kept bucket := by
  obtain ⟨⟩ := hs
  cases call with
  | node2Descriptor n ref strong attempt => exact h.node2Descriptor hfits
  | refDescriptor handle strong => exact h.refDescriptor hfits
  | unrefDescriptor handle strong =>
    cases hat : s.table.at? handle with
    | none =>
      simp only [Descriptors.unrefDescriptor, hat]
      exact h
    | some p => exact h.unref hat (hfits _ _ hat)
  | attemptRefDescriptor handle attempt => exact h.attemptRefDescriptor hfits
  | forceRefNode n => exact h.forceRefNode hfits

/-! ### And back -/

omit [LinearOrder N] in
theorem slot_set_self (hi : s.table.slot i = some d) (d' : Descriptor N) :
    (s.table.set i d').slot i = some d' := by
  rw [Descriptors.slot_set hi, if_pos rfl]

/-- A count that was incremented and is not negative was not at its maximum. -/
theorem Kept.countable (h : s.Kept bucket) (hi : s.table.slot i = some d) {k : Bool}
    {held : Bool → N → ℤ} (h' : Sound bucket ⟨s.table.set i (d.add k 1), held⟩) :
    Countable (d.count k) := by
  have hc := (h'.count i _ (slot_set_self hi _)).1 k
  rw [Descriptor.add_count] at hc
  by_contra hmax
  have hlt := h.lt i d hi k
  have heq : d.count k = 2 ^ 31 - 1 := by
    unfold Countable at hmax
    omega
  rw [heq] at hc
  exact absurd hc (by decide)

/-- **A call after which the accounting is right** fits. -/
theorem Kept.fits (h : s.Kept bucket) {call : DescriptorCall N} {s' : Holdings N}
    (hs : s.step bucket call = some s') (h' : s'.Sound bucket) : s.Fits bucket call := by
  obtain ⟨⟩ := hs
  cases call with
  | node2Descriptor n ref strong attempt =>
    rintro i d hfind hi rfl
    simp only [Descriptors.node2Descriptor, hfind, hi] at h'
    have hnonneg := (h.sound.count i d hi).1
    cases strong
    · have hc := h.countable (k := false) hi h'
      refine ⟨hc, fun _ => ?_⟩
      -- the node has the weak reference after it, and the call acquired none
      have hheld := h'.held i _ (slot_set_self hi _) false
      have hold := h.sound.held i d hi false
      have hsec := hnonneg false
      rw [Descriptor.add_node, Descriptor.add_count,
        ssize_of_lt (by omega) (by unfold Countable at hc; omega),
        if_pos (show 0 < d.count false + 1 by omega)] at hheld
      have hone : s.held false d.node = 1 := hheld
      by_contra hpos
      rw [hone, if_neg (show ¬ 0 < d.count false from hpos)] at hold
      exact absurd hold (by decide)
    · refine ⟨?_, fun hf => absurd hf (by decide)⟩
      by_cases hpri : 0 < d.priRef
      · simp [hpri] at h'
        exact h.countable (k := true) hi h'
      · unfold Countable
        show d.priRef < 2 ^ 31 - 1
        omega
  | refDescriptor handle strong =>
    intro i d hat
    simp only [Descriptors.refDescriptor, hat] at h'
    by_cases hpos : 0 < d.count strong
    · rw [if_pos hpos] at h'
      exact h.countable (Descriptors.at?_eq_some hat) h'
    · unfold Countable
      omega
  | unrefDescriptor handle strong =>
    intro i d hat
    by_contra hpos
    have hi := Descriptors.at?_eq_some hat
    have hzero : d.count strong = 0 := by
      have := (h.sound.count i d hi).1 strong
      omega
    have hneg : (d.add strong (-1)).count strong = -1 := by
      rw [Descriptor.add_count, hzero]
      decide
    simp only [Descriptors.unrefDescriptor, hat] at h'
    rw [hneg, if_neg (by decide)] at h'
    have := (h'.count i _ (slot_set_self hi _)).1 strong
    omega
  | attemptRefDescriptor handle attempt =>
    intro i d hat
    simp only [Descriptors.attemptRefDescriptor, hat] at h'
    by_cases hpos : 0 < d.priRef
    · rw [if_pos hpos] at h'
      exact h.countable (k := true) (Descriptors.at?_eq_some hat) h'
    · unfold Countable
      omega
  | forceRefNode n =>
    intro i d hfind hi
    have hat := h.sound.node2Descriptor_at? n
    rw [hfind, Option.bind_some, hi, Option.map_some] at hat
    simp only [Descriptors.forceRefNode, hat] at h'
    exact h.countable (k := true) hi h'

theorem init_kept : (init : Holdings N).Kept bucket := by
  have hslot : ∀ i, (init : Holdings N).table.slot i = none := fun i => rfl
  refine ⟨⟨?_, ?_, ?_, fun b => ?_, fun b n i => ?_⟩, ?_, fun n _ k => rfl⟩
  · intro i d hi
    rw [hslot] at hi
    cases hi
  · intro i d hi
    rw [hslot] at hi
    cases hi
  · intro i j d e hi
    rw [hslot] at hi
    cases hi
  · exact List.Pairwise.nil
  · constructor
    · intro hm
      cases hm
    · rintro ⟨-, d, hi, -⟩
      rw [hslot] at hi
      cases hi
  · intro i d hi
    rw [hslot] at hi
    cases hi

/-- **The accounting is right in every state** of a run exactly when every call of the run
fits. -/
theorem descriptors_sound_iff (bucket : N → ℕ) (calls : List (DescriptorCall N)) :
    AllStates (step bucket) (Sound bucket) init calls ↔
      AllSteps (step bucket) (Fits bucket) init calls :=
  allStates_iff_allSteps (I := Kept bucket) (fun _ h => h.sound)
    (fun _ _ _ h hs hfits => h.step hs hfits) (fun _ _ _ h hs h' => h.fits hs h') calls init
    init_kept

/-- A weak reference released through a slot that has only a strong one, and a weak reference
that `Node2Descriptor` adds to such a slot. -/
theorem descriptors_unsound :
    ¬ AllStates (step fun _ : ℕ => 0) (Sound fun _ => 0) init
      [.node2Descriptor 5 true true true, .unrefDescriptor 1 false] ∧
    ¬ AllStates (step fun _ : ℕ => 0) (Sound fun _ => 0) init
      [.node2Descriptor 5 true true true, .node2Descriptor 5 true false true] := by
  constructor
  · intro h
    have hcount := (h.last rfl).count 0 ⟨5, 1, -1⟩ rfl
    exact absurd (hcount.1 false) (by decide)
  · intro h
    have hheld := (h.last rfl).held 0 ⟨5, 1, 1⟩ rfl false
    exact absurd hheld (by decide)

end Holdings

end OpenBinder
