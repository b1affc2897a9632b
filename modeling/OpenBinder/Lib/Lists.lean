import OpenBinder.Lib.Doubly

/-!
# Doubly linked lists that share their nodes

Any number of lists, each with a head, and a `next` and a `prev` pointer in every node of all of
them. `Lists.Holds p seq` says that the pointers go through the nodes `seq l` of every list `l` in
both directions, that no node is in two lists, and that the nodes that are in none point nowhere.

* `Holds.insert`: a node between two of a list.
* `Holds.cut`: a node out of its list.
-/

namespace OpenBinder.Lib

open Function

open List

theorem Linked.update_unlisted {α : Type*} [DecidableEq α] {f : α → Option α} {p u : Option α} {a : α}
    (hf : f a = none) (hp : p ≠ some a) :
    Function.update (Linked.setAt f p u) a none = Linked.setAt f p u := by
  have hfa : Linked.setAt f p u a = none := by rw [Linked.setAt_of_ne hp, hf]
  rw [← hfa, update_eq_self]

/-- The pointers of the lists and of all nodes there are. -/
structure Lists (L α : Type*) where
  next : α → Option α
  prev : α → Option α
  head : L → Option α

namespace Lists

variable {L α : Type*}

/-- **The lists have these nodes**, in both directions. -/
structure Holds (p : Lists L α) (seq : L → List α) : Prop where
  forward : ∀ l, Linked p.next (p.head l) (seq l)
  backward : ∀ l, Linked p.prev (seq l).getLast? (seq l).reverse
  disjoint : ∀ l l' a, a ∈ seq l → a ∈ seq l' → l = l'
  rest : ∀ a, (∀ l, a ∉ seq l) → p.next a = none ∧ p.prev a = none

variable {p p' : Lists L α} {seq : L → List α} {l : L} {a : α} {x y : List α}

theorem Holds.nodup (h : p.Holds seq) (l : L) : (seq l).Nodup := (h.forward l).nodup

theorem Holds.head (h : p.Holds seq) (l : L) : p.head l = (seq l).head? := (h.forward l).head_eq

theorem Holds.next (h : p.Holds seq) (hl : seq l = x ++ a :: y) : p.next a = y.head? := by
  have hf := h.forward l
  rw [hl] at hf
  exact (Linked.suffix hf).head_eq

theorem Holds.prev (h : p.Holds seq) (hl : seq l = x ++ a :: y) : p.prev a = x.getLast? := by
  have hb := h.backward l
  rw [hl, reverse_append, reverse_cons, append_assoc, singleton_append] at hb
  rw [(Linked.suffix hb).head_eq, List.head?_reverse]

variable [DecidableEq α]

theorem Holds.congr_other (h : p.Holds seq) {l' : L} (hl' : l' ≠ l) {f g : α → Option α}
    {b b' u v : Option α} {m : List α} (hm : Linked f b' m) (hmem : ∀ c ∈ m, c ∈ seq l')
    (hb : ∀ c ∈ b, c ∈ seq l) (ha : a ∉ seq l')
    (hg : g = Function.update (Linked.setAt f b u) a v) : Linked g b' m := by
  refine hm.congr fun c hc => ?_
  have hca : c ≠ a := fun hca => ha (hca ▸ hmem c hc)
  have hbc : b ≠ some c := fun hbc => hl' (h.disjoint l' l c (hmem c hc) (hb c hbc))
  rw [hg, update_of_ne hca, Linked.setAt_of_ne hbc]

variable [DecidableEq L]

/-- **A node between two** of a list. -/
theorem Holds.insert (h : p.Holds seq) (hl : seq l = x ++ y) (ha : ∀ l, a ∉ seq l)
    (hnext : p'.next = Function.update (Linked.setAt p.next x.getLast? (some a)) a y.head?)
    (hprev : p'.prev = Function.update (Linked.setAt p.prev y.head? (some a)) a x.getLast?)
    (hhead : p'.head = Function.update p.head l (if x = [] then some a else p.head l)) :
    p'.Holds (Function.update seq l (x ++ a :: y)) := by
  have hfwd := h.forward l
  have hbwd := h.backward l
  have hal := ha l
  rw [hl] at hfwd hbwd hal
  rw [reverse_append] at hbwd
  have hx : ∀ c ∈ x.getLast?, c ∈ seq l := fun c hc => by
    rw [hl]
    exact mem_append_left _ (mem_of_getLast? hc)
  have hy : ∀ c ∈ y.head?, c ∈ seq l := fun c hc => by
    rw [hl]
    exact mem_append_right _ (mem_of_mem_head? hc)
  have hmem {l' : L} {c : α} (hc : c ∈ Function.update seq l (x ++ a :: y) l') :
      (c = a ∧ l' = l) ∨ c ∈ seq l' := by
    by_cases hl' : l' = l
    · subst hl'
      rw [update_self, mem_append, mem_cons] at hc
      rw [hl, mem_append]
      tauto
    · rw [update_of_ne hl'] at hc
      exact .inr hc
  constructor
  · intro l'
    by_cases hl' : l' = l
    · subst hl'
      rw [update_self, hhead, update_self, hnext]
      exact hfwd.splice hal
    · rw [update_of_ne hl', hhead, update_of_ne hl']
      exact h.congr_other hl' (h.forward l') (fun c hc => hc) hx (ha l') hnext
  · intro l'
    by_cases hl' : l' = l
    · subst hl'
      have hsp := hbwd.splice (a := a) (by simpa [and_comm] using hal)
      rw [List.getLast?_reverse, List.head?_reverse, ← Linked.getLast?_middle] at hsp
      rw [update_self, hprev, reverse_append, reverse_cons, append_assoc,
        singleton_append]
      exact hsp
    · rw [update_of_ne hl']
      exact h.congr_other hl' (h.backward l') (fun c hc => mem_reverse.1 hc) hy (ha l') hprev
  · intro l₁ l₂ c h₁ h₂
    rcases hmem h₁ with ⟨rfl, rfl⟩ | g₁
    · rcases hmem h₂ with ⟨-, rfl⟩ | g₂
      · rfl
      · exact absurd g₂ (ha l₂)
    · rcases hmem h₂ with ⟨rfl, -⟩ | g₂
      · exact absurd g₁ (ha l₁)
      · exact h.disjoint l₁ l₂ c g₁ g₂
  · intro c hc
    have hca : c ≠ a := by
      rintro rfl
      exact hc l (by rw [update_self]; simp)
    have hnot : ∀ l', c ∉ seq l' := by
      intro l' hcl
      by_cases hl' : l' = l
      · subst hl'
        refine hc l' ?_
        rw [update_self]
        rw [hl, mem_append] at hcl
        simp only [mem_append, mem_cons]
        tauto
      · exact hc l' (by rw [update_of_ne hl']; exact hcl)
    rw [hnext, hprev, update_of_ne hca, update_of_ne hca,
      Linked.setAt_of_ne fun hxc => hnot l (hx c hxc),
      Linked.setAt_of_ne fun hyc => hnot l (hy c hyc)]
    exact h.rest c hnot

/-- **A node out of its list.** -/
theorem Holds.cut (h : p.Holds seq) (hl : seq l = x ++ a :: y)
    (hnext : p'.next = Function.update (Linked.setAt p.next x.getLast? y.head?) a none)
    (hprev : p'.prev = Function.update (Linked.setAt p.prev y.head? x.getLast?) a none)
    (hhead : p'.head = Function.update p.head l (if x = [] then y.head? else p.head l)) :
    p'.Holds (Function.update seq l (x ++ y)) := by
  have hna := h.next hl
  have hpa := h.prev hl
  have hfwd := h.forward l
  have hbwd := h.backward l
  have hmid : a ∈ seq l := by rw [hl]; simp
  rw [hl] at hfwd hbwd
  rw [reverse_append, reverse_cons, append_assoc, singleton_append] at hbwd
  have hx : ∀ c ∈ x.getLast?, c ∈ seq l := fun c hc => by
    rw [hl]
    exact mem_append_left _ (mem_of_getLast? hc)
  have hy : ∀ c ∈ y.head?, c ∈ seq l := fun c hc => by
    rw [hl]
    exact mem_append_right _ (mem_cons_of_mem _ (mem_of_mem_head? hc))
  have hother {l' : L} (hl' : l' ≠ l) : a ∉ seq l' := fun hal => hl' (h.disjoint l' l a hal hmid)
  have hmem {l' : L} {c : α} (hc : c ∈ Function.update seq l (x ++ y) l') : c ∈ seq l' := by
    by_cases hl' : l' = l
    · subst hl'
      rw [update_self, mem_append] at hc
      rw [hl, mem_append, mem_cons]
      tauto
    · rw [update_of_ne hl'] at hc
      exact hc
  constructor
  · intro l'
    by_cases hl' : l' = l
    · subst hl'
      rw [update_self, hhead, update_self, hnext, ← hna]
      exact hfwd.cut
    · rw [update_of_ne hl', hhead, update_of_ne hl']
      exact h.congr_other hl' (h.forward l') (fun c hc => hc) hx (hother hl') hnext
  · intro l'
    by_cases hl' : l' = l
    · subst hl'
      have hcut := hbwd.cut
      have hlast : (if y.reverse = [] then p.prev a else (x ++ a :: y).getLast?)
          = (x ++ y).getLast? := by
        cases y with
        | nil => simp [hpa]
        | cons b y => simp
      rw [hlast, List.getLast?_reverse, hpa] at hcut
      rw [update_self, hprev, reverse_append]
      exact hcut
    · rw [update_of_ne hl']
      exact h.congr_other hl' (h.backward l') (fun c hc => mem_reverse.1 hc) hy
        (hother hl') hprev
  · exact fun l₁ l₂ c h₁ h₂ => h.disjoint l₁ l₂ c (hmem h₁) (hmem h₂)
  · intro c hc
    rw [hnext, hprev]
    by_cases hca : c = a
    · rw [hca, update_self, update_self]
      exact ⟨rfl, rfl⟩
    have hxy : c ∉ x ++ y := by
      have := hc l
      rwa [update_self] at this
    rw [mem_append, not_or] at hxy
    have hnot : ∀ l', c ∉ seq l' := by
      intro l' hcl
      by_cases hl' : l' = l
      · subst hl'
        rw [hl, mem_append, mem_cons] at hcl
        tauto
      · exact hc l' (by rw [update_of_ne hl']; exact hcl)
    rw [update_of_ne hca, update_of_ne hca,
      Linked.setAt_of_ne fun hxc => hnot l (hx c hxc),
      Linked.setAt_of_ne fun hyc => hnot l (hy c hyc)]
    exact h.rest c hnot

theorem Holds.notMem_cut (h : p.Holds seq) (hl : seq l = x ++ a :: y) (l' : L) :
    a ∉ Function.update seq l (x ++ y) l' := by
  have hnd := h.nodup l
  have hal : a ∈ seq l := by rw [hl]; simp
  rw [hl] at hnd
  obtain ⟨hax, hay⟩ := Linked.notMem_of_nodup hnd
  by_cases hl' : l' = l
  · subst hl'
    rw [update_self, mem_append, not_or]
    exact ⟨hax, hay⟩
  · rw [update_of_ne hl']
    exact fun ha => hl' (h.disjoint l' l a ha hal)

end Lists

end OpenBinder.Lib
