import Mathlib.Data.List.Basic

/-!
# Linked lists

A list in memory is a pointer to its first node and a `next` pointer in every node, null at the
end. `Linked next p l` says that following the pointers from `p` goes through `l`.

* `Linked.unique`: the pointers determine the list.
* `Linked.nodup`: no node is in it twice.
* `TailQueue`: a queue with the address of its last `next` field.
-/

namespace OpenBinder.Lib

open List

open Function

variable {α : Type*}

/-- **Following the pointers** from one goes through the nodes of a list, to the end. -/
def Linked (next : α → Option α) : Option α → List α → Prop
  | p, [] => p = none
  | p, a :: l => p = some a ∧ Linked next (next a) l

@[simp] theorem linked_nil (next : α → Option α) (p : Option α) : Linked next p [] ↔ p = none :=
  Iff.rfl

@[simp] theorem linked_cons (next : α → Option α) (p : Option α) (a : α) (l : List α) :
    Linked next p (a :: l) ↔ p = some a ∧ Linked next (next a) l :=
  Iff.rfl

namespace Linked

variable {next : α → Option α}

theorem unique : ∀ {l l' : List α} {p : Option α}, Linked next p l → Linked next p l' → l = l' := by
  intro l
  induction l with
  | nil =>
    intro l' p h h'
    cases l' with
    | nil => rfl
    | cons b l' =>
      rw [linked_nil] at h
      rw [h] at h'
      cases h'.1
  | cons a l ih =>
    intro l' p h h'
    cases l' with
    | nil =>
      rw [linked_nil] at h'
      rw [h'] at h
      cases h.1
    | cons b l' =>
      obtain rfl : a = b := Option.some.inj (h.1.symm.trans h'.1)
      rw [ih h.2 h'.2]

theorem suffix : ∀ {l m : List α} {p : Option α} {a : α}, Linked next p (l ++ a :: m) →
    Linked next (next a) m := by
  intro l
  induction l with
  | nil => intro m p a h; exact h.2
  | cons b l ih => intro m p a h; exact ih h.2

/-- **No node is in a list twice**: from both, the rest would be the same. -/
theorem nodup : ∀ {l : List α} {p : Option α}, Linked next p l → l.Nodup := by
  intro l
  induction l with
  | nil => intro p _; exact nodup_nil
  | cons a l ih =>
    intro p h
    refine nodup_cons.2 ⟨fun hmem => ?_, ih h.2⟩
    obtain ⟨m, m', rfl⟩ := append_of_mem hmem
    have hl := congrArg List.length (h.2.unique h.2.suffix)
    simp only [length_append, length_cons] at hl
    omega

/-- **Only the nodes of the list matter.** -/
theorem congr {next' : α → Option α} : ∀ {l : List α} {p : Option α}, Linked next p l →
    (∀ a ∈ l, next' a = next a) → Linked next' p l := by
  intro l
  induction l with
  | nil => intro p h _; exact h
  | cons b l ih =>
    intro p h heq
    refine ⟨h.1, ?_⟩
    rw [heq b mem_cons_self]
    exact ih h.2 fun a ha => heq a (mem_cons_of_mem _ ha)

variable [DecidableEq α]

theorem update {l : List α} {p : Option α} {a : α} {x : Option α} (h : Linked next p l)
    (ha : a ∉ l) : Linked (update next a x) p l :=
  h.congr fun _ hb => update_of_ne (ne_of_mem_of_not_mem hb ha) _ _

end Linked

/-! ### Queues with a tail pointer -/

/-- The address of a pointer to a node: the queue's own, or the `next` field of a node. -/
inductive Slot (α : Type*) where
  | head
  | next (a : α)
  deriving DecidableEq

/-- A queue, with the `next` fields of all nodes there are. -/
structure TailQueue (α : Type*) where
  next : α → Option α
  head : Option α
  tail : Slot α

/-- The last pointer of a list that starts with one. -/
def slotAfter : Slot α → List α → Slot α
  | s, [] => s
  | _, a :: l => slotAfter (.next a) l

theorem slotAfter_append (s : Slot α) (l : List α) (a : α) : slotAfter s (l ++ [a]) = .next a := by
  induction l generalizing s with
  | nil => rfl
  | cons b l ih => exact ih _

theorem slotAfter_cases (s : Slot α) (l : List α) :
    (l = [] ∧ slotAfter s l = s) ∨ ∃ m a, l = m ++ [a] ∧ slotAfter s l = .next a := by
  rcases eq_nil_or_concat l with rfl | ⟨m, a, rfl⟩
  · exact .inl ⟨rfl, rfl⟩
  · exact .inr ⟨m, a, concat_eq_append, by rw [concat_eq_append, slotAfter_append]⟩

namespace TailQueue

/-- **The queue has these nodes**, and its tail pointer is at the last `next` field. -/
def Holds (q : TailQueue α) (l : List α) : Prop :=
  Linked q.next q.head l ∧ q.tail = slotAfter .head l

variable [DecidableEq α]

/-- The `next` field of a node set. -/
def link (q : TailQueue α) (a : α) (x : Option α) : TailQueue α :=
  { q with next := update q.next a x }

/-- A node appended through the tail pointer. -/
def put (q : TailQueue α) (a : α) : TailQueue α :=
  match q.tail with
  | .head => { q with head := some a, tail := .next a }
  | .next b => { q with next := update q.next b (some a), tail := .next a }

/-- The first node unlinked. -/
def take (q : TailQueue α) : Option (α × TailQueue α) :=
  match q.head with
  | none => none
  | some a => some (a,
      { next := update q.next a none
        head := q.next a
        tail := if q.tail = .next a then .head else q.tail })

variable {q : TailQueue α} {l : List α} {a : α}

theorem Holds.link (h : q.Holds l) (ha : a ∉ l) (x : Option α) : (q.link a x).Holds l :=
  ⟨h.1.update ha, h.2⟩

/-- **A node without a successor is appended.** -/
theorem Holds.put (h : q.Holds l) (ha : a ∉ l) (hnext : q.next a = none) :
    (q.put a).Holds (l ++ [a]) := by
  obtain ⟨hlink, htail⟩ := h
  unfold TailQueue.put
  rcases slotAfter_cases .head l with ⟨rfl, hs⟩ | ⟨m, b, rfl, hs⟩
  · rw [htail, hs]
    exact ⟨⟨rfl, hnext⟩, rfl⟩
  · rw [htail, hs]
    refine ⟨?_, (slotAfter_append _ _ _).symm⟩
    have hb : b ∉ m := fun hb => by
      have := hlink.nodup
      rw [nodup_append] at this
      exact this.2.2 b hb b (by simp) rfl
    have hab : a ≠ b := by
      rintro rfl
      exact ha (by simp)
    -- along the list up to its last node
    have hgo : ∀ (m : List α) (p : Option α), b ∉ m → Linked q.next p (m ++ [b]) →
        Linked (update q.next b (some a)) p (m ++ [b] ++ [a]) := by
      intro m
      induction m with
      | nil =>
        intro p _ hl
        refine ⟨hl.1, ?_, ?_⟩
        · exact update_self _ _ _
        · rw [linked_nil, update_of_ne hab]
          exact hnext
      | cons c m ih =>
        intro p hm hl
        rw [mem_cons, not_or] at hm
        refine ⟨hl.1, ?_⟩
        rw [update_of_ne (Ne.symm hm.1)]
        exact ih _ hm.2 hl.2
    exact hgo m _ hb hlink

theorem Holds.put_next (h : q.Holds l) {b : α} (hb : b ∉ l) : (q.put a).next b = q.next b := by
  unfold TailQueue.put
  split
  · rfl
  · rename_i c hc
    refine update_of_ne ?_ _ _
    rintro rfl
    rw [h.2] at hc
    rcases slotAfter_cases .head l with ⟨-, hs⟩ | ⟨m, d, rfl, hs⟩
    · rw [hs] at hc
      cases hc
    · rw [hs] at hc
      cases hc
      exact hb (by simp)

/-- **A node that has a successor** does not become the last one. -/
theorem next_eq_none_of_put {l' : List α} (h : q.Holds l) (ha : a ∉ l) (h' : (q.put a).Holds l') :
    q.next a = none := by
  obtain ⟨hlink', htail'⟩ := h'
  have hat : (q.put a).tail = .next a := by
    unfold TailQueue.put
    split <;> rfl
  rw [hat] at htail'
  rcases slotAfter_cases .head l' with ⟨-, hs⟩ | ⟨m, c, rfl, hs⟩
  · rw [hs] at htail'
    cases htail'
  · rw [hs] at htail'
    cases htail'
    rw [← h.put_next ha]
    exact hlink'.suffix

/-- **The first node is taken**, and has no successor then. -/
theorem Holds.take (h : q.Holds (a :: l)) :
    ∃ q', q.take = some (a, q') ∧ q'.Holds l ∧ q'.next = update q.next a none := by
  obtain ⟨⟨hhead, hlink⟩, htail⟩ := h
  have hlist : Linked q.next (some a) (a :: l) := ⟨rfl, hlink⟩
  have hnodup : a ∉ l := (nodup_cons.1 hlist.nodup).1
  refine ⟨_, by rw [TailQueue.take, hhead], ⟨hlink.update hnodup, ?_⟩, rfl⟩
  rw [htail, slotAfter]
  rcases slotAfter_cases (.next a) l with ⟨rfl, hs⟩ | ⟨m, b, rfl, hs⟩
  · rw [hs, if_pos rfl]
    rfl
  · rw [hs, if_neg, slotAfter_append]
    intro heq
    cases heq
    exact hnodup (by simp)

theorem Holds.take_nil (h : q.Holds []) : q.take = none := by
  rw [TailQueue.take, h.1]

end TailQueue

end OpenBinder.Lib
