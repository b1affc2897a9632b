import Mathlib.Data.List.Nodup
import OpenBinder.Lib.Linked

/-!
# Doubly linked lists

A head pointer, and a `next` and a `prev` pointer in every node. `Links.Holds q l` says that the
pointers go through `l` in both directions and that the other nodes point nowhere. Read backwards
such a list is one too, so that what an operation does to the `prev` pointers is what it does to
the `next` pointers of the list reversed.

* `Linked.cut`, `Linked.splice`: one node out of a list and into one, in one direction.
* `Links.Holds.unlink`, `pushFront`, `insertAfter`, `popFront`: the same in both directions.
-/

namespace OpenBinder.Lib

open Function

open List

variable {α : Type*}

namespace Linked

variable {next next' : α → Option α}

variable {l m : List α} {a : α} {p : Option α}

theorem notMem_of_nodup (h : (l ++ a :: m).Nodup) : a ∉ l ∧ a ∉ m := by
  rw [nodup_middle, nodup_cons, mem_append, not_or] at h
  exact h.1

theorem getLast?_middle (l : List α) (a : α) (m : List α) :
    (l ++ a :: m).getLast? = if m.reverse = [] then some a else (l ++ m).getLast? := by
  rcases eq_nil_or_concat m with rfl | ⟨m, b, rfl⟩
  · rw [List.getLast?_concat, reverse_nil, if_pos rfl]
  · rw [concat_eq_append, if_neg (by simp), ← append_assoc, ← cons_append,
      ← append_assoc, List.getLast?_concat, List.getLast?_concat]

theorem head_eq (h : Linked next p l) : p = l.head? := by
  cases l with
  | nil => exact h
  | cons a l => exact h.1

theorem relink : ∀ {l : List α} {p : Option α} {b : α} {m m' : List α},
    Linked next p (l ++ b :: m) → (∀ a ∈ l, next' a = next a) → Linked next' (next' b) m' →
    Linked next' p (l ++ b :: m') := by
  intro l
  induction l with
  | nil =>
    intro p b m m' h _ hm
    exact ⟨h.1, hm⟩
  | cons c l ih =>
    intro p b m m' h heq hm
    refine ⟨h.1, ?_⟩
    rw [heq c mem_cons_self]
    exact ih h.2 (fun a ha => heq a (mem_cons_of_mem _ ha)) hm

variable [DecidableEq α]

/-- The pointer of a node set, if there is the node. -/
def setAt (next : α → Option α) : Option α → Option α → α → Option α
  | none, _ => next
  | some b, x => Function.update next b x

theorem setAt_of_ne {x : Option α} {c : α} (h : p ≠ some c) : setAt next p x c = next c := by
  cases p with
  | none => rfl
  | some b => exact update_of_ne (fun hcb => h (congrArg some hcb.symm)) _ _

theorem setAt_update {x y : Option α} (h : p ≠ some a) :
    setAt (Function.update next a y) p x = Function.update (setAt next p x) a y := by
  cases p with
  | none => rfl
  | some b => exact update_comm (fun hab => h (congrArg some hab.symm)) _ _ _

/-- **A node is taken out**: the one before it points to the one after it. -/
theorem cut (h : Linked next p (l ++ a :: m)) :
    Linked (Function.update (setAt next l.getLast? (next a)) a none) (if l = [] then next a else p)
      (l ++ m) := by
  obtain ⟨hal, ham⟩ := notMem_of_nodup h.nodup
  rcases eq_nil_or_concat l with rfl | ⟨l, b, rfl⟩
  · rw [if_pos rfl]
    exact (Linked.suffix h).update ham
  · rw [concat_eq_append] at h hal ⊢
    rw [if_neg (by simp), append_assoc, singleton_append]
    rw [append_assoc, singleton_append] at h
    obtain ⟨hbl, hbam⟩ := notMem_of_nodup h.nodup
    rw [mem_cons, not_or] at hbam
    obtain ⟨hab, hbm⟩ := hbam
    rw [mem_append, not_or] at hal
    replace hal := hal.1
    have hlast : setAt next (l ++ [b]).getLast? (next a) = Function.update next b (next a) := by
      simp [setAt]
    rw [hlast]
    apply h.relink
    · intro c hc
      rw [update_of_ne (ne_of_mem_of_not_mem hc hal),
        update_of_ne (ne_of_mem_of_not_mem hc hbl)]
    · rw [update_of_ne hab, update_self]
      have h2 : Linked next p ((l ++ [b]) ++ a :: m) := by simpa using h
      exact ((Linked.suffix h2).update hbm).update ham

/-- **A node is put in**: it points to what the one before it pointed to. -/
theorem splice (h : Linked next p (l ++ m)) (ha : a ∉ l ++ m) :
    Linked (Function.update (setAt next l.getLast? (some a)) a m.head?) (if l = [] then some a else p)
      (l ++ a :: m) := by
  rw [mem_append, not_or] at ha
  rcases eq_nil_or_concat l with rfl | ⟨l, b, rfl⟩
  · rw [if_pos rfl]
    rw [nil_append] at h
    refine ⟨rfl, ?_⟩
    rw [update_self, ← h.head_eq]
    exact h.update ha.2
  · rw [concat_eq_append] at h ha ⊢
    rw [if_neg (by simp), append_assoc, singleton_append]
    rw [append_assoc, singleton_append] at h
    obtain ⟨hal, ham⟩ := ha
    rw [mem_append, not_or, mem_singleton] at hal
    obtain ⟨hbl, hbm⟩ := notMem_of_nodup h.nodup
    have hlast : setAt next (l ++ [b]).getLast? (some a) = Function.update next b (some a) := by
      simp [setAt]
    rw [hlast]
    apply h.relink
    · intro c hc
      rw [update_of_ne (ne_of_mem_of_not_mem hc hal.1),
        update_of_ne (ne_of_mem_of_not_mem hc hbl)]
    · rw [update_of_ne (Ne.symm hal.2), update_self]
      refine ⟨rfl, ?_⟩
      rw [update_self]
      have hm : Linked next (next b) m := Linked.suffix h
      rw [← hm.head_eq]
      exact (hm.update hbm).update ham

end Linked

/-- The pointers of a doubly linked list and of all nodes there are. -/
structure Links (α : Type*) where
  head : Option α
  next : α → Option α
  prev : α → Option α

namespace Links

/-- **The list has these nodes**: in both directions, and the others point nowhere. -/
structure Holds (q : Links α) (l : List α) : Prop where
  forward : Linked q.next q.head l
  backward : Linked q.prev l.getLast? l.reverse
  rest : ∀ a, a ∉ l → q.next a = none ∧ q.prev a = none

/-- No list, and nodes that point nowhere. -/
def empty : Links α where
  head := none
  next := fun _ => none
  prev := fun _ => none

theorem Holds.empty : (Links.empty : Links α).Holds [] where
  forward := rfl
  backward := rfl
  rest := fun _ _ => ⟨rfl, rfl⟩

variable {q : Links α} {l m : List α} {a b : α}

theorem Holds.nodup (h : q.Holds l) : l.Nodup := h.forward.nodup

theorem Holds.head (h : q.Holds l) : q.head = l.head? := h.forward.head_eq

theorem Holds.next (h : q.Holds (l ++ a :: m)) : q.next a = m.head? :=
  (Linked.suffix h.forward).head_eq

theorem Holds.prev (h : q.Holds (l ++ a :: m)) : q.prev a = l.getLast? := by
  have hb := h.backward
  rw [reverse_append, reverse_cons, append_assoc, singleton_append] at hb
  rw [(Linked.suffix hb).head_eq, List.head?_reverse]

variable [DecidableEq α]

/-- Whether a node has a neighbour or is the head. -/
def listed (q : Links α) (a : α) : Bool :=
  q.head = some a || (q.prev a).isSome || (q.next a).isSome

/-- The `next` pointer of a node set, if there is the node. -/
def setNext (q : Links α) (p x : Option α) : Links α :=
  { q with next := Linked.setAt q.next p x }

/-- The `prev` pointer of a node set, if there is the node. -/
def setPrev (q : Links α) (p x : Option α) : Links α :=
  { q with prev := Linked.setAt q.prev p x }

/-- A node taken out of the list. -/
def unlink (q : Links α) (a : α) : Links α :=
  let q₁ := { q with head := if q.head = some a then q.next a else q.head }
  let q₂ := q₁.setPrev (q.next a) (q.prev a)
  let q₃ := q₂.setNext (q.prev a) (q.next a)
  (q₃.setNext (some a) none).setPrev (some a) none

/-- A node put before the head. -/
def pushFront (q : Links α) (a : α) : Links α :=
  let q₁ := q.setPrev q.head (some a)
  let q₂ := { q₁ with head := some a }
  (q₂.setNext (some a) q.head).setPrev (some a) none

/-- A node put after one of the list. -/
def insertAfter (q : Links α) (b a : α) : Links α :=
  let q₁ := (q.setNext (some a) (q.next b)).setPrev (some a) (some b)
  (q₁.setPrev (q.next b) (some a)).setNext (some b) (some a)

/-- The head taken off. -/
def popFront (q : Links α) (a : α) : Links α :=
  let q₁ := { q with head := q.next a }
  let q₂ := (q₁.setNext (some a) none).setPrev (some a) none
  q₂.setPrev q₂.head none

/-! ### What the nodes of the list are after an operation -/

/-- A node is on the list exactly if it is the head or has a neighbour. -/
theorem Holds.listed_iff (h : q.Holds l) (a : α) : q.listed a = true ↔ a ∈ l := by
  constructor
  · intro ha
    by_contra hn
    have hh : q.head ≠ some a := by
      intro heq
      rw [h.head] at heq
      exact hn (mem_of_mem_head? heq)
    simp [listed, hh, (h.rest a hn).1, (h.rest a hn).2] at ha
  · intro ha
    obtain ⟨m, m', rfl⟩ := append_of_mem ha
    rcases eq_nil_or_concat m with rfl | ⟨m, b, rfl⟩
    · simp [listed, h.head]
    · simp [listed, h.prev, concat_eq_append]

/-- One direction of a node taken out, from the node before it or the head. -/
theorem Holds.cut_forward (h : q.Holds (l ++ a :: m)) :
    Linked (Function.update (Linked.setAt q.next l.getLast? (q.next a)) a none)
      (if q.head = some a then q.next a else q.head) (l ++ m) := by
  have hcut := h.forward.cut
  have hal := (Linked.notMem_of_nodup h.nodup).1
  have hif : (if q.head = some a then q.next a else q.head)
      = if l = [] then q.next a else q.head := by
    rw [h.head]
    cases l with
    | nil => simp
    | cons b l =>
      have hba : b ≠ a := fun hba => hal (hba ▸ mem_cons_self)
      simp [hba]
  rw [hif]
  exact hcut

theorem Holds.cut_backward (h : q.Holds (l ++ a :: m)) :
    Linked (Function.update (Linked.setAt q.prev m.head? (q.prev a)) a none)
      (l ++ m).getLast? (l ++ m).reverse := by
  have hb := h.backward
  rw [reverse_append, reverse_cons, append_assoc, singleton_append] at hb
  have hcut := hb.cut
  rw [← reverse_append, List.getLast?_reverse, Linked.getLast?_middle] at hcut
  convert hcut using 1
  cases m with
  | nil => simp [h.prev]
  | cons b m => simp

theorem unlink_next (q : Links α) (a : α) : (q.unlink a).next
    = Function.update (Linked.setAt q.next (q.prev a) (q.next a)) a none := rfl

theorem unlink_prev (q : Links α) (a : α) : (q.unlink a).prev
    = Function.update (Linked.setAt q.prev (q.next a) (q.prev a)) a none := rfl

/-- **A node is taken out**, in both directions. -/
theorem Holds.unlink (h : q.Holds (l ++ a :: m)) : (q.unlink a).Holds (l ++ m) where
  forward := by
    rw [unlink_next, h.prev]
    exact h.cut_forward
  backward := by
    rw [unlink_prev, h.next]
    exact h.cut_backward
  rest := by
    intro c hc
    rw [unlink_next, unlink_prev, h.prev, h.next]
    by_cases hca : c = a
    · rw [hca, update_self, update_self]
      exact ⟨rfl, rfl⟩
    · rw [update_of_ne hca, update_of_ne hca]
      have hcm : c ∉ l ++ a :: m := by
        rw [mem_append, mem_cons]
        rw [mem_append] at hc
        tauto
      rw [mem_append, not_or] at hc
      rw [Linked.setAt_of_ne fun hb => hc.1 (mem_of_getLast? hb),
        Linked.setAt_of_ne fun hb => hc.2 (mem_of_mem_head? hb)]
      exact h.rest c hcm

theorem Holds.popFront_eq (h : q.Holds (a :: m)) : q.popFront a = q.unlink a := by
  have hnext : q.next a = m.head? := Holds.next (l := []) h
  have hprev : q.prev a = none := Holds.prev (l := []) h
  have ham : q.next a ≠ some a := by
    rw [hnext]
    exact fun heq => (nodup_cons.1 h.nodup).1 (mem_of_mem_head? heq)
  have hhead : q.head = some a := h.head
  unfold Links.popFront Links.unlink
  simp only [setNext, setPrev, hprev, hhead, if_true, Linked.setAt]
  congr 1
  exact Linked.setAt_update ham

theorem Holds.popFront (h : q.Holds (a :: m)) : (q.popFront a).Holds m := by
  rw [h.popFront_eq]
  exact Holds.unlink (l := []) h

/-- **A node is put before the head.** -/
theorem Holds.pushFront (h : q.Holds l) (ha : a ∉ l) : (q.pushFront a).Holds (a :: l) where
  forward := by
    have hsp := Linked.splice (l := []) h.forward ha
    rw [if_pos rfl, ← h.head] at hsp
    exact hsp
  backward := by
    have hb : Linked q.prev l.getLast? (l.reverse ++ []) := by
      rw [append_nil]
      exact h.backward
    have hsp := hb.splice (a := a) (by simpa using ha)
    rw [reverse_cons]
    rw [List.getLast?_reverse, ← h.head] at hsp
    rw [← nil_append (a :: l), Linked.getLast?_middle]
    exact hsp
  rest := by
    intro c hc
    rw [mem_cons, not_or] at hc
    have hh : q.head ≠ some c := by
      rw [h.head]
      exact fun heq => hc.2 (mem_of_mem_head? heq)
    have hn : (q.pushFront a).next c = q.next c := update_of_ne hc.1 _ _
    have hp : (q.pushFront a).prev c = q.prev c :=
      (update_of_ne hc.1 _ _).trans (Linked.setAt_of_ne hh)
    rw [hn, hp]
    exact h.rest c hc.2

/-- **A node is put after one of the list.** -/
theorem Holds.insertAfter (h : q.Holds (l ++ b :: m)) (ha : a ∉ l ++ b :: m) :
    (q.insertAfter b a).Holds (l ++ b :: a :: m) := by
  have hba : (some b : Option α) ≠ some a := fun hba => ha (Option.some.inj hba ▸ by simp)
  have hna : q.next b ≠ some a := by
    rw [h.next]
    exact fun heq => ha (by simp [mem_of_mem_head? heq])
  have hsplit : l ++ b :: m = (l ++ [b]) ++ m := by simp
  have hnext : (q.insertAfter b a).next
      = Function.update (Linked.setAt q.next (some b) (some a)) a (q.next b) :=
    Linked.setAt_update hba
  have hprev : (q.insertAfter b a).prev
      = Function.update (Linked.setAt q.prev (q.next b) (some a)) a (some b) :=
    Linked.setAt_update hna
  refine ⟨?_, ?_, ?_⟩
  · have hf := h.forward
    rw [hsplit] at hf
    have hsp := hf.splice (a := a) (by rw [← hsplit]; exact ha)
    rw [if_neg (by simp), List.getLast?_concat, ← h.next, append_assoc] at hsp
    rw [hnext]
    exact hsp
  · have hb := h.backward
    rw [reverse_append, reverse_cons, append_assoc, singleton_append] at hb
    have hrev : m.reverse ++ b :: l.reverse = (l ++ b :: m).reverse := by simp
    have hsp := hb.splice (a := a) (by rw [hrev, mem_reverse]; exact ha)
    rw [List.getLast?_reverse, ← h.next, List.head?_cons] at hsp
    have hrev' : (l ++ b :: a :: m).reverse = m.reverse ++ a :: b :: l.reverse := by simp
    have hlast : (l ++ b :: a :: m).getLast?
        = if m.reverse = [] then some a else (l ++ b :: m).getLast? := by
      have := Linked.getLast?_middle (l ++ [b]) a m
      simpa using this
    rw [hprev, hrev', hlast]
    exact hsp
  · intro c hc
    have hca : c ≠ a := fun hca => hc (by simp [hca])
    have hcb : c ≠ b := fun hcb => hc (by simp [hcb])
    have hcl : c ∉ l ++ b :: m := fun hcl => hc (by
      rw [mem_append, mem_cons] at hcl ⊢
      tauto)
    have hnc : q.next b ≠ some c := by
      rw [h.next]
      exact fun heq => hcl (by simp [mem_of_mem_head? heq])
    rw [hnext, hprev, update_of_ne hca, update_of_ne hca,
      Linked.setAt_of_ne fun heq => hcb (Option.some.inj heq).symm, Linked.setAt_of_ne hnc]
    exact h.rest c hcl

end Links

end OpenBinder.Lib
