import OpenBinder.Lib.Lists
import Mathlib.Data.Int.Order.Basic

/-!
# The links of messages

`SMessageList` with its pointers: any number of lists, and the messages that are in them or in
none. A message is its address, and the operations are the ones that insert and remove.

* `MessageLinks.Holds`: the pointers of every list go through its messages in both directions,
  `fCount` is how many there are, no message is in two lists and the others point nowhere.
* `Holds.insert`, `Holds.cut`: a message between two of a list, and out of a list. Every operation is
  one of the two.
-/

namespace OpenBinder

open Lib Function List

/-- `m_next` and `m_prev` of the messages, and `fHead`, `fTail` and `fCount` of the lists. -/
structure MessageLinks (L : Type*) where
  next : ℕ → Option ℕ
  prev : ℕ → Option ℕ
  head : L → Option ℕ
  tail : L → Option ℕ
  count : L → ℤ

namespace MessageLinks

variable {L : Type*}

/-- Empty lists. -/
def empty : MessageLinks L where
  next := fun _ => none
  prev := fun _ => none
  head := fun _ => none
  tail := fun _ => none
  count := fun _ => 0

/-- The messages that a number of steps along the pointers goes through. -/
def follow (next : ℕ → Option ℕ) : ℕ → Option ℕ → List ℕ
  | _, none => []
  | 0, some _ => []
  | n + 1, some a => a :: follow next n (next a)

/-- The messages of a list, from its head. -/
def messages (q : MessageLinks L) (l : L) : List ℕ := follow q.next (q.count l).toNat (q.head l)

/-- The pointers without those to the ends. -/
def pointers (q : MessageLinks L) : Lists L ℕ := ⟨q.next, q.prev, q.head⟩

/-- **The pointers are those of the lists** with these messages. -/
structure Holds (q : MessageLinks L) (seq : L → List ℕ) : Prop where
  lists : q.pointers.Holds seq
  tail : ∀ l, q.tail l = (seq l).getLast?
  count : ∀ l, q.count l = (seq l).length

variable {q q' : MessageLinks L} {seq : L → List ℕ} {l : L} {a : ℕ} {x y : List ℕ}

theorem Holds.forward (h : q.Holds seq) (l : L) : Linked q.next (q.head l) (seq l) :=
  h.lists.forward l

theorem Holds.backward (h : q.Holds seq) (l : L) : Linked q.prev (q.tail l) (seq l).reverse := by
  rw [h.tail]
  exact h.lists.backward l

theorem Holds.disjoint (h : q.Holds seq) (l l' : L) (a : ℕ) (hl : a ∈ seq l) (hl' : a ∈ seq l') :
    l = l' :=
  h.lists.disjoint l l' a hl hl'

theorem Holds.rest (h : q.Holds seq) (a : ℕ) (ha : ∀ l, a ∉ seq l) :
    q.next a = none ∧ q.prev a = none :=
  h.lists.rest a ha

theorem follow_eq {next : ℕ → Option ℕ} : ∀ {m : List ℕ} {p : Option ℕ}, Linked next p m →
    follow next m.length p = m := by
  intro m
  induction m with
  | nil =>
    intro p h
    rw [linked_nil] at h
    rw [h]
    rfl
  | cons b m ih =>
    intro p h
    obtain ⟨rfl, h⟩ := h
    show b :: follow next m.length (next b) = _
    rw [ih h]

theorem Holds.messages (h : q.Holds seq) (l : L) : q.messages l = seq l := by
  rw [MessageLinks.messages, h.count, Int.toNat_natCast, follow_eq (h.forward l)]

theorem Holds.empty : (MessageLinks.empty : MessageLinks L).Holds fun _ => [] where
  lists := ⟨fun _ => rfl, fun _ => rfl, fun _ _ _ h => (not_mem_nil h).elim,
    fun _ _ => ⟨rfl, rfl⟩⟩
  tail := fun _ => rfl
  count := fun _ => rfl

section

variable (h : q.Holds seq)
include h

theorem Holds.nodup (l : L) : (seq l).Nodup := h.lists.nodup l

theorem Holds.head (l : L) : q.head l = (seq l).head? := h.lists.head l

theorem Holds.next (hl : seq l = x ++ a :: y) : q.next a = y.head? :=
  h.lists.next hl

theorem Holds.prev (hl : seq l = x ++ a :: y) : q.prev a = x.getLast? :=
  h.lists.prev hl

theorem Holds.head_ne (ha : ∀ l, a ∉ seq l) (l : L) : q.head l ≠ some a := by
  rw [h.head]
  exact fun heq => ha l (mem_of_mem_head? heq)

theorem Holds.tail_ne (ha : ∀ l, a ∉ seq l) (l : L) : q.tail l ≠ some a := by
  rw [h.tail]
  exact fun heq => ha l (mem_of_getLast? heq)

end

variable [DecidableEq L]

def addHead (q : MessageLinks L) (l : L) (message : ℕ) : MessageLinks L where
  next := update q.next message (q.head l)
  prev := Linked.setAt q.prev (q.head l) (some message)
  head := update q.head l (some message)
  tail := if q.tail l = none then update q.tail l (some message) else q.tail
  count := update q.count l (q.count l + 1)

def addTail (q : MessageLinks L) (l : L) (message : ℕ) : MessageLinks L where
  prev := update q.prev message (q.tail l)
  next := Linked.setAt q.next (q.tail l) (some message)
  tail := update q.tail l (some message)
  head := if q.head l = none then update q.head l (some message) else q.head
  count := update q.count l (q.count l + 1)

def insertBefore (q : MessageLinks L) (l : L) (message : ℕ) : Option ℕ → MessageLinks L
  | none => q.addTail l message
  | some position =>
    let q₁ := match q.prev position with
      | some before =>
        { q with
          prev := update q.prev message (some before)
          next := update q.next before (some message) }
      | none => { q with head := update q.head l (some message) }
    { q₁ with
      next := update q₁.next message (some position)
      prev := update q₁.prev position (some message)
      count := update q₁.count l (q₁.count l + 1) }

def insertAfter (q : MessageLinks L) (l : L) (message : ℕ) : Option ℕ → MessageLinks L
  | none => q.addHead l message
  | some position =>
    let q₁ := match q.next position with
      | some behind =>
        { q with
          next := update q.next message (some behind)
          prev := update q.prev behind (some message) }
      | none => { q with tail := update q.tail l (some message) }
    { q₁ with
      prev := update q₁.prev message (some position)
      next := update q₁.next position (some message)
      count := update q₁.count l (q₁.count l + 1) }

def removeHead (q : MessageLinks L) (l : L) : Option ℕ × MessageLinks L :=
  match q.head l with
  | none => (none, q)
  | some ret =>
    let q₁ := { q with
      head := update q.head l (q.next ret)
      tail := if q.tail l = some ret then update q.tail l none else q.tail }
    let prev := Linked.setAt q₁.prev (q₁.head l) none
    (some ret, { q₁ with
      next := update q₁.next ret none
      prev := update prev ret none
      count := update q₁.count l (q₁.count l - 1) })

/-- `Remove`: it comes back with nothing where a message that has no neighbour is not at the end of
the list, and has already changed the one after it where that is so for its front. -/
def remove (q : MessageLinks L) (l : L) (message : ℕ) : Option ℕ × MessageLinks L :=
  if q.next message = none ∧ q.tail l ≠ some message then (none, q)
  else
    let q₁ := match q.next message with
      | some behind => { q with prev := update q.prev behind (q.prev message) }
      | none => { q with tail := update q.tail l (q.prev message) }
    if q₁.prev message = none ∧ q₁.head l ≠ some message then (none, q₁)
    else
      let q₂ := match q₁.prev message with
        | some before => { q₁ with next := update q₁.next before (q₁.next message) }
        | none => { q₁ with head := update q₁.head l (q₁.next message) }
      (some message, { q₂ with
        next := update q₂.next message none
        prev := update q₂.prev message none
        count := update q₂.count l (q₂.count l - 1) })

/-- `MakeEmpty`, but for the messages that are deleted. -/
def makeEmpty (q : MessageLinks L) (l : L) : MessageLinks L where
  next := fun a => if a ∈ q.messages l then none else q.next a
  prev := fun a => if a ∈ q.messages l then none else q.prev a
  head := update q.head l none
  tail := update q.tail l none
  count := update q.count l 0

def adopt (q : MessageLinks L) (l o : L) : MessageLinks L :=
  let q₁ := q.makeEmpty l
  let q₂ := { q₁ with
    head := update q₁.head l (q₁.head o)
    tail := update q₁.tail l (q₁.tail o)
    count := update q₁.count l (q₁.count o) }
  { q₂ with
    head := update q₂.head o none
    tail := update q₂.tail o none
    count := update q₂.count o 0 }

/-! ### One message in or out -/

theorem Holds.insert (h : q.Holds seq) (hl : seq l = x ++ y) (ha : ∀ l, a ∉ seq l)
    (hnext : q'.next = update (Linked.setAt q.next x.getLast? (some a)) a y.head?)
    (hprev : q'.prev = update (Linked.setAt q.prev y.head? (some a)) a x.getLast?)
    (hhead : q'.head = update q.head l (if x = [] then some a else q.head l))
    (htail : q'.tail = update q.tail l (if y = [] then some a else q.tail l))
    (hcount : q'.count = update q.count l (q.count l + 1)) :
    q'.Holds (update seq l (x ++ a :: y)) := by
  refine ⟨h.lists.insert hl ha hnext hprev hhead, fun l' => ?_, fun l' => ?_⟩
  · rw [htail]
    by_cases hl' : l' = l
    · subst hl'
      rw [update_self, update_self, h.tail, hl, Linked.getLast?_middle]
      simp only [reverse_eq_nil_iff]
    · rw [update_of_ne hl', update_of_ne hl', h.tail]
  · rw [hcount]
    by_cases hl' : l' = l
    · subst hl'
      rw [update_self, update_self, h.count, hl]
      simp only [length_append, length_cons]
      omega
    · rw [update_of_ne hl', update_of_ne hl', h.count]

theorem Holds.cut (h : q.Holds seq) (hl : seq l = x ++ a :: y)
    (hnext : q'.next = update (Linked.setAt q.next x.getLast? y.head?) a none)
    (hprev : q'.prev = update (Linked.setAt q.prev y.head? x.getLast?) a none)
    (hhead : q'.head = update q.head l (if x = [] then y.head? else q.head l))
    (htail : q'.tail = update q.tail l (if y = [] then x.getLast? else q.tail l))
    (hcount : q'.count = update q.count l (q.count l - 1)) :
    q'.Holds (update seq l (x ++ y)) := by
  refine ⟨h.lists.cut hl hnext hprev hhead, fun l' => ?_, fun l' => ?_⟩
  · rw [htail]
    by_cases hl' : l' = l
    · subst hl'
      rw [update_self, update_self, h.tail, hl]
      cases y with
      | nil => simp
      | cons b y => simp
    · rw [update_of_ne hl', update_of_ne hl', h.tail]
  · rw [hcount]
    by_cases hl' : l' = l
    · subst hl'
      rw [update_self, update_self, h.count, hl]
      simp only [length_append, length_cons]
      omega
    · rw [update_of_ne hl', update_of_ne hl', h.count]

/-! ### The operations -/

theorem update_if {f : L → Option ℕ} {c : Prop} [Decidable c] {v : Option ℕ} :
    update f l (if c then v else f l) = if c then update f l v else f := by
  split
  · rfl
  · rw [update_eq_self]

section

variable (h : q.Holds seq)
include h

theorem Holds.addHead (l : L) (ha : ∀ l, a ∉ seq l) :
    (q.addHead l a).Holds (update seq l (a :: seq l)) := by
  obtain ⟨-, hprev⟩ := h.rest a ha
  refine h.insert (x := []) rfl ha ?_ ?_ ?_ ?_ rfl
  · rw [← h.head]
    rfl
  · rw [← h.head]
    exact (Linked.update_unlisted hprev (h.head_ne ha l)).symm
  · rw [if_pos rfl]
    rfl
  · rw [update_if]
    show (if q.tail l = none then _ else _) = _
    simp only [h.tail, List.getLast?_eq_none_iff]

theorem Holds.addTail (l : L) (ha : ∀ l, a ∉ seq l) :
    (q.addTail l a).Holds (update seq l (seq l ++ [a])) := by
  obtain ⟨hnext, -⟩ := h.rest a ha
  refine h.insert (append_nil _).symm ha ?_ ?_ ?_ ?_ rfl
  · rw [← h.tail]
    exact (Linked.update_unlisted hnext (h.tail_ne ha l)).symm
  · rw [← h.tail]
    rfl
  · rw [update_if]
    show (if q.head l = none then _ else _) = _
    simp only [h.head, List.head?_eq_none_iff]
  · rw [if_pos rfl]
    rfl

theorem Holds.insertAfter (hl : seq l = x ++ y) (ha : ∀ l, a ∉ seq l) :
    (q.insertAfter l a x.getLast?).Holds (update seq l (x ++ a :: y)) := by
  obtain ⟨hna, -⟩ := h.rest a ha
  rcases eq_nil_or_concat x with rfl | ⟨x, p, rfl⟩
  · rw [nil_append] at hl
    rw [nil_append, ← hl]
    exact h.addHead l ha
  rw [concat_eq_append] at hl ⊢
  have hpa : p ≠ a := fun hpa => ha l (by rw [hl]; simp [hpa])
  have hnp : q.next p = y.head? := h.next (by rw [hl, append_assoc, singleton_append])
  rw [List.getLast?_concat]
  cases y with
  | nil =>
    refine h.insert hl ha ?_ ?_ ?_ ?_ ?_ <;>
      simp only [MessageLinks.insertAfter, hnp, List.head?_nil]
    · rw [List.getLast?_concat]
      exact (Linked.update_unlisted (p := some p) hna (by simpa using hpa)).symm
    · rw [List.getLast?_concat]
      rfl
    · rw [if_neg (by simp), update_eq_self]
    · rw [if_pos trivial]
  | cons b y =>
    refine h.insert hl ha ?_ ?_ ?_ ?_ ?_ <;>
      simp only [MessageLinks.insertAfter, hnp, List.head?_cons]
    · rw [List.getLast?_concat, update_comm hpa.symm]
      rfl
    · rw [List.getLast?_concat]
      rfl
    · rw [if_neg (by simp), update_eq_self]
    · rw [if_neg (by simp), update_eq_self]

theorem Holds.insertBefore (hl : seq l = x ++ y) (ha : ∀ l, a ∉ seq l) :
    (q.insertBefore l a y.head?).Holds (update seq l (x ++ a :: y)) := by
  obtain ⟨-, hpa⟩ := h.rest a ha
  cases y with
  | nil =>
    rw [append_nil] at hl
    rw [← hl]
    exact h.addTail l ha
  | cons p y =>
    have hap : a ≠ p := fun hap => ha l (by rw [hl]; simp [hap])
    have hpp : q.prev p = x.getLast? := h.prev hl
    rw [List.head?_cons]
    rcases eq_nil_or_concat x with rfl | ⟨x, b, rfl⟩
    · refine h.insert hl ha ?_ ?_ ?_ ?_ ?_ <;>
        simp only [MessageLinks.insertBefore, hpp, List.getLast?_nil]
      · rfl
      · exact (Linked.update_unlisted (p := some p) hpa (by simpa using hap.symm)).symm
      · rw [if_pos trivial]
      · rw [if_neg (by simp), update_eq_self]
    · rw [concat_eq_append] at hl hpp ⊢
      rw [List.getLast?_concat] at hpp
      refine h.insert hl ha ?_ ?_ ?_ ?_ ?_ <;> simp only [MessageLinks.insertBefore, hpp]
      · rw [List.getLast?_concat]
        rfl
      · rw [List.getLast?_concat, update_comm hap]
        rfl
      · rw [if_neg (by simp), update_eq_self]
      · rw [if_neg (by simp), update_eq_self]

theorem Holds.remove (hl : seq l = x ++ a :: y) :
    (q.remove l a).1 = some a ∧ (q.remove l a).2.Holds (update seq l (x ++ y)) := by
  have hn := h.next hl
  have hp := h.prev hl
  have hnd := h.nodup l
  have hhead := h.head l
  have htail := h.tail l
  rw [hl] at hnd hhead htail
  obtain ⟨hax, hay⟩ := Linked.notMem_of_nodup hnd
  -- the message is found to be in the list at both ends
  have hend : ¬(q.next a = none ∧ q.tail l ≠ some a) := by
    rintro ⟨hna, hta⟩
    rw [hn, List.head?_eq_none_iff] at hna
    rw [htail, hna, List.getLast?_concat] at hta
    exact hta rfl
  have hstart : ¬(q.prev a = none ∧ q.head l ≠ some a) := by
    rintro ⟨hpa, hha⟩
    rw [hp, List.getLast?_eq_none_iff] at hpa
    rw [hhead, hpa] at hha
    exact hha rfl
  have heq : q.remove l a = (some a,
      { next := update (Linked.setAt q.next x.getLast? y.head?) a none
        prev := update (Linked.setAt q.prev y.head? x.getLast?) a none
        head := update q.head l (if x = [] then y.head? else q.head l)
        tail := update q.tail l (if y = [] then x.getLast? else q.tail l)
        count := update q.count l (q.count l - 1) }) := by
    unfold MessageLinks.remove
    rw [if_neg hend, update_if, update_if]
    cases y with
    | nil =>
      simp only [hn, hp, List.head?_nil] at hstart ⊢
      simp only [hstart, if_false, if_true]
      rcases eq_nil_or_concat x with rfl | ⟨x, b, rfl⟩
      · rfl
      · rw [concat_eq_append, List.getLast?_concat, if_neg (by simp)]
        rfl
    | cons c y =>
      have hac : a ≠ c := fun hac => hay (hac ▸ mem_cons_self)
      simp only [hn, hp, List.head?_cons, update_of_ne hac] at hstart ⊢
      simp only [hstart, if_false, reduceCtorEq]
      rcases eq_nil_or_concat x with rfl | ⟨x, b, rfl⟩
      · rfl
      · rw [concat_eq_append, List.getLast?_concat, if_neg (by simp)]
        rfl
  rw [heq]
  exact ⟨rfl, h.cut hl rfl rfl rfl rfl rfl⟩

/-- **A message that is in no list**, or the last one of another: nothing is removed. -/
theorem Holds.remove_last (ha : a ∉ seq l) (hna : q.next a = none) : q.remove l a = (none, q) := by
  have htail : q.tail l ≠ some a := by
    rw [h.tail]
    exact fun heq => ha (mem_of_getLast? heq)
  unfold MessageLinks.remove
  rw [if_pos ⟨hna, htail⟩]

/-- **The first message of another list**: nothing is removed, but the one behind it has lost its
pointer. -/
theorem Holds.remove_front {l' : L} {c : ℕ} (hl' : seq l' = a :: c :: y) (ha : a ∉ seq l) :
    q.remove l a = (none, { q with prev := update q.prev c none }) := by
  have hn : q.next a = some c := h.next (x := []) hl'
  have hp : q.prev a = none := h.prev (x := []) hl'
  have hhead : q.head l ≠ some a := by
    rw [h.head]
    exact fun heq => ha (mem_of_mem_head? heq)
  have hac : a ≠ c := by
    have hnd := h.nodup l'
    rw [hl'] at hnd
    exact fun hac => (nodup_cons.1 hnd).1 (hac ▸ mem_cons_self)
  simp only [MessageLinks.remove, hn, hp, reduceCtorEq, false_and, if_false,
    update_of_ne hac]
  rw [if_pos ⟨trivial, hhead⟩]

/-- **A message in the middle of another list**: it is removed from there, but the count goes down
here. -/
theorem Holds.remove_middle {l' : L} {b c : ℕ} (hl' : seq l' = (x ++ [b]) ++ a :: c :: y) :
    (q.remove l a).1 = some a ∧
      (q.remove l a).2.next = update (update q.next b (some c)) a none ∧
      (q.remove l a).2.head = q.head ∧
      (q.remove l a).2.count = update q.count l (q.count l - 1) := by
  have hn : q.next a = some c := h.next hl'
  have hp : q.prev a = some b := by
    rw [h.prev hl', List.getLast?_concat]
  have hac : a ≠ c := by
    have hnd := h.nodup l'
    rw [hl'] at hnd
    exact fun hac => (Linked.notMem_of_nodup hnd).2 (hac ▸ mem_cons_self)
  simp only [MessageLinks.remove, hn, hp, reduceCtorEq, false_and, if_false,
    update_of_ne hac, and_self]

theorem Holds.removeHead_eq (hl : seq l = a :: y) : q.removeHead l = q.remove l a := by
  have hn : q.next a = y.head? := h.next (x := []) hl
  have hp : q.prev a = none := h.prev (x := []) hl
  have hhead : q.head l = some a := by rw [h.head, hl]; rfl
  have htail := h.tail l
  have hnd := h.nodup l
  rw [hl] at htail hnd
  unfold MessageLinks.removeHead MessageLinks.remove
  cases y with
  | nil =>
    have hta : q.tail l = some a := htail
    simp only [hhead, hn, hp, hta, update_self, List.head?_nil, ne_eq, not_true, and_false,
      if_false, if_true]
    rfl
  | cons c y =>
    have hac : a ≠ c := fun hac => (nodup_cons.1 hnd).1 (hac ▸ mem_cons_self)
    have hta : q.tail l ≠ some a := by
      rw [htail, List.getLast?_cons_cons]
      exact fun heq => (nodup_cons.1 hnd).1 (mem_of_getLast? heq)
    simp only [hhead, hn, hp, hta, update_self, update_of_ne hac, List.head?_cons,
      ne_eq, not_true, and_false, if_false, reduceCtorEq, false_and]
    rfl

/-- **A list takes over another one**: what it had is in no list any more. -/
theorem Holds.adopt (l o : L) :
    (q.adopt l o).Holds (update (update seq l (seq o)) o []) := by
  have hseq (l' : L) : update (update seq l (seq o)) o [] l'
      = if l' = o then [] else if l' = l then seq o else seq l' := by
    simp only [update_apply]
  have hhead (l' : L) : (q.adopt l o).head l'
      = if l' = o then none else if l' = l then q.head o else q.head l' := by
    simp only [MessageLinks.adopt, makeEmpty, update_apply]
    split_ifs <;> simp_all
  have htail (l' : L) : (q.adopt l o).tail l'
      = if l' = o then none else if l' = l then q.tail o else q.tail l' := by
    simp only [MessageLinks.adopt, makeEmpty, update_apply]
    split_ifs <;> simp_all
  have hcount (l' : L) : (q.adopt l o).count l'
      = if l' = o then 0 else if l' = l then q.count o else q.count l' := by
    simp only [MessageLinks.adopt, makeEmpty, update_apply]
    split_ifs <;> simp_all
  have hnext (a : ℕ) : (q.adopt l o).next a = if a ∈ seq l then none else q.next a := by
    rw [← h.messages l]
    rfl
  have hprev (a : ℕ) : (q.adopt l o).prev a = if a ∈ seq l then none else q.prev a := by
    rw [← h.messages l]
    rfl
  -- the messages of another list keep their pointers
  have hother {l' : L} (hl' : l' ≠ l) {a : ℕ} (ha : a ∈ seq l') : a ∉ seq l :=
    fun hal => hl' (h.disjoint l' l a ha hal)
  have hfwd {l' : L} (hl' : l' ≠ l) : Linked (q.adopt l o).next (q.head l') (seq l') :=
    (h.forward l').congr fun a ha => by rw [hnext, if_neg (hother hl' ha)]
  have hbwd {l' : L} (hl' : l' ≠ l) :
      Linked (q.adopt l o).prev (seq l').getLast? (seq l').reverse :=
    (h.lists.backward l').congr fun a ha => by
      rw [hprev, if_neg (hother hl' (mem_reverse.1 ha))]
      rfl
  refine ⟨⟨fun l' => ?_, fun l' => ?_, ?_, ?_⟩, fun l' => ?_, fun l' => ?_⟩
  · show Linked (q.adopt l o).next ((q.adopt l o).head l') _
    rw [hseq, hhead]
    split_ifs with ho hl
    · rfl
    · exact hfwd fun hol => ho (hl.trans hol.symm)
    · exact hfwd hl
  · show Linked (q.adopt l o).prev _ _
    rw [hseq]
    split_ifs with ho hl
    · rfl
    · exact hbwd fun hol => ho (hl.trans hol.symm)
    · exact hbwd hl
  · intro l₁ l₂ a h₁ h₂
    rw [hseq] at h₁ h₂
    split_ifs at h₁ with ho₁ hl₁
    · cases h₁
    · split_ifs at h₂ with ho₂ hl₂
      · cases h₂
      · exact hl₁.trans hl₂.symm
      · exact absurd (h.disjoint o l₂ a h₁ h₂).symm ho₂
    · split_ifs at h₂ with ho₂ hl₂
      · cases h₂
      · exact absurd (h.disjoint l₁ o a h₁ h₂) ho₁
      · exact h.disjoint l₁ l₂ a h₁ h₂
  · intro a ha
    show (q.adopt l o).next a = none ∧ (q.adopt l o).prev a = none
    rw [hnext, hprev]
    split_ifs with hal
    · exact ⟨rfl, rfl⟩
    refine h.rest a fun l' hl' => ?_
    have hll' : l' ≠ l := by
      rintro rfl
      exact hal hl'
    by_cases ho : l' = o
    · subst ho
      have := ha l
      rw [hseq, if_neg hll'.symm, if_pos rfl] at this
      exact this hl'
    · have := ha l'
      rw [hseq, if_neg ho, if_neg hll'] at this
      exact this hl'
  · rw [hseq, htail]
    split_ifs
    · rfl
    · exact h.tail o
    · exact h.tail l'
  · rw [hseq, hcount]
    split_ifs
    · rfl
    · exact h.count o
    · exact h.count l'

end

end MessageLinks

end OpenBinder
