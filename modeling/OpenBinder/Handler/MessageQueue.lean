import OpenBinder.Handler.MessageLinks
import OpenBinder.Handler.MessageList

/-!
# Queues of linked messages

The queue operations of `SMessageList` as they walk along the pointers. A loop over a list gets as
many turns as `fCount` says, which is enough for it to end where the pointers hold.

* `enqueueMessage`, `enqueueMessageRemoveDups`, `enqueueUniqueMessage`, `dequeueMessage`.
* `enqueueMessage_spec` and the like: **they do what the operations on lists of messages do**, which
  `SMessageList` has under the same names.
-/

namespace OpenBinder

open Lib Function
open List hiding after

/-- The messages in memory with their links, and their contents. -/
structure SMessageLists (L D : Type*) where
  links : MessageLinks L
  content : ℕ → SMessage D

namespace SMessageLists

open SMessageList (stamp removeWhat withWhat before after repurpose anyWhat Posted addrs)

variable {L D : Type*}

/-- How many turns a loop over a list gets. -/
def turns (s : SMessageLists L D) (l : L) : ℕ := (s.links.count l).toNat

def setWhen (s : SMessageLists L D) (msg : ℕ) (time : ℤ) : SMessageLists L D :=
  { s with content := update s.content msg { s.content msg with when := time } }

/-- A message made the copy of another one. -/
def copyTo (s : SMessageLists L D) (msg : ℕ) (inmsg : SMessage D) : SMessageLists L D :=
  { s with content := update s.content msg { inmsg with addr := msg } }

/-- A message with the data and the priority of another one. -/
def repurposed (s : SMessageLists L D) (msg : ℕ) (inmsg : SMessage D) : SMessageLists L D :=
  { s with content := update s.content msg (repurpose inmsg (s.content msg)) }

/-- The walk of `EnqueueMessage` from the tail. -/
def walkBack (s : SMessageLists L D) (thisStamp : ℤ) : ℕ → Option ℕ → Option ℕ
  | _, none => none
  | 0, some pos => some pos
  | n + 1, some pos =>
    if thisStamp < (s.content pos).when then walkBack s thisStamp n (s.links.prev pos) else some pos

/-- The walk of `EnqueueMessageRemoveDups` from the tail: where it stops, the message it was at
before, and whether one before that has the code. -/
def walkDups (s : SMessageLists L D) (thisWhat : ℕ) (thisStamp : ℤ) :
    ℕ → Option ℕ → Option ℕ → Bool → Option ℕ × Option ℕ × Bool
  | _, none, prev, removeOldMsgs => (none, prev, removeOldMsgs)
  | 0, some pos, prev, removeOldMsgs => (some pos, prev, removeOldMsgs)
  | n + 1, some pos, prev, removeOldMsgs =>
    if thisStamp < (s.content pos).when then
      walkDups s thisWhat thisStamp n (s.links.prev pos) (some pos)
        (removeOldMsgs || prev.any fun p => (s.content p).what = thisWhat)
    else (some pos, prev, removeOldMsgs)

/-- The walk of `EnqueueUniqueMessage` from the head: where it stops, and the message with the code
that it found. -/
def walkDue (s : SMessageLists L D) (thisWhat : ℕ) (thisStamp : ℤ) :
    ℕ → Option ℕ → Option ℕ × Option ℕ
  | _, none => (none, none)
  | 0, some pos => (some pos, none)
  | n + 1, some pos =>
    if (s.content pos).when ≤ thisStamp then
      if (s.content pos).what = thisWhat then (s.links.next pos, some pos)
      else walkDue s thisWhat thisStamp n (s.links.next pos)
    else (some pos, none)

/-- The walk of `DequeueMessage` to a message with the code. -/
def walkWhat (s : SMessageLists L D) (what : ℕ) : ℕ → Option ℕ → Option ℕ
  | _, none => none
  | 0, some _ => none
  | n + 1, some msg =>
    if what ≠ (s.content msg).what then walkWhat s what n (s.links.next msg) else some msg

/-! ### The walks -/

variable {s : SMessageLists L D} {seq : L → List ℕ} {l out : L} {x y : List ℕ}

theorem walkBack_eq (h : s.links.Holds seq) (time : ℤ) : ∀ {n : ℕ} {x y : List ℕ}, seq l = x ++ y →
    x.length ≤ n → s.walkBack time n x.getLast?
      = (x.rdropWhile fun a => time < (s.content a).when).getLast? := by
  intro n
  induction n with
  | zero =>
    intro x y _ hn
    rw [length_eq_zero_iff.1 (Nat.le_zero.1 hn)]
    rfl
  | succ n ih =>
    intro x y hl hn
    rcases eq_nil_or_concat x with rfl | ⟨x, a, rfl⟩
    · rfl
    rw [concat_eq_append] at hl hn ⊢
    rw [append_assoc, singleton_append] at hl
    rw [List.getLast?_concat, walkBack]
    by_cases ha : time < (s.content a).when
    · rw [if_pos ha, h.prev hl, rdropWhile_concat_pos _ _ _ (by simpa using ha)]
      exact ih hl (by simpa using hn)
    · rw [if_neg ha, rdropWhile_concat_neg _ _ _ (by simpa using ha), List.getLast?_concat]

theorem any_eq_head?_or (f : ℕ → Bool) (y : List ℕ) :
    (y.tail.any f || y.head?.any f) = y.any f := by
  cases y with
  | nil => rfl
  | cons b y => simp [Bool.or_comm]

section

variable (h : s.links.Holds seq) (what : ℕ)
include h what

/-- **The walk over what is due later** has seen what it passed, but for the last one. -/
theorem walkDups_eq (time : ℤ) : ∀ {n : ℕ} {x y : List ℕ},
    seq l = x ++ y → x.length ≤ n →
    s.walkDups what time n x.getLast? y.head? (y.tail.any fun a => (s.content a).what = what)
      = ((x.rdropWhile fun a => time < (s.content a).when).getLast?,
        ((x.rtakeWhile fun a => time < (s.content a).when) ++ y).head?,
        ((x.rtakeWhile fun a => time < (s.content a).when) ++ y).tail.any
          fun a => (s.content a).what = what) := by
  intro n
  induction n with
  | zero =>
    intro x y _ hn
    rw [length_eq_zero_iff.1 (Nat.le_zero.1 hn)]
    rfl
  | succ n ih =>
    intro x y hl hn
    rcases eq_nil_or_concat x with rfl | ⟨x, a, rfl⟩
    · rfl
    rw [concat_eq_append] at hl hn ⊢
    rw [append_assoc, singleton_append] at hl
    rw [List.getLast?_concat, walkDups]
    by_cases ha : time < (s.content a).when
    · rw [if_pos ha, any_eq_head?_or, h.prev hl, rdropWhile_concat_pos _ _ _
        (by simpa using ha),
        rtakeWhile_concat_pos _ _ _ (by simpa using ha), append_assoc,
        singleton_append]
      exact ih hl (by simpa using hn)
    · rw [if_neg ha, rdropWhile_concat_neg _ _ _ (by simpa using ha),
        rtakeWhile_concat_neg _ _ _ (by simpa using ha), List.getLast?_concat, nil_append]

theorem walkDue_none (time : ℤ) : ∀ {n : ℕ} {x y z : List ℕ},
    seq l = x ++ (y ++ z) → (y ++ z).length ≤ n →
    (∀ a ∈ y, (s.content a).when ≤ time ∧ (s.content a).what ≠ what) →
    (∀ a ∈ z.head?, time < (s.content a).when) →
    s.walkDue what time n (y ++ z).head? = (z.head?, none) := by
  intro n
  induction n with
  | zero =>
    intro x y z _ hn _ _
    have hnil : y ++ z = [] := length_eq_zero_iff.1 (Nat.le_zero.1 hn)
    rw [hnil, (append_eq_nil_iff.1 hnil).2]
    rfl
  | succ n ih =>
    intro x y z hl hn hy hz
    cases y with
    | nil =>
      cases z with
      | nil => rfl
      | cons a z =>
        rw [nil_append, List.head?_cons, walkDue, if_neg (not_le.2 (hz a rfl))]
    | cons a y =>
      obtain ⟨hle, hwhat⟩ := hy a mem_cons_self
      rw [cons_append, List.head?_cons, walkDue, if_pos hle, if_neg hwhat, h.next hl]
      exact ih (x := x ++ [a]) (by rw [hl]; simp) (by simpa using hn)
        (fun b hb => hy b (mem_cons_of_mem _ hb)) hz

/-- **The walk over what is due** ends behind the first message with the code. -/
theorem walkDue_some (time : ℤ) {a : ℕ} {z : List ℕ}
    (ha : (s.content a).when ≤ time ∧ (s.content a).what = what) : ∀ {n : ℕ} {x y : List ℕ},
    seq l = x ++ (y ++ a :: z) → (y ++ a :: z).length ≤ n →
    (∀ b ∈ y, (s.content b).when ≤ time ∧ (s.content b).what ≠ what) →
    s.walkDue what time n (y ++ a :: z).head? = (z.head?, some a) := by
  intro n
  induction n with
  | zero =>
    intro x y _ hn _
    simp at hn
  | succ n ih =>
    intro x y hl hn hy
    cases y with
    | nil =>
      rw [nil_append] at hl
      rw [nil_append, List.head?_cons, walkDue, if_pos ha.1, if_pos ha.2, h.next hl]
    | cons b y =>
      obtain ⟨hle, hwhat⟩ := hy b mem_cons_self
      rw [cons_append, List.head?_cons, walkDue, if_pos hle, if_neg hwhat, h.next hl]
      exact ih (x := x ++ [b]) (by rw [hl]; simp) (by simpa using hn)
        fun c hc => hy c (mem_cons_of_mem _ hc)

theorem walkWhat_eq : ∀ {n : ℕ} {x y : List ℕ},
    seq l = x ++ y → y.length ≤ n →
    s.walkWhat what n y.head? = y.find? fun a => (s.content a).what = what := by
  intro n
  induction n with
  | zero =>
    intro x y _ hn
    rw [length_eq_zero_iff.1 (Nat.le_zero.1 hn)]
    rfl
  | succ n ih =>
    intro x y hl hn
    cases y with
    | nil => rfl
    | cons a y =>
      rw [List.head?_cons, walkWhat]
      by_cases ha : (s.content a).what = what
      · rw [if_neg (not_not.2 ha.symm), List.find?_cons_of_pos (by simpa using ha)]
      · rw [if_pos fun heq => ha heq.symm, List.find?_cons_of_neg (by simpa using ha), h.next hl]
        exact ih (x := x ++ [a]) (by rw [hl]; simp) (by simpa using hn)

end

/-! ### The operations -/

variable [DecidableEq L]

/-- The loop that removes the messages with the code up to the tail. -/
def removeLater (content : ℕ → SMessage D) (thisWhat : ℕ) (l outRemoved : L) :
    ℕ → Option ℕ → MessageLinks L → MessageLinks L
  | _, none, q => q
  | 0, some _, q => q
  | n + 1, some pos, q =>
    removeLater content thisWhat l outRemoved n (q.next pos)
      (if (content pos).what = thisWhat then (q.remove l pos).2.addTail outRemoved pos else q)

/-- The loop that removes the messages with the code up to the head. -/
def removeEarlier (content : ℕ → SMessage D) (thisWhat : ℕ) (l outRemoved : L) :
    ℕ → Option ℕ → MessageLinks L → MessageLinks L
  | _, none, q => q
  | 0, some _, q => q
  | n + 1, some pos, q =>
    removeEarlier content thisWhat l outRemoved n (q.prev pos)
      (if (content pos).what = thisWhat then (q.remove l pos).2.addHead outRemoved pos else q)

def enqueueMessage (s : SMessageLists L D) (l : L) (msg : ℕ) (now : ℤ) : SMessageLists L D :=
  let thisStamp := stamp (s.content msg).when now
  let s₁ := s.setWhen msg thisStamp
  let pos := s₁.walkBack thisStamp (s₁.turns l) (s₁.links.tail l)
  { s₁ with links := s₁.links.insertAfter l msg pos }

/-- What a message posted with a duplicate flag comes back with. -/
structure Enqueued (L D : Type*) where
  lists : SMessageLists L D
  msg : Option ℕ
  prevData : Option D

def enqueueMessageRemoveDups (s : SMessageLists L D) (l : L) (inmsg : SMessage D) (time now : ℤ)
    (new : Option ℕ) (outRemoved : L) : Enqueued L D :=
  let thisStamp := stamp time now
  let thisWhat := inmsg.what
  let (pos, prev, removeOldMsgs) :=
    s.walkDups thisWhat thisStamp (s.turns l) (s.links.tail l) none false
  let placed : Option (ℕ × Option D × SMessageLists L D) :=
    match prev.filter fun p => (s.content p).what = thisWhat with
    | some msg => some (msg, some (s.content msg).data, s.copyTo msg inmsg)
    | none => new.map fun msg =>
      (msg, none, { s.copyTo msg inmsg with links := s.links.insertAfter l msg pos })
  match placed with
  | none => ⟨s, none, none⟩
  | some (msg, prevData, s₁) =>
    let s₂ := s₁.setWhen msg thisStamp
    let q := if removeOldMsgs then
        removeLater s₂.content thisWhat l outRemoved (s₂.turns l) (s₂.links.next msg) s₂.links
      else s₂.links
    ⟨{ s₂ with links := removeEarlier s₂.content thisWhat l outRemoved (s₂.turns l) pos q },
      some msg, prevData⟩

def enqueueUniqueMessage (s : SMessageLists L D) (l : L) (inmsg : SMessage D) (time now : ℤ)
    (new : Option ℕ) (outRemoved : L) : Enqueued L D :=
  let thisStamp := stamp time now
  let thisWhat := inmsg.what
  let (pos, found) := s.walkDue thisWhat thisStamp (s.turns l) (s.links.head l)
  let placed : Option (ℕ × Option D × Option ℕ × SMessageLists L D) :=
    match found with
    | some msg => some (msg, some (s.content msg).data, pos, s.repurposed msg inmsg)
    | none =>
      match pos.filter fun p => (s.content p).what = thisWhat with
      | some msg => some (msg, some (s.content msg).data, s.links.next msg, s.repurposed msg inmsg)
      | none => new.map fun msg =>
        (msg, none, pos, { (s.copyTo msg inmsg).setWhen msg thisStamp with
          links := s.links.insertBefore l msg pos })
  match placed with
  | none => ⟨s, none, none⟩
  | some (msg, prevData, pos, s₁) =>
    ⟨{ s₁ with links := removeLater s₁.content thisWhat l outRemoved (s₁.turns l) pos s₁.links },
      some msg, prevData⟩

/-- `DequeueMessage`: the message, whether there are more, and the lists. -/
def dequeueMessage (s : SMessageLists L D) (l : L) (what : ℕ) :
    Option ℕ × Bool × SMessageLists L D :=
  let (msg, q) :=
    if what = anyWhat then s.links.removeHead l
    else
      match s.walkWhat what (s.turns l) (s.links.head l) with
      | none => (none, s.links)
      | some msg => (some msg, (s.links.remove l msg).2)
  (msg, q.count l ≠ 0, { s with links := q })

/-! ### The loops that remove -/

/-- **Lists that are as they were**, but for two. -/
structure Only (seq seq' : L → List ℕ) (l out : L) (x y : List ℕ) : Prop where
  here : seq' l = x
  there : seq' out = y
  other : ∀ l', l' ≠ l → l' ≠ out → seq' l' = seq l'

variable {seq₁ : L → List ℕ} {msg : ℕ} {m : SMessage D} {new : Option ℕ}

omit [DecidableEq L] in
theorem Only.trans {seq₂ : L → List ℕ} {x' y' : List ℕ} (h : Only seq seq₁ l out x y)
    (h' : Only seq₁ seq₂ l out x' y') : Only seq seq₂ l out x' y' :=
  ⟨h'.here, h'.there, fun l' hl hout => (h'.other l' hl hout).trans (h.other l' hl hout)⟩

/-- **A message from one list into another**, with any operation that puts it there. -/
theorem moved_holds (add : MessageLinks L → MessageLinks L) (y' : List ℕ) {q : MessageLinks L}
    {a : ℕ} (hout : out ≠ l) (h : q.Holds seq) (hl : seq l = x ++ a :: y)
    (hadd : ∀ {q : MessageLinks L} {seq' : L → List ℕ}, q.Holds seq' → (∀ l, a ∉ seq' l) →
      seq' out = seq out → (add q).Holds (update seq' out y')) :
    ∃ seq', (add (q.remove l a).2).Holds seq' ∧ Only seq seq' l out (x ++ y) y' := by
  have h₂ := hadd (h.remove hl).2 (h.lists.notMem_cut hl) (update_of_ne hout _ _)
  refine ⟨_, h₂, ?_, update_self _ _ _, fun l' hl' hout' => ?_⟩
  · rw [update_of_ne hout.symm, update_self]
  · rw [update_of_ne hout', update_of_ne hl']

section

variable (content : ℕ → SMessage D) (what : ℕ) (hout : out ≠ l)
include content what hout

theorem removeLater_holds : ∀ {n : ℕ} {q : MessageLinks L} {seq : L → List ℕ} {x y : List ℕ},
    q.Holds seq → seq l = x ++ y → y.length ≤ n →
    ∃ seq', (removeLater content what l out n y.head? q).Holds seq' ∧
      Only seq seq' l out (x ++ y.filter fun a => (content a).what ≠ what)
        (seq out ++ y.filter fun a => (content a).what = what) := by
  intro n
  induction n with
  | zero =>
    intro q seq x y h hl hn
    obtain rfl := length_eq_zero_iff.1 (Nat.le_zero.1 hn)
    exact ⟨seq, h, by simpa using hl, by simp, fun _ _ _ => rfl⟩
  | succ n ih =>
    intro q seq x y h hl hn
    cases y with
    | nil => exact ⟨seq, h, by simpa using hl, by simp, fun _ _ _ => rfl⟩
    | cons a y =>
      rw [List.head?_cons, removeLater, h.next hl]
      have hn' : y.length ≤ n := by simpa using hn
      by_cases ha : (content a).what = what
      · rw [if_pos ha, filter_cons_of_neg (by simpa using ha),
          filter_cons_of_pos (by simpa using ha)]
        obtain ⟨seq₁, h₁, ho₁⟩ := moved_holds (·.addTail out a) (seq out ++ [a]) hout h hl
          fun h ha hseq => hseq ▸ h.addTail out ha
        obtain ⟨seq₂, h₂, ho₂⟩ := ih h₁ ho₁.here hn'
        rw [ho₁.there, append_assoc, singleton_append] at ho₂
        exact ⟨seq₂, h₂, ho₁.trans ho₂⟩
      · rw [if_neg ha, filter_cons_of_pos (by simpa using ha),
          filter_cons_of_neg (by simpa using ha)]
        have hl' : seq l = (x ++ [a]) ++ y := by rw [hl]; simp
        obtain ⟨seq', h', ho⟩ := ih h hl' hn'
        exact ⟨seq', h', by simpa using ho.here, ho.there, ho.other⟩

theorem removeEarlier_holds : ∀ {n : ℕ} {q : MessageLinks L} {seq : L → List ℕ} {x y : List ℕ},
    q.Holds seq → seq l = x ++ y → x.length ≤ n →
    ∃ seq', (removeEarlier content what l out n x.getLast? q).Holds seq' ∧
      Only seq seq' l out ((x.filter fun a => (content a).what ≠ what) ++ y)
        ((x.filter fun a => (content a).what = what) ++ seq out) := by
  intro n
  induction n with
  | zero =>
    intro q seq x y h hl hn
    obtain rfl := length_eq_zero_iff.1 (Nat.le_zero.1 hn)
    exact ⟨seq, h, by simpa using hl, by simp, fun _ _ _ => rfl⟩
  | succ n ih =>
    intro q seq x y h hl hn
    rcases eq_nil_or_concat x with rfl | ⟨x, a, rfl⟩
    · exact ⟨seq, h, by simpa using hl, by simp, fun _ _ _ => rfl⟩
    rw [concat_eq_append] at hl hn ⊢
    rw [append_assoc, singleton_append] at hl
    rw [List.getLast?_concat, removeEarlier, h.prev hl, filter_append, filter_append]
    have hn' : x.length ≤ n := by simpa using hn
    by_cases ha : (content a).what = what
    · rw [if_pos ha, filter_cons_of_neg (by simpa using ha),
        filter_cons_of_pos (by simpa using ha), filter_nil, filter_nil,
        append_nil, append_assoc, singleton_append]
      obtain ⟨seq₁, h₁, ho₁⟩ := moved_holds (·.addHead out a) (a :: seq out) hout h hl
        fun h ha hseq => hseq ▸ h.addHead out ha
      obtain ⟨seq₂, h₂, ho₂⟩ := ih h₁ ho₁.here hn'
      rw [ho₁.there] at ho₂
      exact ⟨seq₂, h₂, ho₁.trans ho₂⟩
    · rw [if_neg ha, filter_cons_of_pos (by simpa using ha),
        filter_cons_of_neg (by simpa using ha), filter_nil, filter_nil,
        append_nil, append_assoc, singleton_append]
      exact ih h hl hn'

theorem removeBoth_holds {q : MessageLinks L} {n : ℕ} {old : Bool} (h : q.Holds seq)
    (hl : seq l = x ++ msg :: y) (hn : (seq l).length ≤ n) :
    ∃ seq', (removeEarlier content what l out n x.getLast?
        (if old then removeLater content what l out n (q.next msg) q else q)).Holds seq' ∧
      Only seq seq' l out
        ((x.filter fun a => (content a).what ≠ what) ++ msg ::
          (if old then y.filter fun a => (content a).what ≠ what else y))
        ((x.filter fun a => (content a).what = what) ++ (seq out ++
          (if old then y.filter fun a => (content a).what = what else []))) := by
  rw [hl, length_append, length_cons] at hn
  cases old with
  | false =>
    obtain ⟨seq', h', ho⟩ := removeEarlier_holds content what hout h hl
      (show x.length ≤ n by omega)
    exact ⟨seq', h', by simpa using ho⟩
  | true =>
    have hl' : seq l = (x ++ [msg]) ++ y := by rw [hl]; simp
    obtain ⟨seq₁, h₁, ho₁⟩ := removeLater_holds content what hout h hl'
      (show y.length ≤ n by omega)
    have hl₁ := ho₁.here
    rw [append_assoc, singleton_append] at hl₁
    obtain ⟨seq', h', ho⟩ := removeEarlier_holds content what hout h₁ hl₁
      (show x.length ≤ n by omega)
    rw [ho₁.there] at ho
    rw [h.next hl]
    exact ⟨seq', h', ho₁.trans ho⟩

end

/-! ### The operations on lists of messages -/

theorem before_map (f : ℕ → SMessage D) (time : ℤ) (z : List ℕ) :
    before time (z.map f) = (z.rdropWhile fun a => time < (f a).when).map f := by
  rw [before, List.rdropWhile, List.rdropWhile, ← map_reverse, dropWhile_map,
    ← map_reverse]
  rfl

theorem after_map (f : ℕ → SMessage D) (time : ℤ) (z : List ℕ) :
    after time (z.map f) = (z.rtakeWhile fun a => time < (f a).when).map f := by
  rw [after, List.rtakeWhile, List.rtakeWhile, ← map_reverse, takeWhile_map,
    ← map_reverse]
  rfl

theorem removeWhat_map (f : ℕ → SMessage D) (what : ℕ) (z : List ℕ) :
    removeWhat what (z.map f) = (z.filter fun a => (f a).what ≠ what).map f :=
  filter_map ..

theorem withWhat_map (f : ℕ → SMessage D) (what : ℕ) (z : List ℕ) :
    withWhat what (z.map f) = (z.filter fun a => (f a).what = what).map f :=
  filter_map ..

theorem map_update_of_notMem {f : ℕ → SMessage D} {z : List ℕ} (h : msg ∉ z) :
    z.map (update f msg m) = z.map f :=
  map_congr_left fun _ ha => update_of_ne (ne_of_mem_of_not_mem ha h) _ _

theorem rdropWhile_append_rtakeWhile (p : ℕ → Bool) (z : List ℕ) :
    z.rdropWhile p ++ z.rtakeWhile p = z := by
  rw [List.rdropWhile, List.rtakeWhile, ← reverse_append, takeWhile_append_dropWhile,
    reverse_reverse]

theorem enqueueMessage_spec (h : s.links.Holds seq) (l : L) (hmsg : ∀ l, msg ∉ seq l) (now : ℤ) :
    ∃ z, (s.enqueueMessage l msg now).links.Holds (update seq l z) ∧
      z.map (s.enqueueMessage l msg now).content
        = SMessageList.enqueueMessage (s.content msg) now ((seq l).map s.content) := by
  let time := stamp (s.content msg).when now
  let s₁ := s.setWhen msg time
  let late (a : ℕ) : Bool := time < (s₁.content a).when
  have hmap : (seq l).map s₁.content = (seq l).map s.content := map_update_of_notMem (hmsg l)
  have h₁ : s₁.links.Holds seq := h
  have hins := h₁.insertAfter (rdropWhile_append_rtakeWhile late (seq l)).symm hmsg
  have hwalk : s₁.walkBack time (s₁.turns l) (s₁.links.tail l)
      = ((seq l).rdropWhile late).getLast? := by
    rw [h₁.tail]
    apply walkBack_eq h₁ time (append_nil _).symm
    rw [turns, h₁.count, Int.toNat_natCast]
  rw [← hwalk] at hins
  refine ⟨_, hins, ?_⟩
  show List.map s₁.content _ = _
  have hself : s₁.content msg = { s.content msg with when := time } := update_self _ _ _
  rw [map_append, map_cons, ← before_map, ← after_map, hmap, hself]
  rfl

/-- **A message was posted** as it is to a list of messages. The messages removed go around those
that were removed earlier. -/
structure Posts (s : SMessageLists L D) (seq : L → List ℕ) (l out : L) (r : Enqueued L D)
    (p : Posted D) : Prop where
  lists : ∃ seq' x y z, r.lists.links.Holds seq' ∧ Only seq seq' l out x (y ++ (seq out ++ z)) ∧
    x.map r.lists.content = p.queue ∧ (y ++ z).map r.lists.content = p.removed
  msg : r.msg = p.msg
  prevData : r.prevData = p.prevData
  content : ∀ a, p.msg ≠ some a → r.lists.content a = s.content a
  addr : (∀ a, (s.content a).addr = a) → ∀ a, (r.lists.content a).addr = a

omit [DecidableEq L] in
theorem Posts.refused (h : s.links.Holds seq) (l out : L) :
    Posts s seq l out ⟨s, none, none⟩
      { queue := (seq l).map s.content, msg := none, prevData := none, removed := [] } where
  lists := ⟨seq, seq l, [], [], h, ⟨rfl, by simp, fun _ _ _ => rfl⟩, rfl, rfl⟩
  msg := rfl
  prevData := rfl
  content := fun _ _ => rfl
  addr := fun haddr => haddr

/-- **A message with its place in the list**, and those with the code removed from both sides. -/
theorem posts_between (s₂ : SMessageLists L D) (hout : out ≠ l) (h₂ : s₂.links.Holds seq₁)
    (hl : seq₁ l = x ++ msg :: y) (hsame : ∀ l', l' ≠ l → seq₁ l' = seq l')
    (hcontent : s₂.content = update s.content msg m) (hm : m.addr = msg) (what : ℕ)
    (old : Bool) (prevData : Option D) :
    Posts s seq l out
      ⟨{ s₂ with
          links := removeEarlier s₂.content what l out (s₂.turns l) x.getLast?
            (if old then removeLater s₂.content what l out (s₂.turns l) (s₂.links.next msg) s₂.links
              else s₂.links) }, some msg, prevData⟩
      { queue := removeWhat what (x.map s.content) ++ m ::
          (if old then removeWhat what (y.map s.content) else y.map s.content)
        msg := some msg
        prevData := prevData
        removed := withWhat what (x.map s.content) ++
          (if old then withWhat what (y.map s.content) else []) } := by
  have hturns : (seq₁ l).length ≤ s₂.turns l := by rw [turns, h₂.count, Int.toNat_natCast]
  obtain ⟨seq', h', ho⟩ := removeBoth_holds s₂.content what hout h₂ hl hturns
  have hnd := h₂.nodup l
  rw [hl] at hnd
  obtain ⟨hmx, hmy⟩ := Linked.notMem_of_nodup hnd
  have hx : x.map s.content = x.map s₂.content := by rw [hcontent, map_update_of_notMem hmx]
  have hy : y.map s.content = y.map s₂.content := by rw [hcontent, map_update_of_notMem hmy]
  have hself : s₂.content msg = m := by rw [hcontent, update_self]
  have hthere := ho.there
  rw [hsame out hout] at hthere
  refine ⟨⟨seq', _, _, _, h', ⟨ho.here, hthere, ?_⟩, ?_, ?_⟩, rfl, rfl, ?_, ?_⟩
  · exact fun l' hl' hout' => (ho.other l' hl' hout').trans (hsame l' hl')
  · rw [map_append, map_cons, hself, hx, hy, removeWhat_map, removeWhat_map,
      apply_ite (List.map _)]
  · rw [map_append, hx, hy, withWhat_map, withWhat_map, apply_ite (List.map _)]
    rfl
  · intro a ha
    have hne : a ≠ msg := fun hne => ha (congrArg some hne.symm)
    rw [hcontent]
    exact update_of_ne hne _ _
  · intro haddr a
    rw [hcontent]
    by_cases ha : a = msg
    · rw [ha, update_self, hm]
    · rw [update_of_ne ha, haddr]

omit [DecidableEq L] in
theorem copyTo_setWhen_content (msg : ℕ) (inmsg : SMessage D) (time : ℤ) :
    ((s.copyTo msg inmsg).setWhen msg time).content
      = update s.content msg { inmsg with addr := msg, when := time } := by
  unfold setWhen copyTo
  dsimp only
  rw [update_idem, update_self]

theorem posts_new (h : s.links.Holds seq) (hout : out ≠ l) (hl : x ++ y = seq l)
    (inmsg : SMessage D) (time : ℤ) (old : Bool)
    (hnew : ∀ a ∈ new, ∀ l, a ∉ seq l) :
    Posts s seq l out
      (match new.map fun msg =>
          (msg, (none : Option D),
            { s.copyTo msg inmsg with links := s.links.insertAfter l msg x.getLast? }) with
        | none => ⟨s, none, none⟩
        | some (msg, prevData, s₁) =>
          let s₂ := s₁.setWhen msg time
          let q := if old then
              removeLater s₂.content inmsg.what l out (s₂.turns l) (s₂.links.next msg) s₂.links
            else s₂.links
          ⟨{ s₂ with links := removeEarlier s₂.content inmsg.what l out (s₂.turns l) x.getLast? q },
            some msg, prevData⟩)
      (SMessageList.insertNew inmsg time new ((seq l).map s.content)
        (removeWhat inmsg.what (x.map s.content))
        (if old then removeWhat inmsg.what (y.map s.content) else y.map s.content)
        (withWhat inmsg.what (x.map s.content) ++
          if old then withWhat inmsg.what (y.map s.content) else [])) := by
  cases new with
  | none => exact Posts.refused h l out
  | some a =>
    have h₂ := h.insertAfter hl.symm (hnew a rfl)
    exact posts_between (({ s.copyTo a inmsg with
      links := s.links.insertAfter l a x.getLast? } : SMessageLists L D).setWhen a time) hout h₂
      (update_self _ _ _) (fun l' hl' => update_of_ne hl' _ _)
      (copyTo_setWhen_content a inmsg time) rfl inmsg.what old none

theorem enqueueMessageRemoveDups_spec (h : s.links.Holds seq) (haddr : ∀ a, (s.content a).addr = a)
    (hout : out ≠ l) (inmsg : SMessage D) (time now : ℤ)
    (hnew : ∀ a ∈ new, ∀ l, a ∉ seq l) :
    Posts s seq l out (s.enqueueMessageRemoveDups l inmsg time now new out)
      (SMessageList.enqueueMessageRemoveDups inmsg time now new ((seq l).map s.content)) := by
  let thisStamp := stamp time now
  let late (a : ℕ) : Bool := thisStamp < (s.content a).when
  have hwalk : s.walkDups inmsg.what thisStamp (s.turns l) (s.links.tail l) none false
      = (((seq l).rdropWhile late).getLast?, ((seq l).rtakeWhile late).head?,
        ((seq l).rtakeWhile late).tail.any fun a => (s.content a).what = inmsg.what) := by
    have hw := walkDups_eq h inmsg.what thisStamp (append_nil (seq l)).symm
      (show _ ≤ s.turns l by rw [turns, h.count, Int.toNat_natCast])
    rw [append_nil] at hw
    rw [h.tail]
    exact hw
  have hsplit := rdropWhile_append_rtakeWhile late (seq l)
  unfold enqueueMessageRemoveDups SMessageList.enqueueMessageRemoveDups
  dsimp only
  rw [hwalk, before_map, after_map]
  generalize (seq l).rtakeWhile late = passed at hsplit ⊢
  cases passed with
  | nil => exact posts_new h hout hsplit inmsg thisStamp false hnew
  | cons prev rest =>
    have hany : ((prev :: rest).map s.content).tail.any (fun m => m.what = inmsg.what)
        = rest.any fun a => (s.content a).what = inmsg.what := by
      rw [map_cons, tail_cons, any_map]
      rfl
    rw [hany, List.head?_cons, tail_cons]
    generalize (rest.any fun a => (s.content a).what = inmsg.what) = old
    by_cases hprev : (s.content prev).what = inmsg.what
    · rw [Option.filter_some_pos (by simpa using hprev)]
      rw [map_cons]
      dsimp only
      rw [if_pos hprev, haddr]
      exact posts_between ((s.copyTo prev inmsg).setWhen prev thisStamp) hout h hsplit.symm
        (fun _ _ => rfl) (copyTo_setWhen_content prev inmsg thisStamp) rfl inmsg.what old _
    · rw [Option.filter_some_neg (by simpa using hprev)]
      rw [map_cons]
      dsimp only
      rw [if_neg hprev, ← map_cons]
      exact posts_new h hout hsplit inmsg thisStamp old hnew

/-- **A message with its place in the list**, and those with the code removed behind it. -/
theorem posts_behind (s₂ : SMessageLists L D) (hout : out ≠ l) (h₂ : s₂.links.Holds seq₁)
    (hl : seq₁ l = x ++ msg :: y) (hsame : ∀ l', l' ≠ l → seq₁ l' = seq l')
    (hcontent : s₂.content = update s.content msg m) (hm : m.addr = msg) (what : ℕ)
    (prevData : Option D) :
    Posts s seq l out
      ⟨{ s₂ with links := removeLater s₂.content what l out (s₂.turns l) y.head? s₂.links },
        some msg, prevData⟩
      { queue := x.map s.content ++ m :: removeWhat what (y.map s.content)
        msg := some msg
        prevData := prevData
        removed := withWhat what (y.map s.content) } := by
  have hturns : y.length ≤ s₂.turns l := by
    rw [turns, h₂.count, Int.toNat_natCast, hl, length_append, length_cons]
    omega
  have hl' : seq₁ l = (x ++ [msg]) ++ y := by rw [hl, append_assoc, singleton_append]
  obtain ⟨seq', h', ho⟩ := removeLater_holds s₂.content what hout h₂ hl' hturns
  have hnd := h₂.nodup l
  rw [hl] at hnd
  obtain ⟨hmx, hmy⟩ := Linked.notMem_of_nodup hnd
  have hx : x.map s.content = x.map s₂.content := by rw [hcontent, map_update_of_notMem hmx]
  have hy : y.map s.content = y.map s₂.content := by rw [hcontent, map_update_of_notMem hmy]
  have hself : s₂.content msg = m := by rw [hcontent, update_self]
  have hthere := ho.there
  rw [hsame out hout] at hthere
  refine ⟨⟨seq', _, [], _, h', ⟨ho.here, hthere, ?_⟩, ?_, ?_⟩, rfl, rfl, ?_, ?_⟩
  · exact fun l' hl' hout' => (ho.other l' hl' hout').trans (hsame l' hl')
  · rw [append_assoc, singleton_append, map_append, map_cons, hself, hx, hy,
      removeWhat_map]
  · rw [nil_append, hy, withWhat_map]
  · intro a ha
    have hne : a ≠ msg := fun hne => ha (congrArg some hne.symm)
    rw [hcontent]
    exact update_of_ne hne _ _
  · intro haddr a
    rw [hcontent]
    by_cases ha : a = msg
    · rw [ha, update_self, hm]
    · rw [update_of_ne ha, haddr]

theorem posts_new_front (h : s.links.Holds seq) (hout : out ≠ l) (hl : x ++ y = seq l)
    (inmsg : SMessage D) (time : ℤ) (hnew : ∀ a ∈ new, ∀ l, a ∉ seq l) :
    Posts s seq l out
      (match new.map fun msg =>
          (msg, (none : Option D), y.head?,
            { (s.copyTo msg inmsg).setWhen msg time with
              links := s.links.insertBefore l msg y.head? }) with
        | none => ⟨s, none, none⟩
        | some (msg, prevData, pos, s₁) =>
          ⟨{ s₁ with links := removeLater s₁.content inmsg.what l out (s₁.turns l) pos s₁.links },
            some msg, prevData⟩)
      (SMessageList.insertNew inmsg time new ((seq l).map s.content) (x.map s.content)
        (removeWhat inmsg.what (y.map s.content)) (withWhat inmsg.what (y.map s.content))) := by
  cases new with
  | none => exact Posts.refused h l out
  | some a =>
    have h₂ := h.insertBefore hl.symm (hnew a rfl)
    exact posts_behind ({ (s.copyTo a inmsg).setWhen a time with
      links := s.links.insertBefore l a y.head? } : SMessageLists L D) hout h₂
      (update_self _ _ _) (fun l' hl' => update_of_ne hl' _ _)
      (copyTo_setWhen_content a inmsg time) rfl inmsg.what none

theorem enqueueUniqueMessage_spec (h : s.links.Holds seq) (haddr : ∀ a, (s.content a).addr = a)
    (hout : out ≠ l) (inmsg : SMessage D) (time now : ℤ)
    (hnew : ∀ a ∈ new, ∀ l, a ∉ seq l) :
    Posts s seq l out (s.enqueueUniqueMessage l inmsg time now new out)
      (SMessageList.enqueueUniqueMessage inmsg time now new ((seq l).map s.content)) := by
  let thisStamp := stamp time now
  let due (a : ℕ) : Bool := (s.content a).when ≤ thisStamp
  let other (a : ℕ) : Bool := (s.content a).what ≠ inmsg.what
  have hturns : (seq l).length ≤ s.turns l := by rw [turns, h.count, Int.toNat_natCast]
  have hsplit : (seq l).takeWhile due ++ (seq l).dropWhile due = seq l :=
    takeWhile_append_dropWhile
  have hdue : ∀ a ∈ (seq l).takeWhile due, due a = true := fun a ha => mem_takeWhile_imp ha
  have hlater := List.head?_dropWhile_not due (seq l)
  have htake : ((seq l).map s.content).takeWhile (fun m => m.when ≤ thisStamp)
      = ((seq l).takeWhile due).map s.content := takeWhile_map
  have hdrop : ((seq l).map s.content).dropWhile (fun m => m.when ≤ thisStamp)
      = ((seq l).dropWhile due).map s.content := dropWhile_map
  unfold enqueueUniqueMessage SMessageList.enqueueUniqueMessage
  dsimp only
  rw [htake, hdrop]
  generalize (seq l).takeWhile due = front at *
  generalize (seq l).dropWhile due = pos at *
  have htake' : (front.map s.content).takeWhile (fun m => m.what ≠ inmsg.what)
      = (front.takeWhile other).map s.content := takeWhile_map
  have hdrop' : (front.map s.content).dropWhile (fun m => m.what ≠ inmsg.what)
      = (front.dropWhile other).map s.content := dropWhile_map
  have hfront : front.takeWhile other ++ front.dropWhile other = front :=
    takeWhile_append_dropWhile
  have hother : ∀ a ∈ front.takeWhile other, other a = true := fun a ha => mem_takeWhile_imp ha
  have hfound := List.head?_dropWhile_not other front
  rw [htake', hdrop']
  generalize front.takeWhile other = passed at *
  generalize front.dropWhile other = found at *
  rw [h.head]
  cases found with
  | cons m rest =>
    have hm : (s.content m).what = inmsg.what := by simpa [other] using hfound
    have hml : (s.content m).when ≤ thisStamp := by
      have := hdue m (hfront ▸ mem_append_right _ mem_cons_self)
      simpa [due] using this
    rw [← hfront, append_assoc, cons_append] at hsplit
    have hw : s.walkDue inmsg.what thisStamp (s.turns l) (seq l).head?
        = ((rest ++ pos).head?, some m) := by
      rw [← hsplit] at hturns ⊢
      refine walkDue_some (l := l) (x := []) h inmsg.what thisStamp ⟨hml, hm⟩ hsplit.symm hturns
        fun a ha => ?_
      have hda := hdue a (hfront ▸ mem_append_left _ ha)
      have hoa := hother a ha
      exact ⟨by simpa [due] using hda, by simpa [other] using hoa⟩
    rw [hw, map_cons]
    dsimp only
    rw [← map_append, haddr]
    exact posts_behind (s.repurposed m inmsg) hout h hsplit.symm (fun _ _ => rfl) rfl (haddr m)
      inmsg.what _
  | nil =>
    rw [append_nil] at hfront
    subst hfront
    have hw : s.walkDue inmsg.what thisStamp (s.turns l) (seq l).head? = (pos.head?, none) := by
      rw [← hsplit] at hturns ⊢
      refine walkDue_none (l := l) (x := []) h inmsg.what thisStamp hsplit.symm hturns
        (fun a ha => ⟨?_, ?_⟩) fun a ha => ?_
      · simpa [due] using hdue a ha
      · simpa [other] using hother a ha
      · rw [ha] at hlater
        simpa [due] using hlater
    rw [hw, map_nil]
    cases pos with
    | nil => exact posts_new_front h hout hsplit inmsg thisStamp hnew
    | cons p rest =>
      rw [List.head?_cons, map_cons]
      dsimp only
      by_cases hp : (s.content p).what = inmsg.what
      · rw [Option.filter_some_pos (by simpa using hp), if_pos hp, haddr]
        dsimp only
        rw [h.next hsplit.symm]
        exact posts_behind (s.repurposed p inmsg) hout h hsplit.symm (fun _ _ => rfl) rfl (haddr p)
          inmsg.what _
      · rw [Option.filter_some_neg (by simpa using hp), if_neg hp]
        exact posts_new_front h hout hsplit inmsg thisStamp hnew

/-- What `DequeueMessage` takes out. -/
theorem dequeue_holds (h : s.links.Holds seq) (l : L) (what : ℕ) :
    ∃ z, ((s.dequeueMessage l what).2.2.links).Holds (update seq l z) ∧
      (s.dequeueMessage l what).1.map s.content
        = (SMessageList.dequeueMessage what ((seq l).map s.content)).1 ∧
      z.map s.content = (SMessageList.dequeueMessage what ((seq l).map s.content)).2 := by
  have hnone : s.links.Holds (update seq l (seq l)) := by
    rw [update_eq_self]
    exact h
  unfold dequeueMessage SMessageList.dequeueMessage
  by_cases hany : what = anyWhat
  · rw [if_pos hany, if_pos hany]
    cases hl : seq l with
    | nil =>
      have hhead : s.links.removeHead l = (none, s.links) := by
        unfold MessageLinks.removeHead
        rw [h.head, hl]
        rfl
      rw [hhead]
      rw [hl] at hnone
      exact ⟨[], hnone, rfl, rfl⟩
    | cons a y =>
      obtain ⟨hret, hq⟩ := h.remove (x := []) hl
      rw [h.removeHead_eq hl]
      refine ⟨y, hq, ?_, rfl⟩
      show Option.map _ (s.links.remove l a).1 = _
      rw [hret]
      rfl
  · rw [if_neg hany, if_neg hany]
    have hw : s.walkWhat what (s.turns l) (s.links.head l)
        = (seq l).find? fun a => (s.content a).what = what := by
      rw [h.head]
      apply walkWhat_eq (x := []) h what rfl
      rw [turns, h.count, Int.toNat_natCast]
    rw [hw, List.find?_map]
    cases hfind : (seq l).find? fun a => (s.content a).what = what with
    | none =>
      refine ⟨seq l, hnone, ?_, ?_⟩
      · show none = Option.map _ (List.find? (fun a => (s.content a).what = what) _)
        rw [hfind]
        rfl
      · rw [eraseP_of_forall_not]
        intro m hm
        obtain ⟨a, ha, rfl⟩ := mem_map.1 hm
        exact List.find?_eq_none.1 hfind a ha
    | some msg =>
      obtain ⟨hmsg, x, y, hl, hx⟩ := List.find?_eq_some_iff_append.1 hfind
      refine ⟨x ++ y, (h.remove hl).2, ?_, ?_⟩
      · show some _ = Option.map _ (List.find? (fun a => (s.content a).what = what) _)
        rw [hfind]
        rfl
      · dsimp only
        rw [hl, map_append, map_append, map_cons, eraseP_append_right,
          eraseP_cons_of_pos (by simpa using hmsg)]
        intro m hm
        obtain ⟨a, ha, rfl⟩ := mem_map.1 hm
        simpa using hx a ha

end SMessageLists

end OpenBinder
