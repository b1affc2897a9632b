import Mathlib.Data.List.DropRight
import Mathlib.Data.List.Nodup
import Mathlib.Data.Int.Order.Basic

/-!
# Message queues

`SMessageList` as the list of its messages, each with the address it is at. `new` may fail, so that
an operation that allocates has the address it gets as a parameter, or none.

* `enqueueMessage`, `enqueueMessageRemoveDups`, `enqueueUniqueMessage`: a message posted.
* `dequeueMessage`, `filterMessages`: messages taken out.
* `NextMessageTime` is `oldestMessage` of the queue.
-/

namespace OpenBinder

open List

/-- `SMessage`: what it says, when it is due, and its address. -/
structure SMessage (D : Type*) where
  addr : ℕ
  what : ℕ
  when : ℤ
  priority : ℤ
  data : D
deriving DecidableEq

namespace SMessageList

variable {D : Type*}

def anyWhat : ℕ := 0

def infiniteTimeout : ℤ := 9223372036854775807

/-- `Head`, as an address. -/
def head (queue : List (SMessage D)) : Option ℕ := queue.head?.map SMessage.addr

/-- `OldestMessage`: the time of the first message. -/
def oldestMessage : List (SMessage D) → ℤ
  | [] => infiniteTimeout
  | msg :: _ => msg.when

/-- The time a message is posted at: `approx_SysGetRunTime()` for one that says none. -/
def stamp (time now : ℤ) : ℤ := if time ≤ 0 then now else time

/-- The messages due by a time: the place the walk from the tail stops after. -/
def before (time : ℤ) (queue : List (SMessage D)) : List (SMessage D) :=
  queue.rdropWhile (time < ·.when)

/-- The messages due after a time that the walk from the tail goes over. -/
def after (time : ℤ) (queue : List (SMessage D)) : List (SMessage D) :=
  queue.rtakeWhile (time < ·.when)

/-- `EnqueueMessage`: after the last message that is not due later. -/
def enqueueMessage (msg : SMessage D) (now : ℤ) (queue : List (SMessage D)) :
    List (SMessage D) :=
  let msg' := { msg with when := stamp msg.when now }
  before msg'.when queue ++ msg' :: after msg'.when queue

/-- The messages with a code, taken out. -/
def removeWhat (what : ℕ) (queue : List (SMessage D)) : List (SMessage D) :=
  queue.filter (·.what ≠ what)

/-- What posting a message with a duplicate flag does: the queue, and the message in it. -/
structure Posted (D : Type*) where
  queue : List (SMessage D)
  msg : Option ℕ
  prevData : Option D
  removed : List (SMessage D)

/-- The messages with a code. -/
def withWhat (what : ℕ) (queue : List (SMessage D)) : List (SMessage D) :=
  queue.filter (·.what = what)

/-- A new message between the ones that stay, or nothing done when there is no memory for it. -/
def insertNew (inmsg : SMessage D) (thisStamp : ℤ) (new : Option ℕ)
    (queue earlier later removed : List (SMessage D)) : Posted D :=
  match new with
  | none => { queue := queue, msg := none, prevData := none, removed := [] }
  | some addr =>
    { queue := earlier ++ { inmsg with addr := addr, when := thisStamp } :: later
      msg := some addr
      prevData := none
      removed := removed }

/-- `EnqueueMessageRemoveDups`: the message after its place is replaced if it has the same code,
and all others that have it are removed. -/
def enqueueMessageRemoveDups (inmsg : SMessage D) (time now : ℤ) (new : Option ℕ)
    (queue : List (SMessage D)) : Posted D :=
  let thisStamp := stamp time now
  let pos := before thisStamp queue
  let passed := after thisStamp queue
  -- the walk looks at every message it goes over but the last one
  let removeOldMsgs := passed.tail.any (·.what = inmsg.what)
  let later (rest : List (SMessage D)) := if removeOldMsgs then removeWhat inmsg.what rest else rest
  let gone (rest : List (SMessage D)) := if removeOldMsgs then withWhat inmsg.what rest else []
  let added := insertNew inmsg thisStamp new queue (removeWhat inmsg.what pos) (later passed)
    (withWhat inmsg.what pos ++ gone passed)
  match passed with
  | [] => added
  | prev :: rest =>
    if prev.what = inmsg.what then
      { queue := removeWhat inmsg.what pos
          ++ { inmsg with addr := prev.addr, when := thisStamp } :: later rest
        msg := some prev.addr
        prevData := some prev.data
        removed := withWhat inmsg.what pos ++ gone rest }
    else added

/-- A message that is in the queue, with the data and the priority of another one. -/
def repurpose (inmsg msg : SMessage D) : SMessage D :=
  { msg with data := inmsg.data, priority := inmsg.priority }

/-- `EnqueueUniqueMessage`: the first message with the same code is repurposed, if it is due by then
or next, and the ones after the place are removed. -/
def enqueueUniqueMessage (inmsg : SMessage D) (time now : ℤ) (new : Option ℕ)
    (queue : List (SMessage D)) : Posted D :=
  let thisStamp := stamp time now
  let due := queue.takeWhile (·.when ≤ thisStamp)
  let pos := queue.dropWhile (·.when ≤ thisStamp)
  match due.dropWhile (·.what ≠ inmsg.what) with
  | msg :: rest =>
    { queue := due.takeWhile (·.what ≠ inmsg.what)
        ++ repurpose inmsg msg :: removeWhat inmsg.what (rest ++ pos)
      msg := some msg.addr
      prevData := some msg.data
      removed := withWhat inmsg.what (rest ++ pos) }
  | [] =>
    let added := insertNew inmsg thisStamp new queue due (removeWhat inmsg.what pos)
      (withWhat inmsg.what pos)
    match pos with
    | [] => added
    | msg :: rest =>
      if msg.what = inmsg.what then
        { queue := due ++ repurpose inmsg msg :: removeWhat inmsg.what rest
          msg := some msg.addr
          prevData := some msg.data
          removed := withWhat inmsg.what rest }
      else added

/-- `DequeueMessage`: the first message, or the first one with a code. -/
def dequeueMessage (what : ℕ) (queue : List (SMessage D)) :
    Option (SMessage D) × List (SMessage D) :=
  if what = anyWhat then (queue.head?, queue.tail)
  else (queue.find? (·.what = what), queue.eraseP (·.what = what))

/-- What a filter says of a message. -/
inductive FilterAction where
  | remove
  | keep
  | stop
deriving DecidableEq

/-- The loop of `FilterMessages`: the messages that stay and the ones removed. -/
def filterFrom (action : SMessage D → FilterAction) :
    List (SMessage D) → List (SMessage D) × List (SMessage D)
  | [] => ([], [])
  | msg :: queue =>
    match action msg with
    | .stop => (msg :: queue, [])
    | .keep => (msg :: (filterFrom action queue).1, (filterFrom action queue).2)
    | .remove => ((filterFrom action queue).1, msg :: (filterFrom action queue).2)

/-- Filtering from the head or from the tail. -/
def filterMessages (action : SMessage D → FilterAction) (reverse : Bool)
    (queue : List (SMessage D)) : List (SMessage D) × List (SMessage D) :=
  if reverse then
    ((filterFrom action queue.reverse).1.reverse, (filterFrom action queue.reverse).2)
  else
    ((filterFrom action queue).1, (filterFrom action queue).2.reverse)

/-! ### The addresses in a queue -/

/-- The addresses of the messages. -/
def addrs (queue : List (SMessage D)) : List ℕ := queue.map SMessage.addr

/-- The posted message is in the queue and is its first one. -/
def Posted.IsHead (p : Posted D) : Prop := head p.queue = p.msg ∧ p.msg ≠ none

instance (p : Posted D) : Decidable p.IsHead := instDecidableAnd

variable {queue : List (SMessage D)}

theorem before_append_after (time : ℤ) (queue : List (SMessage D)) :
    before time queue ++ after time queue = queue := by
  rw [before, after, List.rdropWhile, List.rtakeWhile, ← reverse_append,
    takeWhile_append_dropWhile, reverse_reverse]

theorem addrs_append (l m : List (SMessage D)) : addrs (l ++ m) = addrs l ++ addrs m :=
  map_append

theorem removeWhat_sublist (what : ℕ) (l : List (SMessage D)) : (removeWhat what l).Sublist l :=
  filter_sublist

theorem addrs_sublist {l l' : List (SMessage D)} (h : l'.Sublist l) : (addrs l').Sublist (addrs l) :=
  h.map _

theorem nodup_between {l l' m m' : List (SMessage D)} {msg : SMessage D}
    (h : (addrs l ++ msg.addr :: addrs m).Nodup) (hl : l'.Sublist l) (hm : m'.Sublist m) :
    (addrs (l' ++ msg :: m')).Nodup := by
  rw [addrs_append]
  exact h.sublist ((addrs_sublist hl).append ((addrs_sublist hm).cons_cons _))

theorem nodup_insertNew {inmsg : SMessage D} {thisStamp : ℤ} {new : Option ℕ}
    {l m earlier later removed : List (SMessage D)} (hq : (addrs queue).Nodup)
    (hnew : ∀ addr ∈ new, addr ∉ addrs queue) (hlm : l ++ m = queue) (hl : earlier.Sublist l)
    (hm : later.Sublist m) :
    (addrs (insertNew inmsg thisStamp new queue earlier later removed).queue).Nodup := by
  cases new with
  | none => exact hq
  | some addr =>
    apply nodup_between _ hl hm
    rw [nodup_middle, nodup_cons, ← addrs_append, hlm]
    exact ⟨hnew addr rfl, hq⟩

theorem nodup_enqueueMessage (msg : SMessage D) (now : ℤ) (hq : (addrs queue).Nodup)
    (hnew : msg.addr ∉ addrs queue) : (addrs (enqueueMessage msg now queue)).Nodup := by
  have hsplit := before_append_after (stamp msg.when now) queue
  apply nodup_between _ (List.Sublist.refl _) (List.Sublist.refl _)
  rw [nodup_middle, nodup_cons, ← addrs_append, hsplit]
  exact ⟨hnew, hq⟩

section

variable (inmsg : SMessage D) (time now : ℤ) (new : Option ℕ) (hq : (addrs queue).Nodup)
include inmsg time now new hq

theorem nodup_enqueueMessageRemoveDups (hnew : ∀ addr ∈ new, addr ∉ addrs queue) :
    (addrs (enqueueMessageRemoveDups inmsg time now new queue).queue).Nodup := by
  have hsplit := before_append_after (stamp time now) queue
  have hkeep (b : Bool) (rest : List (SMessage D)) :
      (if b then removeWhat inmsg.what rest else rest).Sublist rest := by
    split
    · exact removeWhat_sublist _ _
    · exact List.Sublist.refl _
  unfold enqueueMessageRemoveDups
  dsimp only
  split
  · exact nodup_insertNew hq hnew hsplit (removeWhat_sublist _ _) (hkeep _ _)
  · rename_i prev rest hpassed
    split
    · refine nodup_between ?_ (removeWhat_sublist _ _) (hkeep _ rest)
      rw [← hsplit, addrs_append, hpassed] at hq
      exact hq
    · exact nodup_insertNew hq hnew hsplit (removeWhat_sublist _ _) (hkeep _ _)

theorem nodup_enqueueUniqueMessage (hnew : ∀ addr ∈ new, addr ∉ addrs queue) :
    (addrs (enqueueUniqueMessage inmsg time now new queue).queue).Nodup := by
  have hsplit : queue.takeWhile (·.when ≤ stamp time now) ++ queue.dropWhile _ = queue :=
    takeWhile_append_dropWhile
  unfold enqueueUniqueMessage
  dsimp only
  split
  · rename_i msg rest hdue
    refine nodup_between ?_ (List.Sublist.refl _) (removeWhat_sublist _ _)
    have hq' := hq
    rw [← hsplit, ← takeWhile_append_dropWhile
      (l := queue.takeWhile (·.when ≤ stamp time now)) (p := (·.what ≠ inmsg.what)), hdue,
      append_assoc, cons_append, addrs_append] at hq'
    exact hq'
  · split
    · exact nodup_insertNew hq hnew hsplit (List.Sublist.refl _) (removeWhat_sublist _ _)
    · rename_i msg rest hpos
      split
      · refine nodup_between ?_ (List.Sublist.refl _) (removeWhat_sublist _ _)
        rw [← hsplit, addrs_append, hpos] at hq
        exact hq
      · exact nodup_insertNew hq hnew hsplit (List.Sublist.refl _) (removeWhat_sublist _ _)

end

theorem dequeueMessage_sublist (what : ℕ) (queue : List (SMessage D)) :
    (dequeueMessage what queue).2.Sublist queue := by
  unfold dequeueMessage
  split
  · exact tail_sublist _
  · exact eraseP_sublist

theorem filterFrom_sublist (action : SMessage D → FilterAction) (queue : List (SMessage D)) :
    (filterFrom action queue).1.Sublist queue := by
  induction queue with
  | nil => exact List.Sublist.refl _
  | cons msg queue ih =>
    unfold filterFrom
    split
    · exact List.Sublist.refl _
    · exact ih.cons_cons _
    · exact ih.cons _

theorem filterMessages_sublist (action : SMessage D → FilterAction) (reverse : Bool)
    (queue : List (SMessage D)) : (filterMessages action reverse queue).1.Sublist queue := by
  unfold filterMessages
  split
  · have h := (filterFrom_sublist action queue.reverse).reverse
    rw [reverse_reverse] at h
    exact h
  · exact filterFrom_sublist action queue

/-! ### The first message -/

/-- **An operation that leaves the first message**: nothing is due earlier or later than it was. -/
theorem oldest_of_sublist {queue' : List (SMessage D)} (hq : (addrs queue).Nodup)
    (hsub : queue'.Sublist queue) (hhead : head queue' = head queue) :
    (queue' ≠ [] → queue ≠ []) ∧ oldestMessage queue' = oldestMessage queue := by
  cases queue with
  | nil => 
    rw [sublist_nil.1 hsub]
    exact ⟨id, rfl⟩
  | cons msg rest =>
    refine ⟨fun _ => cons_ne_nil _ _, ?_⟩
    cases queue' with
    | nil => simp [head] at hhead
    | cons msg' rest' =>
      have haddr : msg'.addr = msg.addr := by simpa [head] using hhead
      cases hsub with
      | cons _ hsub =>
        have hmem : msg'.addr ∈ addrs rest :=
          mem_map_of_mem (hsub.subset mem_cons_self)
        rw [haddr] at hmem
        exact absurd hmem (nodup_cons.1 hq).1
      | cons_cons _ hsub => rfl

theorem oldest_of_prefix {l m : List (SMessage D)} (msg : SMessage D) (hpre : l <+: queue)
    (hhead : head (l ++ msg :: m) ≠ some msg.addr) :
    queue ≠ [] ∧ oldestMessage (l ++ msg :: m) = oldestMessage queue := by
  cases l with
  | nil => exact absurd rfl hhead
  | cons b l =>
    obtain ⟨rest, rfl⟩ := hpre
    exact ⟨cons_ne_nil _ _, rfl⟩

theorem enqueueMessage_head (msg : SMessage D) (now : ℤ)
    (hhead : head (enqueueMessage msg now queue) ≠ some msg.addr) :
    queue ≠ [] ∧ oldestMessage (enqueueMessage msg now queue) = oldestMessage queue := by
  exact oldest_of_prefix _ (List.rdropWhile_prefix _ _) hhead

theorem enqueueMessageRemoveDups_nil (inmsg : SMessage D) (time now : ℤ) (new : Option ℕ)
    (hhead : ¬(enqueueMessageRemoveDups inmsg time now new []).IsHead) :
    (enqueueMessageRemoveDups inmsg time now new []).queue = [] := by
  cases new with
  | none => rfl
  | some addr => exact absurd ⟨rfl, Option.some_ne_none _⟩ hhead

theorem insertNew_head {inmsg : SMessage D} {thisStamp : ℤ} {new : Option ℕ}
    {earlier later removed : List (SMessage D)} (hpre : earlier <+: queue)
    (hhead : ¬(insertNew inmsg thisStamp new queue earlier later removed).IsHead) :
    ((insertNew inmsg thisStamp new queue earlier later removed).queue ≠ [] → queue ≠ []) ∧
      oldestMessage (insertNew inmsg thisStamp new queue earlier later removed).queue
        = oldestMessage queue := by
  cases new with
  | none => exact ⟨id, rfl⟩
  | some addr =>
    have h := oldest_of_prefix (m := later) { inmsg with addr := addr, when := thisStamp } hpre
      fun h => hhead ⟨h, Option.some_ne_none _⟩
    exact ⟨fun _ => h.1, h.2⟩

theorem enqueueUniqueMessage_head (inmsg : SMessage D) (time now : ℤ) (new : Option ℕ)
    (hhead : ¬(enqueueUniqueMessage inmsg time now new queue).IsHead) :
    ((enqueueUniqueMessage inmsg time now new queue).queue ≠ [] → queue ≠ []) ∧
      oldestMessage (enqueueUniqueMessage inmsg time now new queue).queue
        = oldestMessage queue := by
  have hdue : queue.takeWhile (·.when ≤ stamp time now) <+: queue := takeWhile_prefix _
  revert hhead
  unfold enqueueUniqueMessage
  dsimp only
  split
  · rename_i msg rest _
    intro hhead
    have h := oldest_of_prefix (repurpose inmsg msg)
      ((List.takeWhile_prefix (·.what ≠ inmsg.what)).trans hdue)
      fun h => hhead ⟨h, Option.some_ne_none _⟩
    exact ⟨fun _ => h.1, h.2⟩
  · split
    · exact insertNew_head hdue
    · rename_i msg rest _
      split
      · intro hhead
        have h := oldest_of_prefix (repurpose inmsg msg) hdue
          fun h => hhead ⟨h, Option.some_ne_none _⟩
        exact ⟨fun _ => h.1, h.2⟩
      · exact insertNew_head hdue

end SMessageList

end OpenBinder
