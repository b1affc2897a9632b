import OpenBinder.Handler.MessageQueue
import OpenBinder.Handler.Duplicates
import OpenBinder.Lib.Run

/-!
# Message queues over whole runs

A client makes messages and hands them to lists, some of which are queues; the others have what was
removed. It gets a message back with `DequeueMessage` and `Remove`.

* `InOrder`: the messages are in the order of their times, and those with the same time in the order
  they were posted in.
* `Sound`: the links and counts of all lists agree, no message is in two lists, the messages that
  were handed over and not given back are those of the lists, and the queues are in order.
* `sound_iff`: **a run is sound** exactly if nothing is removed from a list that it is not in, and a
  list adopts another one only while it is empty, and as a queue only one that is in order.
-/

namespace OpenBinder

open Lib Function List

namespace SMessageList

variable {D : Type*} {queue l m : List (SMessage D)} {posted : ℕ → ℕ} {what : ℕ} {time : ℤ}

/-- **In order**: by the time, and by the number of the post at the same time. -/
def InOrder (posted : ℕ → ℕ) (queue : List (SMessage D)) : Prop :=
  queue.Pairwise fun m m' =>
    m.when < m'.when ∨ m.when = m'.when ∧ posted m.addr ≤ posted m'.addr

theorem InOrder.sorted (h : InOrder posted queue) : Sorted queue :=
  h.imp fun hlt => hlt.elim le_of_lt fun heq => heq.1.le

theorem InOrder.sublist (h : InOrder posted queue) (hl : l.Sublist queue) : InOrder posted l :=
  List.Pairwise.sublist hl h

theorem InOrder.congr {posted' : ℕ → ℕ} (h : InOrder posted queue)
    (heq : ∀ msg ∈ queue, posted' msg.addr = posted msg.addr) : InOrder posted' queue := by
  refine h.imp_of_mem fun hm hm' hlt => ?_
  rw [heq _ hm, heq _ hm']
  exact hlt

variable {n : ℕ}

theorem InOrder.between (h : InOrder posted (l ++ m)) (hn : ∀ a, posted a ≤ n) (msg : SMessage D)
    (hnd : (addrs (l ++ msg :: m)).Nodup) (hl : ∀ o ∈ l, o.when ≤ msg.when)
    (hm : ∀ o ∈ m, msg.when < o.when) :
    InOrder (update posted msg.addr n) (l ++ msg :: m) := by
  rw [addrs_append] at hnd
  obtain ⟨hal, ham⟩ := Linked.notMem_of_nodup (show (addrs l ++ msg.addr :: addrs m).Nodup from hnd)
  have hlm : InOrder (update posted msg.addr n) (l ++ m) := by
    refine h.congr fun o ho => update_of_ne ?_ _ _
    rintro heq
    rcases mem_append.1 ho with ho | ho
    · exact hal (heq ▸ mem_map_of_mem ho)
    · exact ham (heq ▸ mem_map_of_mem ho)
  obtain ⟨hol, hom, hlm⟩ := pairwise_append.1 hlm
  refine pairwise_append.2 ⟨hol, pairwise_cons.2 ⟨fun o ho => .inl (hm o ho), hom⟩, ?_⟩
  intro o ho o' ho'
  rcases mem_cons.1 ho' with rfl | ho'
  · rcases lt_or_eq_of_le (hl o ho) with hlt | heq
    · exact .inl hlt
    · refine .inr ⟨heq, ?_⟩
      rw [update_self, update_apply]
      split
      · exact le_rfl
      · exact hn _
  · exact hlm o ho o' ho'

theorem addrs_map {f : ℕ → SMessage D} (h : ∀ a, (f a).addr = a) (z : List ℕ) :
    addrs (z.map f) = z := by
  rw [addrs, map_map]
  exact (map_congr_left fun a _ => h a).trans (map_id z)

theorem mem_addrs_split (what : ℕ) (l : List (SMessage D)) (a : ℕ) :
    a ∈ addrs (removeWhat what l) ∨ a ∈ addrs (withWhat what l) ↔ a ∈ addrs l := by
  simp only [addrs, removeWhat, withWhat, mem_map, mem_filter, decide_eq_true_eq]
  constructor
  · rintro (⟨o, ho, rfl⟩ | ⟨o, ho, rfl⟩)
    · exact ⟨o, ho.1, rfl⟩
    · exact ⟨o, ho.1, rfl⟩
  · rintro ⟨o, ho, rfl⟩
    by_cases hw : o.what = what
    · exact .inr ⟨o, ⟨ho, hw⟩, rfl⟩
    · exact .inl ⟨o, ⟨ho, hw⟩, rfl⟩

/-- What is left and what is gone, where the walk may not have looked for the code. -/
theorem mem_addrs_if (b : Bool) (what : ℕ) (l : List (SMessage D)) (a : ℕ) :
    a ∈ addrs (if b then removeWhat what l else l) ∨ a ∈ addrs (if b then withWhat what l else [])
      ↔ a ∈ addrs l := by
  cases b with
  | false => simp [addrs]
  | true => exact mem_addrs_split what l a

theorem mem_insertNew {inmsg : SMessage D} {new : Option ℕ}
    {earlier later removed : List (SMessage D)} {a : ℕ}
    (h : a ∈ addrs earlier ∨ a ∈ addrs later ∨ a ∈ addrs removed ↔ a ∈ addrs queue) :
    let p := insertNew inmsg time new queue earlier later removed
    a ∈ addrs p.queue ∨ a ∈ addrs p.removed ↔ a ∈ addrs queue ∨ p.msg = some a := by
  cases new with
  | none => simp [insertNew, addrs]
  | some b =>
    have hq : a ∈ addrs (earlier ++ { inmsg with addr := b, when := time } :: later)
        ↔ a ∈ addrs earlier ∨ a = b ∨ a ∈ addrs later := by
      rw [addrs_append, mem_append]
      exact or_congr_right mem_cons
    show a ∈ addrs (_ ++ _) ∨ a ∈ addrs removed ↔ _ ∨ some b = some a
    rw [hq, Option.some.injEq, ← h, eq_comm (a := b)]
    tauto

theorem mem_enqueueMessage (msg : SMessage D) (now : ℤ) (a : ℕ) :
    a ∈ addrs (enqueueMessage msg now queue) ↔ a = msg.addr ∨ a ∈ addrs queue := by
  have hsplit := before_append_after (stamp msg.when now) queue
  rw [enqueueMessage, addrs_append, ← congrArg addrs hsplit, addrs_append]
  simp only [addrs, map_cons, mem_append, mem_cons]
  tauto

theorem mem_enqueueMessageRemoveDups (inmsg : SMessage D) (now : ℤ) (new : Option ℕ) (a : ℕ) :
    let p := enqueueMessageRemoveDups inmsg time now new queue
    a ∈ addrs p.queue ∨ a ∈ addrs p.removed ↔ a ∈ addrs queue ∨ p.msg = some a := by
  have hsplit := before_append_after (stamp time now) queue
  unfold enqueueMessageRemoveDups
  dsimp only
  have hwalk (b : Bool) : a ∈ addrs (removeWhat inmsg.what (before (stamp time now) queue)) ∨
      a ∈ addrs (if b then removeWhat inmsg.what (after (stamp time now) queue)
        else after (stamp time now) queue) ∨
      a ∈ addrs (withWhat inmsg.what (before (stamp time now) queue) ++
        if b then withWhat inmsg.what (after (stamp time now) queue) else [])
      ↔ a ∈ addrs queue := by
    rw [← congrArg addrs hsplit, addrs_append, addrs_append, mem_append, mem_append,
      ← mem_addrs_split inmsg.what (before (stamp time now) queue),
      ← mem_addrs_if b inmsg.what (after (stamp time now) queue)]
    tauto
  split
  · exact mem_insertNew (hwalk _)
  · rename_i prev rest hpassed
    split
    · dsimp only
      rw [← congrArg addrs hsplit, hpassed, addrs_append, addrs_append, addrs_append,
        Option.some.injEq]
      simp only [mem_append, mem_cons, addrs, map_cons]
      have h₁ := mem_addrs_split inmsg.what (before (stamp time now) queue) a
      have h₂ := mem_addrs_if ((prev :: rest).tail.any (·.what = inmsg.what)) inmsg.what rest a
      unfold addrs at h₁ h₂
      rw [← h₁, ← h₂]
      tauto
    · exact mem_insertNew (hwalk _)

/-- The numbers after a post: that of the message posted is the last one. -/
def numbered (posted : ℕ → ℕ) (n : ℕ) : Option ℕ → ℕ → ℕ
  | none => posted
  | some a => update posted a n

theorem InOrder.insertNew (h : InOrder posted queue) (hn : ∀ a, posted a ≤ n) {inmsg : SMessage D}
    {new : Option ℕ} {earlier later removed : List (SMessage D)}
    (hsub : (earlier ++ later).Sublist queue) (hearlier : ∀ o ∈ earlier, o.when ≤ time)
    (hlater : ∀ o ∈ later, time < o.when)
    (hnd : (addrs (insertNew inmsg time new queue earlier later removed).queue).Nodup) :
    let p := SMessageList.insertNew inmsg time new queue earlier later removed
    InOrder (numbered posted n p.msg) p.queue := by
  cases new with
  | none => exact h
  | some a => exact (h.sublist hsub).between hn _ hnd hearlier hlater

theorem Sorted.le_of_before (h : Sorted queue) (time : ℤ) :
    ∀ o ∈ before time queue, o.when ≤ time := by
  intro o ho
  rw [h.before_eq] at ho
  simpa using (mem_filter.1 ho).2

theorem Sorted.lt_of_after (h : Sorted queue) (time : ℤ) :
    ∀ o ∈ after time queue, time < o.when := by
  intro o ho
  rw [h.after_eq] at ho
  simpa using (mem_filter.1 ho).2

theorem dequeueMessage_perm (what : ℕ) (queue : List (SMessage D)) :
    ((dequeueMessage what queue).1.toList ++ (dequeueMessage what queue).2).Perm queue := by
  unfold dequeueMessage
  split
  · cases queue with
    | nil => exact List.Perm.nil
    | cons msg queue => exact List.Perm.refl _
  · cases hfind : queue.find? (·.what = what) with
    | none =>
      rw [eraseP_of_forall_not fun msg hmsg => List.find?_eq_none.1 hfind msg hmsg]
      exact List.Perm.refl _
    | some msg =>
      obtain ⟨hmsg, x, y, hl, hx⟩ := List.find?_eq_some_iff_append.1 hfind
      rw [hl, eraseP_append_right _ fun o ho => by simpa using hx o ho,
        eraseP_cons_of_pos (by simpa using hmsg)]
      show (msg :: (x ++ y)).Perm _
      exact perm_middle.symm

/-- **`EnqueueMessage`** keeps the order: the message is the last one of its time. -/
theorem InOrder.enqueueMessage (h : InOrder posted queue) (hn : ∀ a, posted a ≤ n)
    (msg : SMessage D) (now : ℤ) (hmsg : msg.addr ∉ addrs queue) (hnd : (addrs queue).Nodup) :
    InOrder (update posted msg.addr n) (enqueueMessage msg now queue) := by
  have hsplit := before_append_after (stamp msg.when now) queue
  have h' := h
  rw [← hsplit] at h'
  exact h'.between hn { msg with when := stamp msg.when now }
    (nodup_enqueueMessage msg now hnd hmsg)
    (h.sorted.le_of_before _) (h.sorted.lt_of_after _)

theorem InOrder.enqueueMessageRemoveDups (h : InOrder posted queue) (hn : ∀ a, posted a ≤ n)
    (inmsg : SMessage D) (now : ℤ) (new : Option ℕ)
    (hnd : (addrs (enqueueMessageRemoveDups inmsg time now new queue).queue).Nodup) :
    let p := SMessageList.enqueueMessageRemoveDups inmsg time now new queue
    InOrder (numbered posted n p.msg) p.queue := by
  have hsplit := before_append_after (stamp time now) queue
  have hle := h.sorted.le_of_before (stamp time now)
  have hlt := h.sorted.lt_of_after (stamp time now)
  have hpos := removeWhat_sublist inmsg.what (before (stamp time now) queue)
  have hkeep (b : Bool) (rest : List (SMessage D)) :
      (if b then SMessageList.removeWhat inmsg.what rest else rest).Sublist rest := by
    split
    · exact removeWhat_sublist _ _
    · exact List.Sublist.refl _
  have hall (b : Bool) : (SMessageList.removeWhat inmsg.what (before (stamp time now) queue) ++
      if b then SMessageList.removeWhat inmsg.what (after (stamp time now) queue)
        else after (stamp time now) queue).Sublist queue := by
    have happend := hpos.append (hkeep b (after (stamp time now) queue))
    rw [hsplit] at happend
    exact happend
  revert hnd
  unfold SMessageList.enqueueMessageRemoveDups
  dsimp only
  split
  · exact h.insertNew hn (hall _) (fun o ho => hle o (hpos.subset ho))
      fun o ho => hlt o ((hkeep _ _).subset ho)
  · rename_i prev rest hpassed
    split
    · have hrest (b : Bool) : (if b then SMessageList.removeWhat inmsg.what rest else rest).Sublist
          (after (stamp time now) queue) := by
        rw [hpassed]
        exact (hkeep b rest).trans (sublist_cons_self prev rest)
      have happend := hpos.append (hrest ((after (stamp time now) queue).tail.any
          (·.what = inmsg.what)))
      rw [hsplit] at happend
      exact fun hnd => (h.sublist happend).between hn _ hnd (fun o ho => hle o (hpos.subset ho))
        fun o ho => hlt o ((hrest _).subset ho)
    · exact h.insertNew hn (hall _) (fun o ho => hle o (hpos.subset ho))
        fun o ho => hlt o ((hkeep _ _).subset ho)

theorem mem_repurposed {msg : SMessage D} {a : ℕ} (inmsg : SMessage D)
    (hq : l ++ msg :: m = queue) :
    a ∈ addrs (l ++ repurpose inmsg msg :: removeWhat inmsg.what m) ∨
        a ∈ addrs (withWhat inmsg.what m) ↔
      a ∈ addrs queue ∨ some msg.addr = some a := by
  have h := mem_addrs_split inmsg.what m a
  rw [← hq, addrs_append, addrs_append, Option.some.injEq]
  simp only [mem_append, mem_cons, addrs, map_cons, repurpose] at h ⊢
  rw [← h]
  tauto

theorem mem_enqueueUniqueMessage (inmsg : SMessage D) (now : ℤ) (new : Option ℕ) (a : ℕ) :
    let p := enqueueUniqueMessage inmsg time now new queue
    a ∈ addrs p.queue ∨ a ∈ addrs p.removed ↔ a ∈ addrs queue ∨ p.msg = some a := by
  have hsplit : queue.takeWhile (·.when ≤ stamp time now)
      ++ queue.dropWhile (·.when ≤ stamp time now) = queue := takeWhile_append_dropWhile
  unfold enqueueUniqueMessage
  dsimp only
  generalize queue.takeWhile (·.when ≤ stamp time now) = due at *
  generalize queue.dropWhile (·.when ≤ stamp time now) = pos at *
  have hnew : a ∈ addrs due ∨ a ∈ addrs (removeWhat inmsg.what pos) ∨
      a ∈ addrs (withWhat inmsg.what pos) ↔ a ∈ addrs queue := by
    rw [← hsplit, addrs_append, mem_append, mem_addrs_split]
  have hdue : due.takeWhile (·.what ≠ inmsg.what) ++ due.dropWhile (·.what ≠ inmsg.what) = due :=
    takeWhile_append_dropWhile
  split
  · rename_i msg rest hfound
    rw [hfound] at hdue
    refine mem_repurposed inmsg ?_
    rw [← cons_append, ← append_assoc, hdue, hsplit]
  · cases pos with
    | nil => exact mem_insertNew hnew
    | cons msg rest =>
      dsimp only
      split
      · exact mem_repurposed inmsg hsplit
      · exact mem_insertNew hnew

theorem InOrder.repurpose {msg : SMessage D} (h : InOrder posted (l ++ msg :: m))
    (inmsg : SMessage D) : InOrder posted (l ++ repurpose inmsg msg :: m) := by
  obtain ⟨hl, hm, hlm⟩ := pairwise_append.1 h
  obtain ⟨hmsg, hm⟩ := pairwise_cons.1 hm
  refine pairwise_append.2 ⟨hl, pairwise_cons.2 ⟨fun o ho => hmsg o ho, hm⟩, ?_⟩
  intro o ho o' ho'
  rcases mem_cons.1 ho' with rfl | ho'
  · exact hlm o ho msg mem_cons_self
  · exact hlm o ho o' (mem_cons_of_mem _ ho')

/-- **A message kept unique** keeps the place that one with the code has, or is the last one of its
time. -/
theorem InOrder.enqueueUniqueMessage (h : InOrder posted queue) {n : ℕ} (hn : ∀ a, posted a ≤ n)
    (inmsg : SMessage D) (now : ℤ) (new : Option ℕ) (hnew : ∀ a ∈ new, a ∉ addrs queue)
    (hnd : (addrs (enqueueUniqueMessage inmsg time now new queue).queue).Nodup) :
    let p := SMessageList.enqueueUniqueMessage inmsg time now new queue
    InOrder (if p.msg = new then numbered posted n p.msg else posted) p.queue := by
  have hsplit : queue.takeWhile (·.when ≤ stamp time now)
      ++ queue.dropWhile (·.when ≤ stamp time now) = queue := takeWhile_append_dropWhile
  have hle : ∀ o ∈ queue.takeWhile (·.when ≤ stamp time now), o.when ≤ stamp time now := by
    intro o ho
    simpa using mem_takeWhile_imp ho
  have hlt : ∀ o ∈ queue.dropWhile (·.when ≤ stamp time now), stamp time now < o.when := by
    intro o ho
    rw [h.sorted.pos_eq] at ho
    simpa using (mem_filter.1 ho).2
  revert hnd
  unfold SMessageList.enqueueUniqueMessage
  dsimp only
  generalize queue.takeWhile (·.when ≤ stamp time now) = due at *
  generalize queue.dropWhile (·.when ≤ stamp time now) = pos at *
  have hall : (due ++ SMessageList.removeWhat inmsg.what pos).Sublist queue := by
    rw [← hsplit]
    exact (List.Sublist.refl due).append (removeWhat_sublist inmsg.what pos)
  have hins : (addrs (SMessageList.insertNew inmsg (stamp time now) new queue due
        (SMessageList.removeWhat inmsg.what pos) (withWhat inmsg.what pos)).queue).Nodup →
      let p := SMessageList.insertNew inmsg (stamp time now) new queue due
        (SMessageList.removeWhat inmsg.what pos) (withWhat inmsg.what pos)
      InOrder (if p.msg = new then numbered posted n p.msg else posted) p.queue := by
    intro hnd
    have hi := h.insertNew hn hall hle (fun o ho => hlt o ((removeWhat_sublist _ _).subset ho)) hnd
    cases new with
    | none => exact hi
    | some a =>
      dsimp only
      split
      · exact hi
      · rename_i hne
        exact absurd rfl hne
  have hdue : due.takeWhile (·.what ≠ inmsg.what) ++ due.dropWhile (·.what ≠ inmsg.what) = due :=
    takeWhile_append_dropWhile
  -- a message of the queue is not the new one
  have hold {msg : SMessage D} {x y z : List (SMessage D)} (hq : x ++ msg :: y = queue)
      (hz : z.Sublist y) : InOrder (if some msg.addr = new then numbered posted n (some msg.addr)
        else posted) (x ++ SMessageList.repurpose inmsg msg :: z) := by
    have hmem : msg.addr ∈ addrs queue := by
      rw [← hq, addrs_append]
      exact mem_append_right _ mem_cons_self
    rw [if_neg fun heq => hnew _ heq.symm hmem]
    refine InOrder.repurpose (h.sublist ?_) inmsg
    rw [← hq]
    exact (List.Sublist.refl x).append (hz.cons_cons msg)
  split
  · rename_i msg rest hfound
    intro _
    rw [hfound] at hdue
    refine hold (y := rest ++ pos) ?_ (removeWhat_sublist inmsg.what (rest ++ pos))
    rw [← cons_append, ← append_assoc, hdue, hsplit]
  · cases pos with
    | nil => exact hins
    | cons msg rest =>
      dsimp only
      split
      · exact fun _ => hold hsplit (removeWhat_sublist inmsg.what rest)
      · exact hins

end SMessageList

/-- The lists with the memory of the messages. Which messages are theirs, and which post gave a
message its time, is what a client knows; the code has no record of it. -/
structure MessageRun (L D : Type*) where
  lists : SMessageLists L D
  live : ℕ → Bool
  entrusted : ℕ → Bool
  posted : ℕ → ℕ
  posts : ℕ

namespace MessageRun

open SMessageList (InOrder numbered addrs)

variable {L D : Type*}

/-- What a client does. -/
inductive Action (L D : Type*) where
  | create (a : ℕ) (msg : SMessage D)
  | delete (a : ℕ)
  | enqueueMessage (l : L) (a : ℕ) (now : ℤ)
  | enqueueMessageRemoveDups (l : L) (inmsg : SMessage D) (time now : ℤ) (new : Option ℕ) (out : L)
  | enqueueUniqueMessage (l : L) (inmsg : SMessage D) (time now : ℤ) (new : Option ℕ) (out : L)
  | dequeueMessage (l : L) (what : ℕ)
  | remove (l : L) (a : ℕ)
  | addHead (l : L) (a : ℕ)
  | addTail (l : L) (a : ℕ)
  | adopt (l o : L)

/-- Empty lists, and no messages. -/
def init (data : D) : MessageRun L D where
  lists := ⟨.empty, fun a => ⟨a, 0, 0, 10, data⟩⟩
  live := fun _ => false
  entrusted := fun _ => false
  posted := fun _ => 0
  posts := 0

/-- A message that is the client's own. -/
def held (s : MessageRun L D) (a : ℕ) : Bool := s.live a && !s.entrusted a

variable [DecidableEq L]

/-- The lists changed, with a message entrusted to them. -/
def entrust (s : MessageRun L D) (a : ℕ) (lists : SMessageLists L D) : MessageRun L D :=
  { s with
    lists := lists
    live := update s.live a true
    entrusted := update s.entrusted a true }

/-- The lists changed, with a message given back. -/
def giveBack (s : MessageRun L D) (msg : Option ℕ) (lists : SMessageLists L D) : MessageRun L D :=
  match msg with
  | none => { s with lists := lists }
  | some a => { s with lists := lists, entrusted := update s.entrusted a false }

/-- A message that gets a place by its time: the next post. -/
def number (s : MessageRun L D) (msg : Option ℕ) : MessageRun L D :=
  { s with posted := numbered s.posted (s.posts + 1) msg, posts := s.posts + 1 }

/-- A post with a duplicate flag: what it removes goes to a list that is no queue. -/
def post (s : MessageRun L D) (r : SMessageLists.Enqueued L D) (placed : Bool) : MessageRun L D :=
  match r.msg with
  | none => { s with lists := r.lists }
  | some a =>
    let s' := s.entrust a r.lists
    if placed then s'.number (some a) else s'

/-- **One step of a client.** It hands over only messages of its own, to a list that is no queue
where they are not posted, and gets what is removed in another list that is no queue. -/
def step (isQueue : L → Bool) (s : MessageRun L D) : Action L D → Option (MessageRun L D)
  | .create a msg =>
    if s.live a then none
    else some { s with
      lists := s.lists.copyTo a msg
      live := update s.live a true
      entrusted := update s.entrusted a false }
  | .delete a => if s.held a then some { s with live := update s.live a false } else none
  | .enqueueMessage l a now =>
    if s.held a then some ((s.entrust a (s.lists.enqueueMessage l a now)).number (some a)) else none
  | .enqueueMessageRemoveDups l inmsg time now new out =>
    if out = l ∨ isQueue out ∨ new.any s.live then none
    else some (s.post (s.lists.enqueueMessageRemoveDups l inmsg time now new out) true)
  | .enqueueUniqueMessage l inmsg time now new out =>
    if out = l ∨ isQueue out ∨ new.any s.live then none
    else
      let r := s.lists.enqueueUniqueMessage l inmsg time now new out
      some (s.post r (r.msg = new))
  | .dequeueMessage l what =>
    let (msg, _, lists) := s.lists.dequeueMessage l what
    some (s.giveBack msg lists)
  | .remove l a =>
    if s.live a then
      let (msg, links) := s.lists.links.remove l a
      some (s.giveBack msg { s.lists with links := links })
    else none
  | .addHead l a =>
    if s.held a && !isQueue l then
      some (s.entrust a { s.lists with links := s.lists.links.addHead l a })
    else none
  | .addTail l a =>
    if s.held a && !isQueue l then
      some (s.entrust a { s.lists with links := s.lists.links.addTail l a })
    else none
  | .adopt l o =>
    some { s with
      lists := { s.lists with links := s.lists.links.adopt l o }
      live := fun a => s.live a && !decide (a ∈ s.lists.links.messages l) }

/-- **The lists are sound**: links and counts agree, no message is in two lists, the messages that
were handed over are in one, and the queues are in order. -/
def Sound (isQueue : L → Bool) (s : MessageRun L D) : Prop :=
  ∃ seq : L → List ℕ,
    (∀ l, Linked s.lists.links.next (s.lists.links.head l) (seq l) ∧
      Linked s.lists.links.prev (s.lists.links.tail l) (seq l).reverse ∧
      s.lists.links.count l = (seq l).length) ∧
    (∀ l l' a, a ∈ seq l → a ∈ seq l' → l = l') ∧
    (∀ a, s.entrusted a = true ↔ ∃ l, a ∈ seq l) ∧
    ∀ l, isQueue l → InOrder s.posted ((seq l).map s.lists.content)

/-- **What a step observes**: a message is removed from the list that it is in, or is the last one
of another list or in none; only an empty list adopts another one, and a queue only one in order. -/
def Observes (isQueue : L → Bool) (s : MessageRun L D) : Action L D → Prop
  | .remove l a =>
    s.lists.links.next a = none ∨ ∃ z, Linked s.lists.links.next (s.lists.links.head l) z ∧ a ∈ z
  | .adopt l o =>
    s.lists.links.head l = none ∧ (isQueue l → ∀ z,
      Linked s.lists.links.next (s.lists.links.head o) z → InOrder s.posted (z.map s.lists.content))
  | _ => True

/-- What holds of the lists, of which messages there are in them. -/
structure Inv (isQueue : L → Bool) (s : MessageRun L D) (seq : L → List ℕ) : Prop where
  holds : s.lists.links.Holds seq
  addr : ∀ a, (s.lists.content a).addr = a
  live : ∀ l a, a ∈ seq l → s.live a = true
  kept : ∀ a, s.entrusted a = true ↔ ∃ l, a ∈ seq l
  posted : ∀ a, s.posted a ≤ s.posts
  order : ∀ l, isQueue l → InOrder s.posted ((seq l).map s.lists.content)

variable {isQueue : L → Bool} {s s' : MessageRun L D} {seq : L → List ℕ}

omit [DecidableEq L] in
theorem Inv.sound (h : Inv isQueue s seq) : Sound isQueue s :=
  ⟨seq, fun l => ⟨h.holds.forward l, h.holds.backward l, h.holds.count l⟩, h.holds.disjoint, h.kept,
    h.order⟩

omit [DecidableEq L] in
theorem Inv.init (data : D) : Inv isQueue (init data : MessageRun L D) fun _ => [] where
  holds := .empty
  addr := fun _ => rfl
  live := fun _ _ h => by cases h
  kept := fun a => by simp [MessageRun.init]
  posted := fun _ => le_rfl
  order := fun _ _ => List.Pairwise.nil

variable {a : ℕ} {l : L} {z : List ℕ}

omit [DecidableEq L] in
theorem Inv.notMem_of_held (h : Inv isQueue s seq) (ha : s.held a = true) (l : L) :
    a ∉ seq l := by
  intro hal
  have he := (h.kept a).2 ⟨l, hal⟩
  simp [held, he] at ha

omit [DecidableEq L] in
theorem Inv.notMem_of_new (h : Inv isQueue s seq) (ha : s.live a = false) (l : L) :
    a ∉ seq l := by
  intro hal
  rw [h.live l a hal] at ha
  cases ha

theorem exists_mem_update {b : ℕ} {p : Prop} (hl : b ∈ z ↔ p ∨ b ∈ seq l) :
    (∃ l', b ∈ update seq l z l') ↔ p ∨ ∃ l', b ∈ seq l' := by
  constructor
  · rintro ⟨l', hb⟩
    by_cases hl' : l' = l
    · subst hl'
      rw [update_self, hl] at hb
      exact hb.imp_right fun hb => ⟨l', hb⟩
    · rw [update_of_ne hl'] at hb
      exact .inr ⟨l', hb⟩
  · rintro (hp | ⟨l', hb⟩)
    · exact ⟨l, by rw [update_self]; exact hl.2 (.inl hp)⟩
    · by_cases hl' : l' = l
      · subst hl'
        exact ⟨l', by rw [update_self]; exact hl.2 (.inr hb)⟩
      · exact ⟨l', by rw [update_of_ne hl']; exact hb⟩

omit [DecidableEq L] in
/-- What is known of the lists when messages only move: who is entrusted, and who lives. -/
theorem Inv.entrust {seq' : L → List ℕ} (h : Inv isQueue s seq) (lists : SMessageLists L D)
    (hmem : ∀ b, (∃ l, b ∈ seq' l) ↔ b = a ∨ ∃ l, b ∈ seq l) :
    (∀ l b, b ∈ seq' l → (s.entrust a lists).live b = true) ∧
      ∀ b, (s.entrust a lists).entrusted b = true ↔ ∃ l, b ∈ seq' l := by
  constructor
  · intro l b hb
    rcases (hmem b).1 ⟨l, hb⟩ with rfl | ⟨l', hb⟩
    · exact update_self _ _ _
    · show update s.live a true b = true
      rw [update_apply]
      split
      · rfl
      · exact h.live l' b hb
  · intro b
    show update s.entrusted a true b = true ↔ _
    rw [hmem, update_apply]
    split
    · rename_i hba
      exact iff_of_true rfl (.inl hba)
    · rename_i hba
      rw [h.kept, or_iff_right hba]

theorem InOrder.other {posted posted' : ℕ → ℕ} {content content' : ℕ → SMessage D}
 (h : InOrder posted (z.map content)) (haddr : ∀ b, (content b).addr = b) (ha : a ∉ z)
    (hcontent : ∀ b, b ≠ a → content' b = content b) (hposted : ∀ b, b ≠ a → posted' b = posted b) :
    InOrder posted' (z.map content') := by
  have hmap : z.map content' = z.map content :=
    map_congr_left fun b hb => hcontent b (ne_of_mem_of_not_mem hb ha)
  rw [hmap]
  refine SMessageList.InOrder.congr h fun m hm => ?_
  obtain ⟨b, hb, rfl⟩ := mem_map.1 hm
  exact hposted _ (by rw [haddr]; exact ne_of_mem_of_not_mem hb ha)

theorem Inv.enqueueMessage (h : Inv isQueue s seq) {now : ℤ} (hheld : s.held a = true) :
    ∃ seq', Inv isQueue ((s.entrust a (s.lists.enqueueMessage l a now)).number (some a)) seq' := by
  have hnot := h.notMem_of_held hheld
  obtain ⟨z, hz, hmap⟩ := SMessageLists.enqueueMessage_spec h.holds l hnot now
  have haddr : ∀ b, ((s.lists.enqueueMessage l a now).content b).addr = b := by
    intro b
    show (update s.lists.content a _ b).addr = b
    by_cases hba : b = a
    · rw [hba, update_self]
      exact h.addr a
    · rw [update_of_ne hba, h.addr]
  have hother : ∀ b, b ≠ a → (s.lists.enqueueMessage l a now).content b = s.lists.content b :=
    fun b hb => update_of_ne hb _ _
  have hn : ∀ b, s.posted b ≤ s.posts + 1 := fun b => (h.posted b).trans (Nat.le_succ _)
  have hmem : ∀ b, b ∈ z ↔ b = a ∨ b ∈ seq l := by
    intro b
    rw [← SMessageList.addrs_map haddr z, hmap, SMessageList.mem_enqueueMessage, h.addr,
      SMessageList.addrs_map h.addr]
  obtain ⟨hlive, hkept⟩ := h.entrust (s.lists.enqueueMessage l a now)
    fun b => exists_mem_update (hmem b)
  refine ⟨_, hz, haddr, hlive, hkept, ?_, ?_⟩
  · intro b
    show update s.posted a (s.posts + 1) b ≤ s.posts + 1
    rw [update_apply]
    split
    · exact le_rfl
    · exact hn b
  · intro l' hl'
    by_cases hll' : l' = l
    · subst hll'
      rw [update_self]
      show InOrder (update s.posted a (s.posts + 1))
        (z.map (s.lists.enqueueMessage l' a now).content)
      rw [hmap]
      have ho := (h.order l' hl').enqueueMessage hn (s.lists.content a) now
      rw [h.addr, SMessageList.addrs_map h.addr] at ho
      exact ho (hnot l') (h.holds.nodup l')
    · rw [update_of_ne hll']
      exact InOrder.other (h.order l' hl') h.addr (hnot l') hother fun b hb =>
        update_of_ne hb _ _

omit [DecidableEq L] in
theorem exists_mem_posts {lists : SMessageLists L D} {seq' : L → List ℕ} {out : L} {x y : List ℕ}
    {r : SMessageLists.Enqueued L D} {p : SMessageList.Posted D}
    (haddr : ∀ a, (lists.content a).addr = a) (haddr' : ∀ a, (r.lists.content a).addr = a)
    (ho : SMessageLists.Only seq seq' l out x (y ++ (seq out ++ z)))
    (hx : x.map r.lists.content = p.queue) (hyz : (y ++ z).map r.lists.content = p.removed)
    (hmem : ∀ b, b ∈ addrs p.queue ∨ b ∈ addrs p.removed ↔
      b ∈ addrs ((seq l).map lists.content) ∨ p.msg = some b) (b : ℕ) :
    (∃ l', b ∈ seq' l') ↔ p.msg = some b ∨ ∃ l', b ∈ seq l' := by
  have hb := hmem b
  rw [← hx, ← hyz, SMessageList.addrs_map haddr, SMessageList.addrs_map haddr',
    SMessageList.addrs_map haddr', mem_append] at hb
  constructor
  · rintro ⟨l', hl'⟩
    by_cases hll : l' = l
    · rw [hll, ho.here] at hl'
      exact (hb.1 (.inl hl')).symm.imp_right fun hl => ⟨l, hl⟩
    by_cases hlo : l' = out
    · rw [hlo, ho.there, mem_append, mem_append] at hl'
      rcases hl' with hy | hs | hz
      · exact (hb.1 (.inr (.inl hy))).symm.imp_right fun hl => ⟨l, hl⟩
      · exact .inr ⟨out, hs⟩
      · exact (hb.1 (.inr (.inr hz))).symm.imp_right fun hl => ⟨l, hl⟩
    · rw [ho.other l' hll hlo] at hl'
      exact .inr ⟨l', hl'⟩
  · -- what was in the list or is posted is in the list or among the removed ones
    have hgo : b ∈ seq l ∨ p.msg = some b → ∃ l', b ∈ seq' l' := by
      intro hl
      rcases hb.2 hl with hx | hyz
      · exact ⟨l, by rw [ho.here]; exact hx⟩
      · refine ⟨out, ?_⟩
        rw [ho.there, mem_append, mem_append]
        tauto
    rintro (hp | ⟨l', hl'⟩)
    · exact hgo (.inr hp)
    by_cases hll : l' = l
    · exact hgo (.inl (hll ▸ hl'))
    by_cases hlo : l' = out
    · refine ⟨out, ?_⟩
      rw [ho.there, mem_append, mem_append]
      exact .inr (.inl (hlo ▸ hl'))
    · exact ⟨l', by rw [ho.other l' hll hlo]; exact hl'⟩

section

variable (h : Inv isQueue s seq)
include h

/-- **A post with a duplicate flag** keeps what holds of the lists. -/
theorem Inv.post {out : L} {r : SMessageLists.Enqueued L D} {p : SMessageList.Posted D}
    (hp : SMessageLists.Posts s.lists seq l out r p) (hout : isQueue out = false) (placed : Bool)
    (hmem : ∀ b, b ∈ addrs p.queue ∨ b ∈ addrs p.removed ↔
      b ∈ addrs ((seq l).map s.lists.content) ∨ p.msg = some b)
    (horder : isQueue l →
      InOrder (if placed then numbered s.posted (s.posts + 1) p.msg else s.posted) p.queue) :
    ∃ seq', Inv isQueue (s.post r placed) seq' := by
  obtain ⟨seq', x, y, z, hq, ho, hx, hyz⟩ := hp.lists
  have haddr := hp.addr h.addr
  have hall := exists_mem_posts h.addr haddr ho hx hyz hmem
  have hcontent := hp.content
  refine ⟨seq', ?_⟩
  unfold MessageRun.post
  rw [hp.msg]
  cases hmsg : p.msg with
  | none =>
    rw [hmsg] at hall hcontent horder
    have hnumbered : (if placed then numbered s.posted (s.posts + 1) none else s.posted)
        = s.posted := ite_self _
    rw [hnumbered] at horder
    refine ⟨hq, haddr, fun l' b hb => ?_, fun b => ?_, h.posted, fun l' hl' => ?_⟩
    · obtain ⟨l₀, hl₀⟩ := ((hall b).1 ⟨l', hb⟩).resolve_left (Option.some_ne_none b).symm
      exact h.live l₀ b hl₀
    · rw [hall, or_iff_right (Option.some_ne_none b).symm]
      exact h.kept b
    · by_cases hll : l' = l
      · subst hll
        rw [ho.here]
        show InOrder s.posted (x.map r.lists.content)
        rw [hx]
        exact horder hl'
      · have hlo : l' ≠ out := fun hlo => by rw [hlo, hout] at hl'; cases hl'
        rw [ho.other l' hll hlo]
        show InOrder s.posted ((seq l').map r.lists.content)
        rw [map_congr_left fun b _ => hcontent b (Option.some_ne_none b).symm]
        exact h.order l' hl'
  | some a =>
    rw [hmsg] at hall hcontent horder
    have hall' : ∀ b, (∃ l', b ∈ seq' l') ↔ b = a ∨ ∃ l', b ∈ seq l' := by
      intro b
      rw [hall b, Option.some.injEq, eq_comm]
    obtain ⟨hlive, hkept⟩ := h.entrust r.lists hall'
    have hposted : ∀ b, (if placed then numbered s.posted (s.posts + 1) (some a) else s.posted) b
        ≤ if placed then s.posts + 1 else s.posts := by
      intro b
      cases placed with
      | false => exact h.posted b
      | true =>
        show update s.posted a (s.posts + 1) b ≤ s.posts + 1
        rw [update_apply]
        split
        · exact le_rfl
        · exact (h.posted b).trans (Nat.le_succ _)
    have hqueues : ∀ l', isQueue l' → InOrder
        (if placed then numbered s.posted (s.posts + 1) (some a) else s.posted)
        ((seq' l').map r.lists.content) := by
      intro l' hl'
      by_cases hll : l' = l
      · subst hll
        rw [ho.here, hx]
        exact horder hl'
      · have hlo : l' ≠ out := fun hlo => by rw [hlo, hout] at hl'; cases hl'
        have hsame := ho.other l' hll hlo
        -- the message posted is in the list or removed from it
        have ha : a ∉ seq l' := by
          intro hal
          have hb := (hmem a).2 (.inr hmsg)
          rw [← hx, ← hyz, SMessageList.addrs_map haddr, SMessageList.addrs_map haddr] at hb
          rw [← hsame] at hal
          rcases hb with hb | hb
          · exact hll (hq.disjoint l' l a hal (by rw [ho.here]; exact hb))
          · refine hlo (hq.disjoint l' out a hal ?_)
            rw [ho.there, mem_append, mem_append]
            rw [mem_append] at hb
            tauto
        rw [hsame]
        refine InOrder.other (h.order l' hl') h.addr ha
          (fun b hb => hcontent b fun heq => hb (Option.some.inj heq).symm) fun b hb => ?_
        cases placed with
        | false => rfl
        | true => exact update_of_ne hb _ _
    cases placed with
    | false | true => exact ⟨hq, haddr, hlive, hkept, hposted, hqueues⟩

theorem Inv.giveBack {msg : Option ℕ} {q : MessageLinks L} (hperm : (msg.toList ++ z).Perm (seq l))
    (hsub : z.Sublist (seq l)) (hq : q.Holds (update seq l z)) :
    Inv isQueue (s.giveBack msg { s.lists with links := q }) (update seq l z) := by
  have hlive : ∀ l' b, b ∈ update seq l z l' → s.live b = true := by
    intro l' b hb
    by_cases hl' : l' = l
    · subst hl'
      rw [update_self] at hb
      exact h.live l' b (hsub.subset hb)
    · rw [update_of_ne hl'] at hb
      exact h.live l' b hb
  have horder : ∀ l', isQueue l' →
      InOrder s.posted ((update seq l z l').map s.lists.content) := by
    intro l' hl'
    by_cases hll : l' = l
    · subst hll
      rw [update_self]
      exact (h.order l' hl').sublist (hsub.map _)
    · rw [update_of_ne hll]
      exact h.order l' hl'
  have hmem : ∀ b, b ∈ seq l ↔ b ∈ msg.toList ∨ b ∈ z := fun b => by
    rw [← hperm.mem_iff, mem_append]
  cases msg with
  | none =>
    refine ⟨hq, h.addr, hlive, fun b => ?_, h.posted, horder⟩
    have hb : b ∈ z ↔ False ∨ b ∈ seq l := by simp [hmem b]
    rw [exists_mem_update hb, false_or]
    exact h.kept b
  | some a =>
    refine ⟨hq, h.addr, hlive, fun b => ?_, h.posted, horder⟩
    show update s.entrusted a false b = true ↔ _
    by_cases hba : b = a
    · subst hba
      rw [update_self]
      refine iff_of_false Bool.false_ne_true ?_
      rintro ⟨l', hb⟩
      by_cases hl' : l' = l
      · subst hl'
        rw [update_self] at hb
        have hnd := hperm.nodup_iff.2 (h.holds.nodup l')
        exact (nodup_cons.1 hnd).1 hb
      · rw [update_of_ne hl'] at hb
        exact hl' (h.holds.disjoint l' l b hb ((hmem b).2 (.inl mem_cons_self)))
    · have hb : b ∈ z ↔ False ∨ b ∈ seq l := by simp [hmem b, hba]
      rw [update_of_ne hba, exists_mem_update hb, false_or]
      exact h.kept b

theorem Inv.dequeueMessage (l : L) (what : ℕ) :
    ∃ seq', Inv isQueue (s.giveBack (s.lists.dequeueMessage l what).1
      (s.lists.dequeueMessage l what).2.2) seq' := by
  obtain ⟨z, hq, hmsg, hz⟩ := SMessageLists.dequeue_holds h.holds l what
  have hsub := (SMessageList.dequeueMessage_sublist what ((seq l).map s.lists.content)).map
    SMessage.addr
  have hperm := (SMessageList.dequeueMessage_perm what ((seq l).map s.lists.content)).map
      SMessage.addr
  have haddrs (w : List ℕ) : (w.map s.lists.content).map SMessage.addr = w :=
    SMessageList.addrs_map h.addr w
  rw [← hz, haddrs, haddrs] at hsub
  rw [map_append, ← hz, ← hmsg, haddrs, haddrs, ← Option.toList_map, Option.map_map] at hperm
  have hid : (s.lists.dequeueMessage l what).1.map (SMessage.addr ∘ s.lists.content)
      = (s.lists.dequeueMessage l what).1 := by
    rw [show SMessage.addr ∘ s.lists.content = id from funext h.addr, Option.map_id]
    rfl
  rw [hid] at hperm
  exact ⟨_, h.giveBack hperm hsub hq⟩

theorem Inv.remove (hobs : Observes isQueue s (.remove l a)) :
    ∃ seq', Inv isQueue (s.giveBack (s.lists.links.remove l a).1
      { s.lists with links := (s.lists.links.remove l a).2 }) seq' := by
  by_cases hal : a ∈ seq l
  · obtain ⟨x, y, hl⟩ := append_of_mem hal
    obtain ⟨hret, hq⟩ := h.holds.remove hl
    rw [hret]
    refine ⟨_, h.giveBack ?_ ?_ hq⟩
    · rw [hl]
      show (a :: (x ++ y)).Perm _
      exact perm_middle.symm
    · rw [hl]
      exact (List.Sublist.refl x).append (sublist_cons_self a y)
  · have hna : s.lists.links.next a = none := by
      rcases hobs with hna | ⟨z, hz, haz⟩
      · exact hna
      · rw [hz.unique (h.holds.forward l)] at haz
        exact absurd haz hal
    rw [h.holds.remove_last hal hna]
    exact ⟨seq, h⟩

theorem Inv.add {q : MessageLinks L} (hl : isQueue l = false)
    (hmem : ∀ b, b ∈ z ↔ b = a ∨ b ∈ seq l) (hq : q.Holds (update seq l z)) :
    Inv isQueue (s.entrust a { s.lists with links := q }) (update seq l z) := by
  obtain ⟨hlive, hkept⟩ := h.entrust { s.lists with links := q }
    fun b => exists_mem_update (hmem b)
  refine ⟨hq, h.addr, hlive, hkept, h.posted, fun l' hl' => ?_⟩
  have hll : l' ≠ l := by
    rintro rfl
    rw [hl] at hl'
    cases hl'
  rw [update_of_ne hll]
  exact h.order l' hl'

theorem Inv.adopt {o : L} (hobs : Observes isQueue s (.adopt l o))
    (hs : step isQueue s (.adopt l o) = some s') : ∃ seq', Inv isQueue s' seq' := by
  obtain ⟨hhead, hord⟩ := hobs
  have hl : seq l = [] := by
    rw [h.holds.head] at hhead
    exact List.head?_eq_none_iff.1 hhead
  have hmessages : s.lists.links.messages l = [] := by rw [h.holds.messages, hl]
  have hmem : ∀ b, (∃ l', b ∈ update (update seq l (seq o)) o [] l') ↔
      ∃ l', b ∈ seq l' := by
    intro b
    simp only [update_apply]
    constructor
    · rintro ⟨l', hb⟩
      split_ifs at hb
      · cases hb
      · exact ⟨o, hb⟩
      · exact ⟨l', hb⟩
    · rintro ⟨l', hb⟩
      have hll : l' ≠ l := by
        rintro rfl
        rw [hl] at hb
        cases hb
      by_cases hlo : l' = o
      · subst hlo
        exact ⟨l, by rwa [if_neg hll.symm, if_pos rfl]⟩
      · exact ⟨l', by rwa [if_neg hlo, if_neg hll]⟩
  obtain ⟨⟩ := hs
  refine ⟨_, h.holds.adopt l o, h.addr, fun l' b hb => ?_, fun b => ?_, h.posted, fun l' hl' => ?_⟩
  · obtain ⟨l₀, hb⟩ := (hmem b).1 ⟨l', hb⟩
    show (s.live b && !decide (b ∈ s.lists.links.messages l)) = true
    rw [hmessages, h.live l₀ b hb]
    rfl
  · rw [hmem]
    exact h.kept b
  · simp only [update_apply]
    split_ifs with hlo hll
    · exact List.Pairwise.nil
    · exact hord (hll ▸ hl') _ (h.holds.forward o)
    · exact h.order l' hl'

end

section

variable (h : Inv isQueue s seq)
include h

omit [DecidableEq L] in
theorem Inv.of_guard [DecidableEq L] {out : L} {new : Option ℕ}
    (hguard : ¬(out = l ∨ isQueue out ∨ new.any s.live)) :
    out ≠ l ∧ isQueue out = false ∧ ∀ a ∈ new, ∀ l, a ∉ seq l := by
  rw [not_or, not_or] at hguard
  refine ⟨hguard.1, by simpa using hguard.2.1, fun a ha => h.notMem_of_new ?_⟩
  have hany := hguard.2.2
  rw [ha] at hany
  simpa using hany

/-- **One step** that observes what it must keeps what holds of the lists. -/
theorem Inv.step {a : Action L D} (hobs : Observes isQueue s a) (hs : step isQueue s a = some s') :
    ∃ seq', Inv isQueue s' seq' := by
  cases a with
  | create a msg =>
    obtain ⟨hguard, hs⟩ := Option.ite_none_left_eq_some.1 hs
    obtain ⟨⟩ := hs
    have hdead : s.live a = false := by simpa using hguard
    have hnot := h.notMem_of_new hdead
    refine ⟨seq, h.holds, fun b => ?_, fun l b hb => ?_, fun b => ?_, h.posted, fun l hl => ?_⟩
    · show (update s.lists.content a _ b).addr = b
      by_cases hba : b = a
      · rw [hba, update_self]
      · rw [update_of_ne hba, h.addr]
    · show update s.live a true b = true
      rw [update_of_ne (ne_of_mem_of_not_mem hb (hnot l))]
      exact h.live l b hb
    · show update s.entrusted a false b = true ↔ _
      by_cases hba : b = a
      · rw [hba, update_self]
        exact iff_of_false Bool.false_ne_true fun ⟨l, hb⟩ => hnot l hb
      · rw [update_of_ne hba]
        exact h.kept b
    · exact InOrder.other (h.order l hl) h.addr (hnot l) (fun b hb => update_of_ne hb _ _)
        fun _ _ => rfl
  | delete a =>
    obtain ⟨hheld, hs⟩ := Option.ite_none_right_eq_some.1 hs
    obtain ⟨⟩ := hs
    refine ⟨seq, h.holds, h.addr, fun l b hb => ?_, h.kept, h.posted, h.order⟩
    show update s.live a false b = true
    rw [update_of_ne (ne_of_mem_of_not_mem hb (h.notMem_of_held hheld l))]
    exact h.live l b hb
  | enqueueMessage l a now =>
    obtain ⟨hheld, hs⟩ := Option.ite_none_right_eq_some.1 hs
    obtain ⟨⟩ := hs
    exact h.enqueueMessage hheld
  | enqueueMessageRemoveDups l inmsg time now new out =>
    obtain ⟨hguard, hs⟩ := Option.ite_none_left_eq_some.1 hs
    obtain ⟨⟩ := hs
    obtain ⟨hol, hout, hnew⟩ := h.of_guard hguard
    have hp := SMessageLists.enqueueMessageRemoveDups_spec h.holds h.addr hol inmsg time now hnew
    refine h.post hp hout true (SMessageList.mem_enqueueMessageRemoveDups inmsg now new) ?_
    intro hl
    refine (h.order l hl).enqueueMessageRemoveDups
      (fun b => (h.posted b).trans (Nat.le_succ _)) inmsg now new
      (SMessageList.nodup_enqueueMessageRemoveDups inmsg time now new ?_ ?_)
    · rw [SMessageList.addrs_map h.addr]
      exact h.holds.nodup l
    · rw [SMessageList.addrs_map h.addr]
      exact fun a ha => hnew a ha l
  | enqueueUniqueMessage l inmsg time now new out =>
    obtain ⟨hguard, hs⟩ := Option.ite_none_left_eq_some.1 hs
    obtain ⟨⟩ := hs
    obtain ⟨hol, hout, hnew⟩ := h.of_guard hguard
    have hp := SMessageLists.enqueueUniqueMessage_spec h.holds h.addr hol inmsg time now hnew
    refine h.post hp hout _ (SMessageList.mem_enqueueUniqueMessage inmsg now new) fun hl => ?_
    have hnew' : ∀ a ∈ new, a ∉ addrs ((seq l).map s.lists.content) := by
      rw [SMessageList.addrs_map h.addr]
      exact fun a ha => hnew a ha l
    have ho := @InOrder.enqueueUniqueMessage _ _ _ time (h.order l hl) _
      (fun b => (h.posted b).trans (Nat.le_succ s.posts)) inmsg now new hnew'
      (SMessageList.nodup_enqueueUniqueMessage inmsg time now new
        (by rw [SMessageList.addrs_map h.addr]; exact h.holds.nodup l) hnew')
    simp only [decide_eq_true_eq, hp.msg]
    exact ho
  | dequeueMessage l what =>
    obtain ⟨⟩ := hs
    exact h.dequeueMessage l what
  | remove l a =>
    obtain ⟨-, hs⟩ := Option.ite_none_right_eq_some.1 hs
    obtain ⟨⟩ := hs
    exact h.remove hobs
  | addHead l a =>
    obtain ⟨hguard, hs⟩ := Option.ite_none_right_eq_some.1 hs
    obtain ⟨⟩ := hs
    rw [Bool.and_eq_true, Bool.not_eq_true'] at hguard
    exact ⟨_, h.add hguard.2 (fun b => mem_cons)
      (h.holds.addHead l (h.notMem_of_held hguard.1))⟩
  | addTail l a =>
    obtain ⟨hguard, hs⟩ := Option.ite_none_right_eq_some.1 hs
    obtain ⟨⟩ := hs
    rw [Bool.and_eq_true, Bool.not_eq_true'] at hguard
    refine ⟨_, h.add hguard.2 (fun b => ?_)
      (h.holds.addTail l (h.notMem_of_held hguard.1))⟩
    rw [mem_append, mem_singleton, or_comm]
  | adopt l o => exact h.adopt hobs hs

/-! ### What an unobservant step does -/

/-- **A message removed from a list that it is not in** leaves links or counts that do not agree. -/
theorem Inv.not_sound_remove (hal : a ∉ seq l) (hna : s.lists.links.next a ≠ none) :
    ¬Sound isQueue (s.giveBack (s.lists.links.remove l a).1
      { s.lists with links := (s.lists.links.remove l a).2 }) := by
  obtain ⟨l', hal'⟩ : ∃ l', a ∈ seq l' := by
    by_contra hnone
    rw [not_exists] at hnone
    exact hna (h.holds.rest a hnone).1
  obtain ⟨x, y, hl'⟩ := append_of_mem hal'
  have hll : l' ≠ l := by
    rintro rfl
    exact hal hal'
  rw [h.holds.next hl'] at hna
  cases y with
  | nil => exact absurd rfl hna
  | cons c y =>
    have hfwd := h.holds.forward l'
    rintro ⟨seq', hlists, -⟩
    obtain ⟨hf, hb, hc⟩ := hlists l'
    rcases eq_nil_or_concat x with rfl | ⟨x, b, rfl⟩
    · rw [h.holds.remove_front hl' hal] at hf hb
      have hseq : seq' l' = a :: c :: y := (hf.unique hfwd).trans hl'
      rw [hseq, reverse_cons, reverse_cons, append_assoc] at hb
      have hprev := (Linked.suffix hb).1
      change update s.lists.links.prev c none c = some a at hprev
      rw [update_self] at hprev
      cases hprev
    · rw [concat_eq_append] at hl'
      obtain ⟨hret, hnext, hhead, hcount⟩ := h.holds.remove_middle (l := l) hl'
      rw [hret] at hf hc
      change Linked (s.lists.links.remove l a).2.next ((s.lists.links.remove l a).2.head l') _ at hf
      change (s.lists.links.remove l a).2.count l' = _ at hc
      have hcut := hfwd
      rw [hl'] at hcut
      replace hcut := hcut.cut
      rw [if_neg (by simp), List.getLast?_concat, h.holds.next hl'] at hcut
      rw [hnext, hhead] at hf
      rw [hcount, update_of_ne hll, h.holds.count, hl', hf.unique hcut] at hc
      simp only [length_append, length_cons] at hc
      omega

/-- **A list that is not empty**, or a queue and one that is not in order, does not adopt it. -/
theorem Inv.observes_adopt {o : L} (hs : MessageRun.step isQueue s (.adopt l o) = some s')
    (hsound : Sound isQueue s') :
    Observes isQueue s (.adopt l o) := by
  obtain ⟨seq', hlists, -, hkept, horder⟩ := hsound
  have hq := h.holds.adopt l o
  obtain ⟨⟩ := hs
  have hseq (l' : L) : seq' l' = if l' = o then [] else if l' = l then seq o else seq l' := by
    rw [(hlists l').1.unique (hq.forward l')]
    simp only [update_apply]
  -- what the list had is nowhere
  have hl : seq l = [] := by
    rw [eq_nil_iff_forall_not_mem]
    intro a ha
    obtain ⟨l', hl'⟩ := (hkept a).1 ((h.kept a).2 ⟨l, ha⟩)
    rw [hseq] at hl'
    split_ifs at hl' with hlo hll
    · cases hl'
    · exact hlo (hll.trans (h.holds.disjoint l o a ha hl'))
    · exact hll (h.holds.disjoint l' l a hl' ha)
  refine ⟨by rw [h.holds.head, hl]; rfl, fun hqueue z hz => ?_⟩
  rw [hz.unique (h.holds.forward o)]
  have ho := horder l hqueue
  rw [hseq] at ho
  by_cases hlo : l = o
  · rw [← hlo, hl]
    exact List.Pairwise.nil
  · rw [if_neg hlo, if_pos rfl] at ho
    exact ho

theorem Inv.observes {a : Action L D} (hs : MessageRun.step isQueue s a = some s')
    (hsound : Sound isQueue s') :
    Observes isQueue s a := by
  cases a with
  | remove l a =>
    by_contra hobs
    rw [Observes, not_or, not_exists] at hobs
    obtain ⟨-, hs⟩ := Option.ite_none_right_eq_some.1 hs
    obtain ⟨⟩ := hs
    exact h.not_sound_remove (fun hal => hobs.2 (seq l) ⟨h.holds.forward l, hal⟩) hobs.1 hsound
  | adopt l o => exact h.observes_adopt hs hsound
  | _ => trivial

end

/-- **A run from empty lists is sound** in every state exactly if every step of it observes what it
must. -/
theorem sound_iff (isQueue : L → Bool) (data : D) (actions : List (Action L D)) :
    AllStates (step isQueue) (Sound isQueue) (init data) actions ↔
      AllSteps (step isQueue) (Observes isQueue) (init data) actions :=
  allStates_iff_allSteps (I := fun s => ∃ seq, Inv isQueue s seq) (fun _ ⟨_, h⟩ => h.sound)
    (fun _ _ _ ⟨_, h⟩ hs hobs => h.step hobs hs)
    (fun _ _ _ ⟨_, h⟩ hs hsound => h.observes hs hsound) actions (init data) ⟨_, .init data⟩

/-- A queue of one message adopts an empty list: the message is lost. -/
theorem adopt_lost : ¬AllStates (step fun l : Bool => l) (Sound fun l => l)
    (init () : MessageRun Bool Unit)
    [.create 1 ⟨1, 7, 5, 10, ()⟩, .enqueueMessage true 1 3, .adopt true false] := by
  intro h
  obtain ⟨seq, hlists, -, hkept, -⟩ := h.last (rfl : run _ _ _ = some _)
  obtain ⟨l, hl⟩ := (hkept 1).1 rfl
  have hhead := (hlists l).1.head_eq
  -- neither of the lists has a head any more
  have hnone : (none : Option ℕ) = (seq l).head? := by
    cases l with
    | false => exact hhead
    | true => exact hhead
  rw [List.head?_eq_none_iff.1 hnone.symm] at hl
  cases hl

end MessageRun

end OpenBinder
