import OpenBinder.Handler.MessageList
import OpenBinder.Lib.Sorted
import Mathlib.Order.Bounds.Basic

/-!
# Posting with the duplicate flags

* `Replaced`: what `POST_REMOVE_DUPLICATES` stands for, the messages with the code removed and then
  the new one posted.
* `KeptUnique`: what `POST_KEEP_UNIQUE` stands for, one message with the code that is not due later
  than any that there was.
* `posts_iff`: the first always does what it stands for. The second one does not if the message
  that is repurposed is due after the time: it keeps its own time.
-/

namespace OpenBinder.SMessageList

open Lib List

variable {D : Type*}

/-- The messages are in the order of their times. -/
def Sorted (queue : List (SMessage D)) : Prop := queue.Pairwise (·.when ≤ ·.when)

/-- There is no memory for the message, and nothing is done. -/
def Refused (new : Option ℕ) (queue : List (SMessage D)) (p : Posted D) : Prop :=
  new = none ∧ p.msg = none ∧ p.queue = queue ∧ p.removed = []

/-- The message in the queue is a copy of the one posted. -/
def CopyOf (msg inmsg : SMessage D) : Prop :=
  msg.what = inmsg.what ∧ msg.data = inmsg.data ∧ msg.priority = inmsg.priority

/-- **Posted without duplicates**: as if the messages with the code had been removed first. What is
removed, and the message that is replaced in its place, are the ones that were there. -/
structure Replaced (inmsg : SMessage D) (time now : ℤ) (queue : List (SMessage D))
    (p : Posted D) : Prop where
  posted : ∃ msg : SMessage D, p.msg = some msg.addr ∧ CopyOf msg inmsg ∧ msg.when = time ∧
    p.queue = enqueueMessage msg now (removeWhat inmsg.what queue)
  removed : (p.prevData = none ∧ p.removed = withWhat inmsg.what queue) ∨
    ∃ old l m, p.msg = some old.addr ∧ p.prevData = some old.data ∧
      withWhat inmsg.what queue = l ++ old :: m ∧ p.removed = l ++ m

/-- **Kept unique**: there is one message with the code, due at the earliest of the time and of the
times of those that were there, and the others are as they were. -/
structure KeptUnique (inmsg : SMessage D) (time : ℤ) (queue : List (SMessage D))
    (p : Posted D) : Prop where
  others : removeWhat inmsg.what p.queue = removeWhat inmsg.what queue
  unique : ∃ msg : SMessage D, p.msg = some msg.addr ∧ CopyOf msg inmsg ∧
    withWhat inmsg.what p.queue = [msg] ∧
    IsLeast (insert time {when | ∃ old ∈ withWhat inmsg.what queue, old.when = when}) msg.when

/-- **Nothing is repurposed that is due after the time**: the first message due after it does not
have the code, or there is one with the code that is due by then. -/
def DueByThen (what : ℕ) (time : ℤ) (queue : List (SMessage D)) : Prop :=
  ∀ msg ∈ (queue.dropWhile (·.when ≤ time)).head?, msg.what = what →
    ∃ old ∈ queue, old.what = what ∧ old.when ≤ time

variable {queue : List (SMessage D)} {what : ℕ} {time : ℤ}

theorem Sorted.before_eq (h : Sorted queue) (time : ℤ) :
    before time queue = queue.filter (·.when ≤ time) := by
  rw [before, rdropWhile_eq_filter (h.imp fun hle hlt => ?_)]
  · exact filter_congr fun msg _ => by rw [Bool.eq_iff_iff]; simp
  · simp only [decide_eq_true_eq] at hlt ⊢
    omega

theorem Sorted.after_eq (h : Sorted queue) (time : ℤ) :
    after time queue = queue.filter (time < ·.when) := by
  rw [after, rtakeWhile_eq_filter (h.imp fun hle hlt => ?_)]
  simp only [decide_eq_true_eq] at hlt ⊢
  omega

theorem Sorted.pos_eq (h : Sorted queue) (time : ℤ) :
    queue.dropWhile (·.when ≤ time) = queue.filter (time < ·.when) := by
  rw [dropWhile_eq_filter (h.imp fun hle hlt => ?_)]
  · exact filter_congr fun msg _ => by rw [Bool.eq_iff_iff]; simp
  · simp only [decide_eq_true_eq] at hlt ⊢
    omega

theorem Sorted.removeWhat (h : Sorted queue) (what : ℕ) : Sorted (removeWhat what queue) :=
  h.sublist (removeWhat_sublist what queue)

theorem removeWhat_append (what : ℕ) (l m : List (SMessage D)) :
    removeWhat what (l ++ m) = removeWhat what l ++ removeWhat what m := filter_append ..

theorem withWhat_append (what : ℕ) (l m : List (SMessage D)) :
    withWhat what (l ++ m) = withWhat what l ++ withWhat what m := filter_append ..

variable {msg : SMessage D} {l : List (SMessage D)}

theorem removeWhat_cons_of_eq (h : msg.what = what) (l : List (SMessage D)) :
    removeWhat what (msg :: l) = removeWhat what l := filter_cons_of_neg (by simp [h])

theorem withWhat_cons_of_eq (h : msg.what = what) (l : List (SMessage D)) :
    withWhat what (msg :: l) = msg :: withWhat what l := filter_cons_of_pos (by simp [h])

@[simp] theorem removeWhat_removeWhat (what : ℕ) (l : List (SMessage D)) :
    removeWhat what (removeWhat what l) = removeWhat what l := by
  simp [removeWhat]

@[simp] theorem withWhat_removeWhat (what : ℕ) (l : List (SMessage D)) :
    withWhat what (removeWhat what l) = [] := by
  simp [removeWhat, withWhat]

theorem withWhat_eq_nil :
    withWhat what l = [] ↔ ∀ msg ∈ l, msg.what ≠ what := by
  simp [withWhat]

theorem removeWhat_eq_self (h : ∀ msg ∈ l, msg.what ≠ what) :
    removeWhat what l = l := filter_eq_self.2 (by simpa using h)

theorem Sorted.before_removeWhat (h : Sorted queue) (what : ℕ) (time : ℤ) :
    before time (SMessageList.removeWhat what queue)
      = SMessageList.removeWhat what (before time queue) := by
  rw [(h.removeWhat what).before_eq, h.before_eq, SMessageList.removeWhat,
    SMessageList.removeWhat, filter_comm]

theorem Sorted.after_removeWhat (h : Sorted queue) (what : ℕ) (time : ℤ) :
    after time (SMessageList.removeWhat what queue)
      = SMessageList.removeWhat what (after time queue) := by
  rw [(h.removeWhat what).after_eq, h.after_eq, SMessageList.removeWhat,
    SMessageList.removeWhat, filter_comm]

theorem stamp_of_pos (h : 0 < time) (now : ℤ) : stamp time now = time := if_neg (by omega)

/-! ### Duplicates removed -/

/-- **A message between what is left** of the two sides of its place is posted into what is left. -/
theorem Sorted.posted_between (h : Sorted queue) (ht : 0 < time) (now : ℤ) (msg : SMessage D)
    (hmsg : msg.when = time) :
    SMessageList.removeWhat what (before time queue)
        ++ msg :: SMessageList.removeWhat what (after time queue)
      = enqueueMessage msg now (SMessageList.removeWhat what queue) := by
  subst hmsg
  unfold enqueueMessage
  rw [stamp_of_pos ht]
  dsimp only
  rw [h.before_removeWhat, h.after_removeWhat]

/-- **A new message** is posted when all others with the code are removed. -/
theorem Sorted.replaced_insertNew (h : Sorted queue) (ht : 0 < time) (inmsg : SMessage D) (now : ℤ)
    (new : Option ℕ) {later gone : List (SMessage D)}
    (hlater : later = SMessageList.removeWhat inmsg.what (after time queue))
    (hgone : gone = withWhat inmsg.what (after time queue)) :
    let p := insertNew inmsg time new queue (SMessageList.removeWhat inmsg.what (before time queue))
      later (withWhat inmsg.what (before time queue) ++ gone)
    Refused new queue p ∨ Replaced inmsg time now queue p := by
  cases new with
  | none => exact .inl ⟨rfl, rfl, rfl, rfl⟩
  | some addr =>
    refine .inr ⟨⟨{ inmsg with addr := addr, when := time }, rfl, ⟨rfl, rfl, rfl⟩, rfl, ?_⟩, ?_⟩
    · rw [hlater]
      exact h.posted_between ht now _ rfl
    · refine .inl ⟨rfl, ?_⟩
      rw [hgone]
      change withWhat _ _ ++ withWhat _ _ = _
      rw [← withWhat_append, before_append_after]

/-- The walk has seen no message with the code, so that none is looked for. -/
theorem later_eq (what : ℕ) {rest : List (SMessage D)} (h : ∀ msg ∈ l, msg.what = what → msg ∈ rest)
    :
    (if rest.any (·.what = what) then removeWhat what l else l) = removeWhat what l := by
  split
  · rfl
  · rename_i hany
    refine (removeWhat_eq_self fun msg hmsg hwhat => hany ?_).symm
    exact any_eq_true.2 ⟨msg, h msg hmsg hwhat, by simpa using hwhat⟩

theorem gone_eq (what : ℕ) {rest : List (SMessage D)} (h : ∀ msg ∈ l, msg.what = what → msg ∈ rest)
    :
    (if rest.any (·.what = what) then withWhat what l else []) = withWhat what l := by
  split
  · rfl
  · rename_i hany
    refine (withWhat_eq_nil.2 fun msg hmsg hwhat => hany ?_).symm
    exact any_eq_true.2 ⟨msg, h msg hmsg hwhat, by simpa using hwhat⟩

theorem Sorted.replaced (h : Sorted queue) (ht : 0 < time) (inmsg : SMessage D) (now : ℤ)
    (new : Option ℕ) :
    Refused new queue (enqueueMessageRemoveDups inmsg time now new queue) ∨
      Replaced inmsg time now queue (enqueueMessageRemoveDups inmsg time now new queue) := by
  unfold enqueueMessageRemoveDups
  rw [stamp_of_pos ht]
  dsimp only
  cases hpassed : after time queue with
  | nil =>
    refine h.replaced_insertNew ht inmsg now new ?_ ?_ <;> rw [hpassed] <;> rfl
  | cons prev rest =>
    rw [tail_cons]
    dsimp only
    by_cases hprev : prev.what = inmsg.what
    · rw [if_pos hprev, later_eq _ fun msg hmsg _ => hmsg, gone_eq _ fun msg hmsg _ => hmsg]
      refine .inr
        ⟨⟨{ inmsg with addr := prev.addr, when := time }, rfl, ⟨rfl, rfl, rfl⟩, rfl, ?_⟩,
          .inr ⟨prev, _, _, rfl, rfl, ?_, rfl⟩⟩
      · rw [← h.posted_between ht now _ rfl, hpassed, removeWhat_cons_of_eq hprev]
      · rw [← withWhat_cons_of_eq hprev, ← hpassed, ← withWhat_append, before_append_after]
    · rw [if_neg hprev]
      have hrest : ∀ msg ∈ prev :: rest, msg.what = inmsg.what → msg ∈ rest := by
        intro msg hmsg hwhat
        rcases mem_cons.1 hmsg with rfl | hmsg
        · exact absurd hwhat hprev
        · exact hmsg
      refine h.replaced_insertNew ht inmsg now new ?_ ?_ <;> rw [hpassed]
      · exact later_eq _ hrest
      · exact gone_eq _ hrest

/-! ### Kept unique -/

theorem KeptUnique.of_between {inmsg msg : SMessage D} {p : Posted D} {l m : List (SMessage D)}
    (hqueue : p.queue = l ++ msg :: removeWhat inmsg.what m) (hmsg : p.msg = some msg.addr)
    (hcopy : CopyOf msg inmsg) (hl : ∀ o ∈ l, o.what ≠ inmsg.what)
    (hothers : removeWhat inmsg.what queue = l ++ removeWhat inmsg.what m)
    (hleast : IsLeast (insert time {when | ∃ old ∈ withWhat inmsg.what queue, old.when = when})
      msg.when) : KeptUnique inmsg time queue p := by
  refine ⟨?_, msg, hmsg, hcopy, ?_, hleast⟩
  · rw [hqueue, removeWhat_append, removeWhat_cons_of_eq hcopy.1, removeWhat_removeWhat,
      removeWhat_eq_self hl, hothers]
  · rw [hqueue, withWhat_append, withWhat_cons_of_eq hcopy.1, withWhat_removeWhat,
      withWhat_eq_nil.2 hl, nil_append]

/-- **The first message with the code** is due the earliest, if it is due by the time. -/
theorem Sorted.isLeast_first (h : Sorted queue) {m : List (SMessage D)}
    (hsplit : l ++ msg :: m = queue) (hl : ∀ o ∈ l, o.what ≠ what) (hmsg : msg.what = what)
    (hle : msg.when ≤ time) :
    IsLeast (insert time {when | ∃ old ∈ withWhat what queue, old.when = when}) msg.when := by
  subst hsplit
  have hwith : withWhat what (l ++ msg :: m) = msg :: withWhat what m := by
    rw [withWhat_append, withWhat_eq_nil.2 hl, withWhat_cons_of_eq hmsg, nil_append]
  rw [hwith]
  refine ⟨.inr ⟨msg, mem_cons_self, rfl⟩, ?_⟩
  rintro when (rfl | ⟨old, hold, rfl⟩)
  · exact hle
  rcases mem_cons.1 hold with rfl | hold
  · exact le_rfl
  · have hm := (pairwise_append.1 h).2.1
    exact (pairwise_cons.1 hm).1 old (mem_of_mem_filter hold)

/-- **A new message** is due the earliest if those with the code are due later. -/
theorem isLeast_time (h : ∀ o ∈ queue, o.what = what → time ≤ o.when) :
    IsLeast (insert time {when | ∃ old ∈ withWhat what queue, old.when = when}) time := by
  refine ⟨.inl rfl, ?_⟩
  rintro when (rfl | ⟨old, hold, rfl⟩)
  · exact le_rfl
  · obtain ⟨hmem, hwhat⟩ := mem_filter.1 hold
    exact h old hmem (by simpa using hwhat)

theorem keptUnique_insertNew (inmsg : SMessage D) (new : Option ℕ) {due pos : List (SMessage D)}
    (hsplit : due ++ pos = queue) (hdue : ∀ o ∈ due, o.what ≠ inmsg.what)
    (hpos : ∀ o ∈ pos, time < o.when) :
    let p := insertNew inmsg time new queue due (removeWhat inmsg.what pos)
        (withWhat inmsg.what pos)
    Refused new queue p ∨ KeptUnique inmsg time queue p := by
  cases new with
  | none => exact .inl ⟨rfl, rfl, rfl, rfl⟩
  | some addr =>
    let msg : SMessage D := { inmsg with addr := addr, when := time }
    refine .inr (@KeptUnique.of_between _ _ _ _ msg _ due pos rfl rfl ⟨rfl, rfl, rfl⟩ hdue ?_
      (isLeast_time fun o ho hwhat => ?_))
    · rw [← hsplit, removeWhat_append, removeWhat_eq_self hdue]
    · rw [← hsplit] at ho
      rcases mem_append.1 ho with ho | ho
      · exact absurd hwhat (hdue o ho)
      · exact (hpos o ho).le

/-- **Posting with `POST_KEEP_UNIQUE`** does what it stands for exactly if it repurposes no message
that is due after the time. -/
theorem Sorted.keptUnique_iff (h : Sorted queue) (ht : 0 < time) (inmsg : SMessage D) (now : ℤ)
    (new : Option ℕ) :
    (Refused new queue (enqueueUniqueMessage inmsg time now new queue) ∨
      KeptUnique inmsg time queue (enqueueUniqueMessage inmsg time now new queue)) ↔
      DueByThen inmsg.what time queue := by
  have hsplit : queue.takeWhile (·.when ≤ time) ++ queue.dropWhile (·.when ≤ time) = queue :=
    takeWhile_append_dropWhile
  have hdue : ∀ o ∈ queue.takeWhile (·.when ≤ time), o.when ≤ time := by
    intro o ho
    simpa using mem_takeWhile_imp ho
  have hpos : ∀ o ∈ queue.dropWhile (·.when ≤ time), time < o.when := by
    intro o ho
    rw [h.pos_eq] at ho
    simpa using (mem_filter.1 ho).2
  unfold enqueueUniqueMessage DueByThen
  rw [stamp_of_pos ht]
  dsimp only
  generalize queue.takeWhile (·.when ≤ time) = due at *
  generalize queue.dropWhile (·.when ≤ time) = pos at *
  cases hfound : due.dropWhile (·.what ≠ inmsg.what) with
  | cons msg rest =>
    have hall := @List.takeWhile_append_dropWhile _ (·.what ≠ inmsg.what) due
    have hbefore : ∀ o ∈ due.takeWhile (·.what ≠ inmsg.what), o.what ≠ inmsg.what := by
      intro o ho
      simpa using mem_takeWhile_imp ho
    have hmsg := List.head?_dropWhile_not (·.what ≠ inmsg.what) due
    rw [hfound] at hall hmsg
    replace hmsg : msg.what = inmsg.what := by simpa using hmsg
    have hmem : msg ∈ due := hall ▸ mem_append_right _ mem_cons_self
    rw [← hall, append_assoc, cons_append] at hsplit
    refine iff_of_true (.inr (KeptUnique.of_between rfl rfl ⟨hmsg, rfl, rfl⟩ hbefore ?_ ?_)) ?_
    · rw [← hsplit, removeWhat_append, removeWhat_cons_of_eq hmsg, removeWhat_eq_self hbefore]
    · exact (h.isLeast_first hsplit hbefore hmsg (hdue msg hmem) :)
    · intro _ _ _
      refine ⟨msg, ?_, hmsg, hdue msg hmem⟩
      rw [← hsplit]
      exact mem_append_right _ mem_cons_self
  | nil =>
    have hnone : ∀ o ∈ due, o.what ≠ inmsg.what := by
      intro o ho
      simpa using dropWhile_eq_nil_iff.1 hfound o ho
    cases pos with
    | nil =>
      refine iff_of_true (keptUnique_insertNew inmsg new hsplit hnone hpos) ?_
      rintro msg ⟨⟩
    | cons msg rest =>
      dsimp only [List.head?_cons]
      by_cases hmsg : msg.what = inmsg.what
      · -- the message keeps the time that it is due at, later than the one asked for
        rw [if_pos hmsg]
        refine iff_of_false ?_ fun hc => ?_
        · rintro (⟨-, hnone, -⟩ | hk)
          · cases hnone
          · obtain ⟨kept, -, -, honly, hleast⟩ := hk.unique
            have hwith : withWhat inmsg.what (due ++ repurpose inmsg msg ::
                SMessageList.removeWhat inmsg.what rest) = [repurpose inmsg msg] := by
              rw [withWhat_append, withWhat_eq_nil.2 hnone, nil_append,
                withWhat_cons_of_eq (show (repurpose inmsg msg).what = _ from hmsg),
                withWhat_removeWhat]
            obtain ⟨rfl, -⟩ := List.cons.inj (hwith.symm.trans honly)
            have hle : msg.when ≤ time := hleast.2 (.inl rfl)
            exact absurd (hpos msg mem_cons_self) (not_lt.2 hle)
        · obtain ⟨old, hold, hwhat, hle⟩ := hc msg rfl hmsg
          rw [← hsplit] at hold
          rcases mem_append.1 hold with hold | hold
          · exact hnone old hold hwhat
          · exact absurd (hpos old hold) (not_lt.2 hle)
      · rw [if_neg hmsg]
        refine iff_of_true (keptUnique_insertNew inmsg new hsplit hnone hpos) ?_
        rintro _ ⟨⟩ hwhat
        exact absurd hwhat hmsg

/-- **The duplicate flags** mean what they stand for, in a queue in order and for any time, exactly
if no message is repurposed that is due after the time. -/
theorem posts_iff (hs : Sorted queue) (ht : 0 < time) (inmsg : SMessage D) (now : ℤ)
    (new new' : Option ℕ) :
    ((Refused new queue (enqueueMessageRemoveDups inmsg time now new queue) ∨
        Replaced inmsg time now queue (enqueueMessageRemoveDups inmsg time now new queue)) ∧
      (Refused new' queue (enqueueUniqueMessage inmsg time now new' queue) ∨
        KeptUnique inmsg time queue (enqueueUniqueMessage inmsg time now new' queue))) ↔
      DueByThen inmsg.what time queue := by
  rw [hs.keptUnique_iff ht inmsg now new']
  exact and_iff_right (hs.replaced ht inmsg now new)

/-- A queue with the code due at the time and later: all is as it should be. -/
theorem posts_due :
    let queue : List (SMessage ℕ) := [⟨1, 7, 5, 10, 0⟩, ⟨2, 8, 6, 10, 1⟩, ⟨3, 7, 9, 10, 2⟩]
    (Refused (some 4) queue (enqueueMessageRemoveDups ⟨0, 7, 0, 10, 3⟩ 5 0 (some 4) queue) ∨
        Replaced ⟨0, 7, 0, 10, 3⟩ 5 0 queue
          (enqueueMessageRemoveDups ⟨0, 7, 0, 10, 3⟩ 5 0 (some 4) queue)) ∧
      (Refused none queue (enqueueUniqueMessage ⟨0, 7, 0, 10, 3⟩ 5 0 none queue) ∨
        KeptUnique ⟨0, 7, 0, 10, 3⟩ 5 queue
          (enqueueUniqueMessage ⟨0, 7, 0, 10, 3⟩ 5 0 none queue)) := by
  refine (posts_iff ?_ (by decide) _ 0 (some 4) none).2 ?_
  · simp [Sorted]
  · intro msg hmsg hwhat
    exact ⟨⟨1, 7, 5, 10, 0⟩, mem_cons_self, rfl, le_rfl⟩

/-- A message with the code that is due at nine stays there when it is posted to be due at five. -/
theorem unique_late :
    ¬ (let queue : List (SMessage ℕ) := [⟨1, 7, 9, 10, 0⟩]
      Refused none queue (enqueueUniqueMessage ⟨0, 7, 0, 10, 3⟩ 5 0 none queue) ∨
        KeptUnique ⟨0, 7, 0, 10, 3⟩ 5 queue
          (enqueueUniqueMessage ⟨0, 7, 0, 10, 3⟩ 5 0 none queue)) := by
  dsimp only
  rintro (⟨-, hnone, -⟩ | hk)
  · cases hnone
  · obtain ⟨msg, -, -, honly, hleast⟩ := hk.unique
    have hmsg : withWhat 7 (enqueueUniqueMessage (⟨0, 7, 0, 10, 3⟩ : SMessage ℕ) 5 0 none
        [⟨1, 7, 9, 10, 0⟩]).queue = [⟨1, 7, 9, 10, 3⟩] := by decide
    obtain ⟨rfl, -⟩ := List.cons.inj (hmsg.symm.trans honly)
    exact absurd (hleast.2 (Or.inl rfl)) (by decide)

end OpenBinder.SMessageList
