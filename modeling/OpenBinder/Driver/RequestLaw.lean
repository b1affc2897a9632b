import Mathlib.Data.List.Nodup
import OpenBinder.Driver.Requests
import OpenBinder.Lib.Run

/-!
# No request is lost, duplicated or reordered

The invariant has two parts. `Inv` is about the queue, the wait stack and the pending lists of
the threads that send, and `Books` about what was created, accepted and returned. Both refer to
one function that gives every transaction its place, which is why none can be at two.

* `requests_sound_iff`: every state of a run is sound exactly when, whenever a thread sends to a
  process where no thread waits, it has nothing else pending.
-/

namespace OpenBinder.Requests

open Lib Function List

variable {Θ T : Type} [DecidableEq Θ] [DecidableEq T]

/-- Where a transaction is, for all there are. -/
inductive Whereabouts (Θ : Type) where
  | fresh
  | event
  | pending (w : Θ)
  | elsewhere
  | queue
  | thread (w : Θ)
  | returned (w : Θ)
  deriving DecidableEq

/-- The places of what was accepted are among these. -/
def Place.whereabouts : Place Θ → Whereabouts Θ
  | .queue => .queue
  | .thread w => .thread w
  | .returned w => .returned w

/-- Not linked or pointed to by the process or a thread that sends. -/
def Whereabouts.loose : Whereabouts Θ → Bool
  | .queue | .thread _ | .pending _ => false
  | _ => true

/-- Accepted and not yet returned. -/
def Whereabouts.inside : Whereabouts Θ → Bool
  | .queue | .thread _ => true
  | _ => false

/-- **The queue, the wait stack and the pending lists**: `q` and `pl` are what they have, and
`pos` says so too. -/
structure Inv (event : T) (s : Requests Θ T) (q : List T) (pl : Θ → List T)
    (pos : T → Whereabouts Θ) : Prop where
  holds : s.queue.Holds q
  fifo : s.queued = s.popped ++ q
  idle : q = [] ∨ s.waitStack = []
  stack : s.waitStack.Nodup
  count : s.waitStackCount = s.waitStack.length
  onStack : ∀ w ∈ s.waitStack,
    s.waiting w = true ∧ s.nextRequest w = none ∧ s.wakeReason w = .none
  offStack : ∀ w, w ∉ s.waitStack → s.waiting w = true →
    s.nextRequest w ≠ none ∨ s.wakeReason w ≠ .none
  notWaiting : ∀ w, s.waiting w = false → s.nextRequest w = none ∧ s.wakeReason w ≠ .idle
  handed : ∀ w, s.nextRequest w ≠ none → s.wakeReason w = .none
  linked : ∀ w, Linked s.queue.next (s.pending w) (pl w)
  atQueue : ∀ t, t ∈ q ↔ pos t = .queue
  atThread : ∀ w t, s.nextRequest w = some t ↔ pos t = .thread w
  atPending : ∀ w t, t ∈ pl w ↔ pos t = .pending w
  eventNext : pos event ≠ .queue → s.queue.next event = none

/-- **What was created, accepted and returned.** -/
structure Books (event : T) (s : Requests Θ T) (pos : T → Whereabouts Θ) : Prop where
  atReturned : ∀ w t, (w, t) ∈ s.returned ↔ pos t = .returned w
  atElsewhere : ∀ t, t ∈ s.elsewhere ↔ pos t = .elsewhere
  atFresh : ∀ t, t ∉ s.created ↔ pos t = .fresh
  atEvent : ∀ t, pos t = .event → t = event
  inQueue : if s.eventInQueue then (pos event).inside = true else pos event = .event
  accepted : ∀ t, t ∈ s.accepted ↔ t ≠ event ∧ ((pos t).inside = true ∨ ∃ w, pos t = .returned w)
  acceptedNodup : s.accepted.Nodup
  returnedNodup : (s.returned.map Prod.snd).Nodup
  syncCount : s.syncCount = s.accepted.length - s.returned.length

variable {event : T} {s : Requests Θ T} {q : List T} {pl : Θ → List T}
  {pos : T → Whereabouts Θ}

omit [DecidableEq Θ] in
theorem init_inv (event : T) : (init event : Requests Θ T).Inv event [] (fun _ => [])
    (fun t => if t = event then .event else .fresh) where
  holds := ⟨rfl, rfl⟩
  fifo := rfl
  idle := .inl rfl
  stack := nodup_nil
  count := rfl
  onStack w h := absurd h not_mem_nil
  offStack w _ h := absurd h (by simp [init])
  notWaiting w _ := ⟨rfl, by simp [init]⟩
  handed w _ := rfl
  linked w := rfl
  atQueue t := by split <;> simp
  atThread w t := by split <;> simp [init]
  atPending w t := by split <;> simp
  eventNext _ := rfl

omit [DecidableEq Θ] in
theorem init_books (event : T) : (init event : Requests Θ T).Books event
    (fun t => if t = event then .event else .fresh) where
  atReturned w t := by split <;> simp [init]
  atElsewhere t := by split <;> simp [init]
  atFresh t := by split <;> simp [init, *]
  atEvent t h := by
    split at h
    · assumption
    · cases h
  inQueue := by simp [init]
  accepted t := by split <;> simp [init, Whereabouts.inside, *]
  acceptedNodup := nodup_nil
  returnedNodup := nodup_nil
  syncCount := rfl

/-! ### The queue and the wait stack -/

variable {t : T} {w : Θ} {p : Whereabouts Θ} {r : WakeReason} {s' : Requests Θ T}

omit [DecidableEq Θ] [DecidableEq T] in
theorem Inv.not_mem (h : s.Inv event q pl pos) (hp : (pos t).loose = true) :
    t ∉ q ∧ (∀ w, s.nextRequest w ≠ some t) ∧ ∀ w, t ∉ pl w := by
  refine ⟨fun hq => ?_, fun w hw => ?_, fun w hw => ?_⟩
  · rw [(h.atQueue t).1 hq] at hp
    cases hp
  · rw [(h.atThread w t).1 hw] at hp
    cases hp
  · rw [(h.atPending w t).1 hw] at hp
    cases hp

omit [DecidableEq Θ] in
theorem Inv.link (h : s.Inv event q pl pos) (hp : (pos t).loose = true) (hne : t ≠ event)
    (x : Option T) : { s with queue := s.queue.link t x }.Inv event q pl pos := by
  obtain ⟨hq, -, hpl⟩ := h.not_mem hp
  exact { h with
    holds := h.holds.link hq x
    linked := fun w => (h.linked w).update (hpl w)
    eventNext := fun he => by
      refine (update_of_ne hne.symm _ _).trans (h.eventNext he) }

theorem deliver_nil (hw : s.waitStack = []) (t : T) :
    s.deliver t = { s with queue := s.queue.put t, queued := s.queued ++ [t] } := by
  unfold Requests.deliver
  split
  · rename_i h
    rw [hw] at h
    cases h
  · rfl

theorem deliver_cons {ws : List Θ} (hw : s.waitStack = w :: ws) (t : T) :
    s.deliver t = { s with
      waitStack := ws
      waitStackCount := s.waitStackCount - 1
      nextRequest := update s.nextRequest w (some t) } := by
  unfold Requests.deliver
  split
  · rename_i v vs h
    rw [hw] at h
    obtain ⟨⟩ := h
    simp only [removeThread, hw, erase_cons_head]
  · rename_i h
    rw [hw] at h
    cases h

/-- **A transaction is delivered**: to the thread on top of the stack, or to the queue. -/
theorem Inv.deliver (h : s.Inv event q pl pos) (hp : (pos t).loose = true)
    (hnext : s.waitStack = [] → s.queue.next t = none) :
    ∃ q' p, p.inside = true ∧ (s.deliver t).Inv event q' pl (update pos t p) := by
  obtain ⟨hq, hth, hpl⟩ := h.not_mem hp
  cases hw : s.waitStack with
  | nil =>
    rw [deliver_nil hw]
    refine ⟨q ++ [t], .queue, rfl, ?_⟩
    exact { h with
      holds := h.holds.put hq (hnext hw)
      fifo := by simp only [h.fifo, append_assoc]
      idle := .inr hw
      linked := fun w => (h.linked w).congr fun u hu => h.holds.put_next fun hu' => by
        have h1 := (h.atPending w u).1 hu
        rw [(h.atQueue u).1 hu'] at h1
        cases h1
      atQueue := fun u => by grind [update, h.atQueue u]
      atThread := fun w u => by grind [update, h.atThread w u]
      atPending := fun w u => by grind [update, h.atPending w u]
      eventNext := fun he => by
        have hne : event ≠ t := fun hne => he (by rw [hne, update_self])
        rw [update_of_ne hne] at he
        exact (h.holds.put_next fun hu => he ((h.atQueue event).1 hu)).trans (h.eventNext he) }
  | cons w ws =>
    have hstack := h.stack
    have hcount := h.count
    rw [hw, nodup_cons] at hstack
    rw [hw, length_cons] at hcount
    obtain ⟨hwait, hnone, hreason⟩ := h.onStack w (by rw [hw]; exact mem_cons_self)
    have hq0 : q = [] := h.idle.resolve_right (by rw [hw]; exact cons_ne_nil _ _)
    rw [deliver_cons hw]
    refine ⟨q, .thread w, rfl, ?_⟩
    exact { h with
      idle := .inl hq0
      stack := hstack.2
      count := by
        simp only [hcount]
        omega
      onStack := fun v hv => by
        have hne : v ≠ w := fun he => hstack.1 (he ▸ hv)
        simp only [update_of_ne hne]
        exact h.onStack v (by rw [hw]; exact mem_cons_of_mem _ hv)
      offStack := fun v hv hvw => by
        by_cases hne : v = w
        · subst hne
          exact .inl (by simp)
        · simp only [update_of_ne hne]
          exact h.offStack v (by rw [hw]; simp [hne, hv]) hvw
      notWaiting := fun v hv => by
        have hne : v ≠ w := by
          rintro rfl
          rw [hwait] at hv
          cases hv
        simp only [update_of_ne hne]
        exact h.notWaiting v hv
      handed := fun v hv => by
        by_cases hne : v = w
        · rw [hne, hreason]
        · simp only [update_of_ne hne] at hv
          exact h.handed v hv
      atQueue := fun u => by grind [update, h.atQueue u]
      atThread := fun v u => by grind [update, h.atThread v u]
      atPending := fun v u => by grind [update, h.atPending v u]
      eventNext := fun he => h.eventNext (by grind [update, Whereabouts.loose]) }

omit [DecidableEq Θ] in
theorem Inv.take (h : s.Inv event (t :: q) pl pos) (hp : p.loose = true) :
    ∃ queue, s.queue.take = some (t, queue) ∧
      { s with queue := queue, popped := s.popped ++ [t] }.Inv event q pl
        (update pos t p) := by
  obtain ⟨queue, htake, hholds, hnext⟩ := h.holds.take
  have hnodup := nodup_cons.1 h.holds.1.nodup
  have ht := (h.atQueue t).1 mem_cons_self
  refine ⟨queue, htake, ?_⟩
  exact { h with
    holds := hholds
    fifo := by rw [h.fifo, append_assoc, singleton_append]
    idle := .inr (h.idle.resolve_left (cons_ne_nil _ _))
    linked := fun w => by
      simp only [hnext]
      refine (h.linked w).update fun hw => ?_
      rw [(h.atPending w t).1 hw] at ht
      cases ht
    atQueue := fun u => by grind [update, Whereabouts.loose, h.atQueue u]
    atThread := fun w u => by grind [update, Whereabouts.loose, h.atThread w u]
    atPending := fun w u => by grind [update, Whereabouts.loose, h.atPending w u]
    eventNext := fun he => by
      simp only [hnext]
      by_cases hne : event = t
      · rw [hne, update_self]
      · rw [update_of_ne hne] at he ⊢
        exact h.eventNext he }

omit [DecidableEq T] in
theorem Inv.push (h : s.Inv event [] pl pos) (hw : s.waiting w = false)
    (hr : s.wakeReason w ≠ .processDeath) :
    { s with
      waitStack := w :: s.waitStack
      waitStackCount := s.waitStackCount + 1
      waiting := update s.waiting w true }.Inv event [] pl pos := by
  obtain ⟨hnone, hidle⟩ := h.notWaiting w hw
  have hreason : s.wakeReason w = .none := by
    cases hc : s.wakeReason w with
    | none => rfl
    | idle => exact absurd hc hidle
    | processDeath => exact absurd hc hr
  have hmem : w ∉ s.waitStack := fun hm => by
    rw [(h.onStack w hm).1] at hw
    cases hw
  exact { h with
    idle := .inl rfl
    stack := nodup_cons.2 ⟨hmem, h.stack⟩
    count := by
      simp only [h.count, length_cons]
      omega
    onStack := fun v hv => by
      rcases mem_cons.1 hv with rfl | hv
      · exact ⟨update_self _ _ _, hnone, hreason⟩
      · have hne : v ≠ w := fun he => hmem (he ▸ hv)
        simp only [update_of_ne hne]
        exact h.onStack v hv
    offStack := fun v hv hvw => by
      rw [mem_cons, not_or] at hv
      simp only [update_of_ne hv.1] at hvw
      exact h.offStack v hv.2 hvw
    notWaiting := fun v hv => by
      by_cases hne : v = w
      · subst hne
        simp at hv
      · simp only [update_of_ne hne] at hv
        exact h.notWaiting v hv }

omit [DecidableEq T] in
theorem Inv.awaken (h : s.Inv event q pl pos) (hw : w ∈ s.waitStack) (hr : r ≠ .none) :
    { s with
      waitStack := s.waitStack.erase w
      waitStackCount := s.waitStackCount - 1
      wakeReason := update s.wakeReason w r }.Inv event q pl pos := by
  have hlen := length_erase_of_mem hw
  have hpos := length_pos_of_mem hw
  have hne : ∀ v ∈ s.waitStack.erase w, v ≠ w := by
    rintro v hv rfl
    exact h.stack.not_mem_erase hv
  exact { h with
    idle := .inl (h.idle.resolve_right (ne_nil_of_mem hw))
    stack := h.stack.erase w
    count := by
      simp only [h.count, hlen]
      omega
    onStack := fun v hv => by
      simp only [update_of_ne (hne v hv)]
      exact h.onStack v (mem_of_mem_erase hv)
    offStack := fun v hv hvw => by
      by_cases he : v = w
      · subst he
        exact .inr (by simpa using hr)
      · simp only [update_of_ne he]
        exact h.offStack v (fun hm => hv ((mem_erase_of_ne he).2 hm)) hvw
    notWaiting := fun v hv => by
      have he : v ≠ w := by
        rintro rfl
        have := (h.onStack v hw).1
        simp only [this] at hv
        cases hv
      simp only [update_of_ne he]
      exact h.notWaiting v hv
    handed := fun v hv => by
      have he : v ≠ w := fun he => hv (he ▸ (h.onStack w hw).2.1)
      simp only [update_of_ne he]
      exact h.handed v hv }

/-- **A thread gets to run** with the request it was handed. -/
theorem Inv.request (h : s.Inv event q pl pos) (ht : s.nextRequest w = some t)
 (hp : p.loose = true) :
    { s with
      waiting := update s.waiting w false
      nextRequest := update s.nextRequest w none }.Inv event q pl
        (update pos t p) := by
  have hw : w ∉ s.waitStack := fun hm => by
    rw [(h.onStack w hm).2.1] at ht
    cases ht
  have hpos := (h.atThread w t).1 ht
  exact { h with
    onStack := fun v hv => by
      have hne : v ≠ w := fun he => hw (he ▸ hv)
      simp only [update_of_ne hne]
      exact h.onStack v hv
    offStack := fun v hv hvw => by
      have hne : v ≠ w := by
        rintro rfl
        simp at hvw
      simp only [update_of_ne hne] at hvw ⊢
      exact h.offStack v hv hvw
    notWaiting := fun v hv => by
      by_cases hne : v = w
      · subst hne
        refine ⟨by simp, ?_⟩
        rw [h.handed v (by rw [ht]; exact Option.some_ne_none t)]
        exact WakeReason.noConfusion
      · simp only [update_of_ne hne] at hv ⊢
        exact h.notWaiting v hv
    handed := fun v hv => by
      have hne : v ≠ w := by
        rintro rfl
        exact hv (update_self _ _ _)
      simp only [update_of_ne hne] at hv
      exact h.handed v hv
    atQueue := fun u => by grind [update, Whereabouts.loose, h.atQueue u]
    atThread := fun v u => by grind [update, Whereabouts.loose, h.atThread v u]
    atPending := fun v u => by grind [update, Whereabouts.loose, h.atPending v u]
    eventNext := fun he => h.eventNext fun hq => he (by
      have hne : event ≠ t := by
        rintro rfl
        rw [hpos] at hq
        cases hq
      rwa [update_of_ne hne]) }

omit [DecidableEq T] in
/-- **A thread gets to run** without a request, off the stack. -/
theorem Inv.run (h : s.Inv event q pl pos) (hw : w ∉ s.waitStack) (ht : s.nextRequest w = none)
    (hr : r ≠ .idle) :
    { s with
      waiting := update s.waiting w false
      wakeReason := update s.wakeReason w r }.Inv event q pl pos :=
  { h with
    onStack := fun v hv => by
      have hne : v ≠ w := fun he => hw (he ▸ hv)
      simp only [update_of_ne hne]
      exact h.onStack v hv
    offStack := fun v hv hvw => by
      have hne : v ≠ w := by
        rintro rfl
        simp at hvw
      simp only [update_of_ne hne] at hvw ⊢
      exact h.offStack v hv hvw
    notWaiting := fun v hv => by
      by_cases hne : v = w
      · subst hne
        exact ⟨ht, by simpa using hr⟩
      · simp only [update_of_ne hne] at hv ⊢
        exact h.notWaiting v hv
    handed := fun v hv => by
      have hne : v ≠ w := fun he => hv (he ▸ ht)
      simp only [update_of_ne hne]
      exact h.handed v hv }

omit [DecidableEq T] in
theorem Inv.interrupted (h : s.Inv event q pl pos) (hw : w ∈ s.waitStack) :
    { s with
      waiting := update s.waiting w false
      waitStack := s.waitStack.erase w
      waitStackCount := s.waitStackCount - 1 }.Inv event q pl pos := by
  obtain ⟨-, hnone, hreason⟩ := h.onStack w hw
  have h' := (h.awaken hw (r := .processDeath) WakeReason.noConfusion).run h.stack.not_mem_erase hnone
    (r := .none) WakeReason.noConfusion
  simp only [update_idem] at h'
  have hsame : update s.wakeReason w .none = s.wakeReason :=
    update_eq_self_iff.2 hreason.symm
  rwa [hsame] at h'

omit [DecidableEq T] in
theorem Inv.reason (h : s.Inv event q pl pos) (hw : s.waiting w = false) (hr : r ≠ .idle) :
    { s with wakeReason := update s.wakeReason w r }.Inv event q pl pos := by
  have hmem : w ∉ s.waitStack := fun hm => by
    rw [(h.onStack w hm).1] at hw
    cases hw
  have h' := h.run hmem (h.notWaiting w hw).1 hr
  have hsame : update s.waiting w false = s.waiting :=
    update_eq_self_iff.2 hw.symm
  rwa [hsame] at h'

/-! ### Threads that send -/

theorem Inv.write (h : s.Inv event q pl pos) {t : T} (hp : (pos t).loose = true) (hne : t ≠ event)
    (w : Θ) :
    { s with
      queue := s.queue.link t (s.pending w)
      pending := update s.pending w (some t) }.Inv event q
        (update pl w (t :: pl w)) (update pos t (.pending w)) := by
  obtain ⟨hq, hth, hpl⟩ := h.not_mem hp
  have h' := h.link hp hne (s.pending w)
  exact { h' with
    linked := fun v => by
      by_cases hv : v = w
      · subst hv
        simp only [update_self, linked_cons, true_and, TailQueue.link]
        exact (h.linked v).update (hpl v)
      · simp only [update_of_ne hv]
        exact h'.linked v
    atQueue := fun u => by grind [update, h.atQueue u]
    atThread := fun v u => by grind [update, h.atThread v u]
    atPending := fun v u => by grind [update, h.atPending v u]
    eventNext := fun he => h'.eventNext (by rwa [update_of_ne hne.symm] at he) }

omit [DecidableEq Θ] [DecidableEq T] in
theorem Inv.pending_eq (h : s.Inv event q pl pos) (ht : s.pending w = some t) :
    ∃ l, pl w = t :: l := by
  have hl := h.linked w
  rw [ht] at hl
  cases hc : pl w with
  | nil =>
    rw [hc] at hl
    cases hl
  | cons u l =>
    rw [hc] at hl
    obtain ⟨⟩ := hl.1
    exact ⟨l, rfl⟩

omit [DecidableEq Θ] [DecidableEq T] in
theorem Inv.pending_pos (h : s.Inv event q pl pos) (ht : s.pending w = some t) :
    pos t = .pending w := by
  obtain ⟨l, hl⟩ := h.pending_eq ht
  exact (h.atPending w t).1 (by rw [hl]; exact mem_cons_self)

theorem Inv.pop (h : s.Inv event q pl pos) (ht : s.pending w = some t) (hne : t ≠ event)
    (hp : p.loose = true) :
    ∃ l, pl w = t :: l ∧
      { s with pending := update s.pending w (s.queue.next t) }.Inv event q
        (update pl w l) (update pos t p) := by
  obtain ⟨l, hlist⟩ := h.pending_eq ht
  have hl := h.linked w
  rw [ht, hlist] at hl
  have hnodup := hl.nodup
  have hpos := (h.atPending w t).1 (by rw [hlist]; exact mem_cons_self)
  refine ⟨l, hlist, ?_⟩
  exact { h with
    linked := fun v => by
      by_cases hv : v = w
      · subst hv
        simp only [update_self]
        exact hl.2
      · simp only [update_of_ne hv]
        exact h.linked v
    atQueue := fun u => by grind [update, Whereabouts.loose, h.atQueue u]
    atThread := fun v u => by grind [update, Whereabouts.loose, h.atThread v u]
    atPending := fun v u => by
      grind [update, Whereabouts.loose, h.atPending v u, h.atPending w u]
    eventNext := fun he => h.eventNext (by rwa [update_of_ne hne.symm] at he) }

/-! ### The books -/

section
omit [DecidableEq Θ] [DecidableEq T]

theorem Books.event_pos (h : s.Books event pos) : (pos event).inside = true ∨ pos event = .event := by
  have := h.inQueue
  split at this
  · exact .inl this
  · exact .inr this

/-- What is new or pending is not the event, and was not accepted, returned or diverted. -/
theorem Books.ne_event (h : s.Books event pos) {t : T}
    (ht : pos t = .fresh ∨ ∃ w, pos t = .pending w) : t ≠ event := by
  rintro rfl
  have := h.event_pos
  rcases ht with ht | ⟨w, ht⟩ <;> rw [ht] at this <;> simp [Whereabouts.inside] at this

end

omit [DecidableEq Θ] in
theorem Books.write (h : s.Books event pos) {t : T} (ht : t ∉ s.created) (w : Θ) {s' : Requests Θ T}
    (hs : s' = { s with
      created := t :: s.created
      queue := s'.queue
      pending := s'.pending }) :
    s'.Books event (update pos t (.pending w)) := by
  have hfresh := (h.atFresh t).1 ht
  have hne := h.ne_event (.inl hfresh)
  rw [hs]
  exact { h with
    atReturned := fun v u => by grind [update, h.atReturned v u]
    atElsewhere := fun u => by grind [update, h.atElsewhere u]
    atFresh := fun u => by grind [update, h.atFresh u]
    atEvent := fun u hu => by grind [update, h.atEvent u]
    inQueue := by simpa only [update_of_ne hne.symm] using h.inQueue
    accepted := fun u => by grind [update, Whereabouts.inside, h.accepted u] }

omit [DecidableEq Θ] in
theorem Books.accept (h : s.Books event pos) (ht : pos t = .fresh ∨ ∃ w, pos t = .pending w)
    (hp : p.inside = true)
 (hacc : s'.accepted = s.accepted ++ [t])
    (hsync : s'.syncCount = s.syncCount + 1) (hret : s'.returned = s.returned)
    (helse : s'.elsewhere = s.elsewhere) (hq : s'.eventInQueue = s.eventInQueue)
    (hc : ∀ u, u ∈ s'.created ↔ u = t ∨ u ∈ s.created) :
    s'.Books event (update pos t p) := by
  have hne := h.ne_event ht
  have hacc' : t ∉ s.accepted := fun hm => by
    rcases ((h.accepted t).1 hm).2 with hi | ⟨v, hv⟩ <;> rcases ht with ht | ⟨w, ht⟩ <;>
      simp_all [Whereabouts.inside]
  constructor
  · intro w u
    rw [hret]
    grind [update, Whereabouts.inside, h.atReturned w u]
  · intro u
    rw [helse]
    grind [update, Whereabouts.inside, h.atElsewhere u]
  · intro u
    rw [hc]
    grind [update, Whereabouts.inside, h.atFresh u]
  · intro u hu
    grind [update, Whereabouts.inside, h.atEvent u]
  · rw [hq, update_of_ne hne.symm]
    exact h.inQueue
  · intro u
    rw [hacc]
    grind [update, Whereabouts.inside, h.accepted u]
  · rw [hacc]
    exact List.Nodup.append h.acceptedNodup (nodup_singleton t) (by simpa using hacc')
  · rw [hret]
    exact h.returnedNodup
  · rw [hsync, hacc, hret, h.syncCount, length_append, length_singleton]
    omega

omit [DecidableEq Θ] in
theorem Books.divert (h : s.Books event pos) (ht : pos t = .pending w) (f : Θ → Option T) :
    { s with pending := f, elsewhere := t :: s.elsewhere }.Books event
      (update pos t .elsewhere) := by
  have hne := h.ne_event (.inr ⟨w, ht⟩)
  exact { h with
    atReturned := fun v u => by grind [update, h.atReturned v u]
    atElsewhere := fun u => by grind [update, h.atElsewhere u]
    atFresh := fun u => by grind [update, h.atFresh u]
    atEvent := fun u hu => by grind [update, h.atEvent u]
    inQueue := by simpa only [update_of_ne hne.symm] using h.inQueue
    accepted := fun u => by grind [update, Whereabouts.inside, h.accepted u] }

/-- Where a transaction is once `WaitForRequest` returned with it. -/
def finished (event : T) (w : Θ) (t : T) : Whereabouts Θ :=
  if t = event then .event else .returned w

omit [DecidableEq Θ] in
theorem finished_loose (event : T) (w : Θ) (t : T) : (finished event w t).loose = true := by
  unfold finished
  split <;> rfl

omit [DecidableEq Θ] in
theorem Books.finish (h : s.Books event pos) (ht : (pos t).inside = true) (w : Θ) :
    (s.finish event w t).Books event (update pos t (finished event w t)) := by
  unfold Requests.finish finished
  split
  · rename_i he
    subst he
    exact { h with
      atReturned := fun v u => by grind [update, Whereabouts.inside, h.atReturned v u]
      atElsewhere := fun u => by grind [update, Whereabouts.inside, h.atElsewhere u]
      atFresh := fun u => by grind [update, Whereabouts.inside, h.atFresh u]
      atEvent := fun u hu => by grind [update, h.atEvent u]
      inQueue := by simp
      accepted := fun u => by grind [update, Whereabouts.inside, h.accepted u] }
  · rename_i he
    have hret : t ∉ s.returned.map Prod.snd := fun hm => by
      obtain ⟨⟨v, u⟩, hv, rfl⟩ := mem_map.1 hm
      rw [(h.atReturned v u).1 hv] at ht
      cases ht
    exact { h with
      atReturned := fun v u => by grind [update, Whereabouts.inside, h.atReturned v u]
      atElsewhere := fun u => by grind [update, Whereabouts.inside, h.atElsewhere u]
      atFresh := fun u => by grind [update, Whereabouts.inside, h.atFresh u]
      atEvent := fun u hu => by grind [update, h.atEvent u]
      inQueue := by simpa only [update_of_ne (Ne.symm he)] using h.inQueue
      accepted := fun u => by grind [update, Whereabouts.inside, h.accepted u]
      returnedNodup := by
        simp only [map_append, map_cons, map_nil]
        exact List.Nodup.append h.returnedNodup (nodup_singleton t) (by simpa using hret)
      syncCount := by
        simp only [h.syncCount, length_append, length_singleton]
        omega }

omit [DecidableEq Θ] in
theorem Books.ring (h : s.Books event pos) (he : s.eventInQueue = false) (hp : p.inside = true)
    (hacc : s'.accepted = s.accepted) (hsync : s'.syncCount = s.syncCount)
    (hret : s'.returned = s.returned) (helse : s'.elsewhere = s.elsewhere)
    (hq : s'.eventInQueue = true) (hc : s'.created = s.created) :
    s'.Books event (update pos event p) := by
  have hpos : pos event = .event := by
    have := h.inQueue
    rwa [he, if_neg Bool.false_ne_true] at this
  constructor
  · intro w u
    rw [hret]
    grind [update, Whereabouts.inside, h.atReturned w u]
  · intro u
    rw [helse]
    grind [update, Whereabouts.inside, h.atElsewhere u]
  · intro u
    rw [hc]
    grind [update, Whereabouts.inside, h.atFresh u]
  · intro u hu
    grind [update, Whereabouts.inside, h.atEvent u]
  · rw [hq, if_pos rfl, update_self]
    exact hp
  · intro u
    rw [hacc]
    grind [update, Whereabouts.inside, h.accepted u]
  · rw [hacc]
    exact h.acceptedNodup
  · rw [hret]
    exact h.returnedNodup
  · rw [hsync, hacc, hret]
    exact h.syncCount

/-! ### Steps -/

/-- The whole invariant. -/
def Kept (event : T) (s : Requests Θ T) : Prop :=
  ∃ q pl pos, s.Inv event q pl pos ∧ s.Books event pos

omit [DecidableEq Θ] in
theorem Inv.finish (h : s.Inv event q pl pos) (w : Θ) (t : T) :
    (s.finish event w t).Inv event q pl pos := by
  unfold Requests.finish
  split
  · exact { h with }
  · exact { h with }

omit [DecidableEq Θ] in
theorem init_kept (event : T) : (init event : Requests Θ T).Kept event :=
  ⟨_, _, _, init_inv event, init_books event⟩

/-- **`Transact`**, with a transaction that has no successor unless a thread waits for it. -/
theorem Inv.transact (h : s.Inv event q pl pos) (hp : (pos t).loose = true)
    (hnext : s.waitStack = [] → s.queue.next t = none) :
    ∃ q' p, p.inside = true ∧ (s.transact t).Inv event q' pl (update pos t p) := by
  obtain ⟨q', p, hp', h'⟩ := h.deliver hp hnext
  exact ⟨q', p, hp', { h' with }⟩

theorem deliver_books (t : T) (s : Requests Θ T) :
    (s.deliver t).accepted = s.accepted ∧ (s.deliver t).syncCount = s.syncCount ∧
      (s.deliver t).returned = s.returned ∧ (s.deliver t).elsewhere = s.elsewhere ∧
      (s.deliver t).eventInQueue = s.eventInQueue ∧ (s.deliver t).created = s.created := by
  unfold Requests.deliver
  split <;> exact ⟨rfl, rfl, rfl, rfl, rfl, rfl⟩

theorem Kept.send (h : s.Kept event) (ht : s.pending w = some t)
    (hnext : s.waitStack = [] → s.queue.next t = none) :
    ({ s with pending := update s.pending w (s.queue.next t) }.transact t).Kept event := by
  obtain ⟨q, pl, pos, hi, hb⟩ := h
  have hpos := hi.pending_pos ht
  have hne := hb.ne_event (.inr ⟨w, hpos⟩)
  obtain ⟨l, -, hi'⟩ := hi.pop ht hne (p := .elsewhere) rfl
  obtain ⟨q', p, hp, hi''⟩ := hi'.transact (t := t) (by rw [update_self]; rfl) hnext
  rw [update_idem] at hi''
  obtain ⟨h1, h2, h3, h4, h5, h6⟩ := deliver_books t
    { s with pending := update s.pending w (s.queue.next t) }
  refine ⟨q', _, _, hi'', hb.accept (.inr ⟨w, hpos⟩) hp ?_ ?_ h3 h4 h5 fun u => ?_⟩
  · simp only [Requests.transact, h1]
  · simp only [Requests.transact, h2]
  · simp only [Requests.transact, h6]
    refine ⟨.inr, ?_⟩
    rintro (rfl | hu)
    · by_contra hn
      rw [(hb.atFresh u).1 hn] at hpos
      cases hpos
    · exact hu

theorem Kept.divert (h : s.Kept event) (ht : s.pending w = some t) :
    { s with
      pending := update s.pending w (s.queue.next t)
      elsewhere := t :: s.elsewhere }.Kept event := by
  obtain ⟨q, pl, pos, hi, hb⟩ := h
  have hpos := hi.pending_pos ht
  obtain ⟨l, -, hi'⟩ := hi.pop ht (hb.ne_event (.inr ⟨w, hpos⟩)) (p := .elsewhere) rfl
  exact ⟨q, _, _, { hi' with }, hb.divert hpos _⟩

theorem Kept.write (h : s.Kept event) {t : T} (ht : t ∉ s.created) (w : Θ) :
    { s with
      created := t :: s.created
      queue := s.queue.link t (s.pending w)
      pending := update s.pending w (some t) }.Kept event := by
  obtain ⟨q, pl, pos, hi, hb⟩ := h
  have hpos := (hb.atFresh t).1 ht
  have hi' := hi.write (t := t) (by rw [hpos]; rfl) (hb.ne_event (.inl hpos)) w
  exact ⟨q, _, _, { hi' with }, hb.write ht w rfl⟩

theorem Kept.transactRef (h : s.Kept event) (ht : t ∉ s.created) :
    ({ s with created := t :: s.created, queue := s.queue.link t none }.transact t).Kept event := by
  obtain ⟨q, pl, pos, hi, hb⟩ := h
  have hpos := (hb.atFresh t).1 ht
  have hi' := hi.link (t := t) (by rw [hpos]; rfl) (hb.ne_event (.inl hpos)) none
  have hi'' : { s with created := t :: s.created, queue := s.queue.link t none }.Inv event q pl pos :=
    { hi' with }
  obtain ⟨q', p, hp, hi₃⟩ := hi''.transact (t := t) (by rw [hpos]; rfl)
    fun _ => update_self _ _ _
  obtain ⟨h1, h2, h3, h4, h5, h6⟩ := deliver_books t
    { s with created := t :: s.created, queue := s.queue.link t none }
  refine ⟨q', _, _, hi₃, hb.accept (.inl hpos) hp ?_ ?_ h3 h4 h5 fun u => ?_⟩
  · simp only [Requests.transact, h1]
  · simp only [Requests.transact, h2]
  · simp only [Requests.transact, h6, mem_cons]

omit [DecidableEq Θ] in
theorem Kept.relink (h : s.Kept event) (ht : t ∈ s.elsewhere ∨ t ∈ s.returned.map Prod.snd)
    (x : Option T) : { s with queue := s.queue.link t x }.Kept event := by
  obtain ⟨q, pl, pos, hi, hb⟩ := h
  have hpos : (pos t).loose = true ∧ t ≠ event := by
    have hevent := hb.event_pos
    rcases ht with ht | ht
    · rw [(hb.atElsewhere t).1 ht]
      refine ⟨rfl, ?_⟩
      rintro rfl
      rw [(hb.atElsewhere t).1 ht] at hevent
      simp [Whereabouts.inside] at hevent
    · obtain ⟨⟨w, u⟩, hu, rfl⟩ := mem_map.1 ht
      have hw := (hb.atReturned w u).1 hu
      refine ⟨by rw [hw]; rfl, ?_⟩
      rintro rfl
      rw [hw] at hevent
      simp [Whereabouts.inside] at hevent
  exact ⟨q, pl, pos, hi.link hpos.1 hpos.2 x, { hb with }⟩

omit [DecidableEq T] in
theorem Kept.reason (h : s.Kept event) (hw : s.waiting w = false) (hr : r ≠ .idle) :
    { s with wakeReason := update s.wakeReason w r }.Kept event := by
  obtain ⟨q, pl, pos, hi, hb⟩ := h
  exact ⟨q, pl, pos, hi.reason hw hr, { hb with }⟩

theorem Kept.wait (h : s.Kept event) (hw : s.waiting w = false) (noDeaths : Bool) :
    (s.wait event w noDeaths).Kept event := by
  unfold Requests.wait
  -- the mask only sets the reason of this thread
  have hmask : (if s.wakeThreadMask then
      { s with wakeThreadMask := false, wakeReason := update s.wakeReason w .processDeath }
      else s).Kept event ∧ (if s.wakeThreadMask then
      { s with wakeThreadMask := false, wakeReason := update s.wakeReason w .processDeath }
      else s).waiting w = false := by
    split
    · obtain ⟨q, pl, pos, hi, hb⟩ := h.reason hw (r := .processDeath) WakeReason.noConfusion
      exact ⟨⟨q, pl, pos, { hi with }, { hb with }⟩, hw⟩
    · exact ⟨h, hw⟩
  generalize (if s.wakeThreadMask then
      { s with wakeThreadMask := false, wakeReason := update s.wakeReason w .processDeath }
      else s) = s at hmask
  obtain ⟨h, hw⟩ := hmask
  dsimp only
  split
  · split
    · exact h.reason hw WakeReason.noConfusion
    · exact h
  · rename_i hr
    obtain ⟨q, pl, pos, hi, hb⟩ := h
    cases q with
    | nil =>
      rw [hi.holds.take_nil]
      exact ⟨[], pl, pos, hi.push hw hr, { hb with }⟩
    | cons t q =>
      obtain ⟨queue, htake, hi'⟩ := hi.take (finished_loose event w t)
      rw [htake]
      have hpos := (hi.atQueue t).1 mem_cons_self
      have hb' : { s with queue := queue, popped := s.popped ++ [t] }.Books event pos := { hb with }
      exact ⟨q, pl, _, hi'.finish w t, hb'.finish (by rw [hpos]; rfl) w⟩

theorem Kept.wake (h : s.Kept event) (hw : s.waiting w = true) :
    (s.wake event w).Kept event := by
  obtain ⟨q, pl, pos, hi, hb⟩ := h
  unfold Requests.wake
  dsimp only
  split
  · rename_i t ht
    have hi' := hi.request ht (finished_loose event w t)
    have hpos := (hi.atThread w t).1 ht
    have hb' : { s with
        waiting := update s.waiting w false
        nextRequest := update s.nextRequest w none }.Books event pos := { hb with }
    exact ⟨q, pl, _, hi'.finish w t, hb'.finish (by rw [hpos]; rfl) w⟩
  · rename_i ht
    have hoff : s.wakeReason w ≠ .none → w ∉ s.waitStack := fun hr hm => hr (hi.onStack w hm).2.2
    split
    · rename_i hr
      exact ⟨q, pl, pos, hi.run (hoff (by rw [hr]; exact WakeReason.noConfusion)) ht
        WakeReason.noConfusion, { hb with }⟩
    · rename_i hr
      have hi' := hi.run (hoff (by rw [hr]; exact WakeReason.noConfusion)) ht
        (r := .processDeath) WakeReason.noConfusion
      have hsame : update s.wakeReason w .processDeath = s.wakeReason :=
        update_eq_self_iff.2 hr.symm
      rw [hsame] at hi'
      exact ⟨q, pl, pos, hi', { hb with }⟩
    · rename_i hr
      have hmem : w ∈ s.waitStack := by
        by_contra hm
        rcases hi.offStack w hm hw with h1 | h1
        · exact h1 ht
        · exact h1 hr
      exact ⟨q, pl, pos, hi.interrupted hmem, { hb with }⟩

theorem Kept.wakeupTimer (h : s.Kept event) : (s.wakeupTimer event).Kept event := by
  unfold Requests.wakeupTimer
  split
  · exact h
  · rename_i he
    rw [Bool.not_eq_true] at he
    obtain ⟨q, pl, pos, hi, hb⟩ := h
    have hpos : pos event = .event := by
      have := hb.inQueue
      rwa [he, if_neg Bool.false_ne_true] at this
    have hi' : { s with eventInQueue := true }.Inv event q pl pos := { hi with }
    obtain ⟨q', p, hp, hi''⟩ := hi'.deliver (t := event) (by rw [hpos]; rfl)
      fun _ => hi.eventNext (by rw [hpos]; simp)
    obtain ⟨h1, h2, h3, h4, h5, h6⟩ := deliver_books event { s with eventInQueue := true }
    exact ⟨q', pl, _, hi'', hb.ring he hp h1 h2 h3 h4 h5 h6⟩

omit [DecidableEq T] in
theorem Kept.idleTimer (h : s.Kept event) (hs : s.idleTimer = some s') : s'.Kept event := by
  unfold Requests.idleTimer at hs
  split at hs
  · obtain ⟨w, hw, rfl⟩ := Option.map_eq_some_iff.1 hs
    obtain ⟨q, pl, pos, hi, hb⟩ := h
    exact ⟨q, pl, pos, hi.awaken (mem_of_getLast? hw) WakeReason.noConfusion, { hb with }⟩
  · obtain ⟨⟩ := hs
    exact h

omit [DecidableEq T] in
theorem Kept.activateDeath (h : s.Kept event) : s.activateDeath.Kept event := by
  obtain ⟨q, pl, pos, hi, hb⟩ := h
  unfold Requests.activateDeath
  split
  · rename_i w ws hw
    exact ⟨q, pl, pos, hi.awaken (by rw [hw]; exact mem_cons_self) WakeReason.noConfusion,
      { hb with }⟩
  · exact ⟨q, pl, pos, { hi with }, { hb with }⟩

/-- **Every step that fits keeps the invariant.** -/
theorem Kept.step (h : s.Kept event) {a : Action Θ T} (hs : s.step event a = some s')
    (hfit : s.Fits a) : s'.Kept event := by
  cases a with
  | write w t =>
    simp only [Requests.step] at hs
    split at hs
    · cases hs
    · rename_i ht
      obtain ⟨⟩ := hs
      exact h.write ht w
  | send w =>
    obtain ⟨t, ht, rfl⟩ := Option.map_eq_some_iff.1 hs
    exact h.send ht fun hw => hfit hw t ht
  | divert w =>
    obtain ⟨t, ht, rfl⟩ := Option.map_eq_some_iff.1 hs
    exact h.divert ht
  | transactRef t =>
    simp only [Requests.step] at hs
    split at hs
    · cases hs
    · rename_i ht
      obtain ⟨⟩ := hs
      exact h.transactRef ht
  | relink t x =>
    simp only [Requests.step] at hs
    split at hs
    · rename_i ht
      obtain ⟨⟩ := hs
      exact h.relink ht x
    · cases hs
  | wait w noDeaths =>
    simp only [Requests.step] at hs
    split at hs
    · cases hs
    · rename_i hw
      obtain ⟨⟩ := hs
      exact h.wait (Bool.not_eq_true _ ▸ hw) noDeaths
  | wake w =>
    simp only [Requests.step] at hs
    split at hs
    · rename_i hw
      obtain ⟨⟩ := hs
      exact h.wake hw
    · cases hs
  | wakeupTimer =>
    obtain ⟨⟩ := hs
    exact h.wakeupTimer
  | idleTimer => exact h.idleTimer hs
  | activateDeath =>
    obtain ⟨⟩ := hs
    exact h.activateDeath
  | doneDeaths w =>
    simp only [Requests.step] at hs
    split at hs
    · cases hs
    · rename_i hw
      obtain ⟨⟩ := hs
      exact h.reason (Bool.not_eq_true _ ▸ hw) WakeReason.noConfusion

/-! ### Runs -/

omit [DecidableEq Θ] in
/-- What was accepted and not yet returned is as much as was accepted less what was returned. -/
theorem Books.unreturned (h : s.Books event pos) :
    s.syncCount = (s.accepted.filter fun t => t ∉ s.returned.map Prod.snd).length := by
  have hsplit := length_eq_length_filter_add (l := s.accepted)
    (fun t => decide (t ∉ s.returned.map Prod.snd))
  have hperm : (s.accepted.filter fun t => !decide (t ∉ s.returned.map Prod.snd)).Perm
      (s.returned.map Prod.snd) := by
    rw [perm_ext_iff_of_nodup (h.acceptedNodup.filter _) h.returnedNodup]
    intro t
    simp only [mem_filter, decide_not, Bool.not_not, decide_eq_true_eq, and_iff_right_iff_imp]
    intro ht
    obtain ⟨⟨w, u⟩, hu, rfl⟩ := mem_map.1 ht
    have hw := (h.atReturned w u).1 hu
    refine (h.accepted u).2 ⟨?_, .inr ⟨w, hw⟩⟩
    rintro rfl
    have := h.event_pos
    rw [hw] at this
    simp [Whereabouts.inside] at this
  have hlen := hperm.length_eq
  rw [length_map] at hlen
  rw [h.syncCount]
  omega

omit [DecidableEq Θ] in
/-- **The invariant makes a state sound.** -/
theorem Kept.sound (h : s.Kept event) : s.Sound := by
  obtain ⟨q, pl, pos, hi, hb⟩ := h
  refine ⟨⟨q, hi.holds, hi.fifo, fun t ht => ?_⟩, hb.returnedNodup, hb.unreturned, hi.count, hi.stack⟩
  -- every place says where the transaction is
  have hplace : ∀ p, s.At q t p → pos t = p.whereabouts := by
    intro p hp
    cases p with
    | queue => exact (hi.atQueue t).1 hp
    | thread w => exact (hi.atThread w t).1 hp.2
    | returned w => exact (hb.atReturned w t).1 hp
  obtain ⟨p, hp⟩ : ∃ p, s.At q t p := by
    obtain ⟨-, hin | ⟨w, hw⟩⟩ := (hb.accepted t).1 ht
    · cases hc : pos t with
      | queue => exact ⟨.queue, (hi.atQueue t).2 hc⟩
      | thread w =>
        have hn := (hi.atThread w t).2 hc
        refine ⟨.thread w, ?_, hn⟩
        by_contra hw
        rw [(hi.notWaiting w (Bool.not_eq_true _ ▸ hw)).1] at hn
        cases hn
      | _ =>
        rw [hc] at hin
        cases hin
    · exact ⟨.returned w, (hb.atReturned w t).2 hw⟩
  refine ⟨p, hp, fun p' hp' => ?_⟩
  have h1 := hplace p hp
  rw [hplace p' hp'] at h1
  cases p <;> cases p' <;> simp_all [Place.whereabouts]

/-- **A step that does not fit** leaves a queue whose tail pointer is not at its end. -/
theorem Kept.fits (h : s.Kept event) {a : Action Θ T} (hs : s.step event a = some s')
    (hsound : s'.Sound) : s.Fits a := by
  cases a with
  | send w =>
    obtain ⟨t, ht, rfl⟩ := Option.map_eq_some_iff.1 hs
    intro hw u hu
    obtain rfl : t = u := Option.some.inj (ht.symm.trans hu)
    obtain ⟨q, pl, pos, hi, -⟩ := h
    obtain ⟨⟨q', hq', -⟩, -⟩ := hsound
    have hnot : t ∉ q := fun hm => by
      have h1 := (hi.atQueue t).1 hm
      rw [hi.pending_pos ht] at h1
      cases h1
    unfold Requests.transact at hq'
    rw [deliver_nil (by exact hw)] at hq'
    exact TailQueue.next_eq_none_of_put hi.holds hnot hq'
  | _ => trivial

/-- **Every state of a run is sound** exactly when every thread that sends to a process where no
thread waits has nothing else pending. -/
theorem requests_sound_iff (event : T) (as : List (Action Θ T)) :
    AllStates (step event) Sound (init event) as ↔ AllSteps (step event) Fits (init event) as :=
  allStates_iff_allSteps (I := Kept event) (fun _ h => h.sound) (fun _ _ _ h => h.step)
    (fun _ _ _ h => h.fits) as _ (init_kept event)

/-- Thread 1 writes two transactions before it reads; then requests are waited for. -/
def twoPending : List (Action ℕ ℕ) :=
  [.write 1 10, .write 1 11, .send 1, .wait 2 true, .wait 3 true, .send 1, .wait 4 true]

/-- The first of them is returned to threads 3 and 4, the first time before it is sent. -/
theorem requests_duplicated :
    (run (step 0) (init 0) twoPending).map Requests.returned = some [(2, 11), (3, 10), (4, 10)] ∧
      ¬ AllStates (step 0) Sound (init 0) twoPending := by
  have hret : (run (step 0) (init 0) twoPending).map Requests.returned =
      some [(2, 11), (3, 10), (4, 10)] := by decide
  refine ⟨hret, fun h => ?_⟩
  obtain ⟨s, hs, hlast⟩ := Option.map_eq_some_iff.1 hret
  have hnodup := (h.last hs).returned
  rw [hlast] at hnodup
  exact absurd hnodup (by decide)

end OpenBinder.Requests
