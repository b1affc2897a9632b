import OpenBinder.Handler.Process

/-!
# What a region does to a handler

The regions that change the queue of a handler all do one of three things: they leave its first
message, they ask for it to be scheduled as `needs` does, or they empty it and ask for it to be
unscheduled.

* `SHandler.Touch`: the three.
* `SHandler.FlagsOk`: what the bits of `m_state` say, of the outstanding calls and of the list.
-/

namespace OpenBinder.SHandler

open SMessageList

variable {D : Type*}

/-- What a region does. Where `fixed` is so, it asks for nothing only if the time of the first
message is what it was. -/
inductive Touch (fixed : Prop) (handler : SHandler D) : SHandler D × Option Kind → Prop
  | quiet (queue : List (SMessage D)) (hne : queue ≠ [] → handler.queue ≠ [])
      (htime : fixed → SMessageList.oldestMessage queue = handler.nextMessageTime) :
      Touch fixed handler ({ handler with queue := queue }, none)
  | needs (queue : List (SMessage D)) : Touch fixed handler { handler with queue := queue }.needs
  | emptied : Touch fixed handler handler.removeAllMessages

theorem posted_head (message : SMessage D) (time : ℤ) (removeDups : Bool) (new : Option ℕ) (now : ℤ)
    (queue : List (SMessage D)) (hhead : ¬(posted message time removeDups new now queue).IsHead) :
    ((posted message time removeDups new now queue).queue ≠ [] → queue ≠ []) ∧
      (removeDups = false →
        SMessageList.oldestMessage (posted message time removeDups new now queue).queue
          = SMessageList.oldestMessage queue) := by
  cases removeDups with
  | true =>
    refine ⟨fun hne hq => ?_, nofun⟩
    rw [hq] at hhead hne
    exact hne (enqueueMessageRemoveDups_nil message time now new hhead)
  | false =>
    have h := enqueueUniqueMessage_head message time now new hhead
    exact ⟨h.1, fun _ => h.2⟩

theorem touch_enqueueUniqueMessage (message : SMessage D) (time : ℤ) (removeDups : Bool)
    (new : Option ℕ) (now : ℤ) (handler : SHandler D) :
    Touch (removeDups = false) handler
      (handler.enqueueUniqueMessage message time removeDups new now) := by
  unfold enqueueUniqueMessage
  dsimp only
  split
  · exact .needs _
  · rename_i hhead
    have h := posted_head message time removeDups new now handler.queue hhead
    exact .quiet _ h.1 h.2

theorem touch_enqueueMessage (message : SMessage D) (time : ℤ) (flags : ℕ) (new : Option ℕ)
    (now : ℤ) (handler : SHandler D) :
    Touch (flags &&& 1 = 0) handler (handler.enqueueMessage message time flags new now) := by
  unfold enqueueMessage
  split
  · cases new with
    | none => exact .quiet handler.queue id fun _ => rfl
    | some addr =>
      dsimp only
      split
      · exact .needs _
      · rename_i hhead
        have h := enqueueMessage_head { message with addr := addr, when := time } now
          hhead
        exact .quiet _ (fun _ => h.1) fun _ => h.2
  · have h := touch_enqueueUniqueMessage message time (flags &&& 1 ≠ 0) new now handler
    by_cases hf : flags &&& 1 = 0
    · simpa [hf] using h
    · simpa [hf] using h

/-- A region that only takes messages out and looks whether the first one is the same. -/
theorem touch_of_sublist {handler : SHandler D} {queue : List (SMessage D)}
    (hsub : queue.Sublist handler.queue)
    (hhead : SMessageList.head queue = SMessageList.head handler.queue) :
    Touch (SMessageList.addrs handler.queue).Nodup handler
      ({ handler with queue := queue }, none) := by
  refine .quiet _ (fun hne hq => ?_) fun hnd => (oldest_of_sublist hnd hsub hhead).2
  rw [hq] at hsub
  exact hne (List.sublist_nil.1 hsub)

theorem touch_dequeueMessage (what : ℕ) (handler : SHandler D) :
    Touch (SMessageList.addrs handler.queue).Nodup handler (handler.dequeueMessage what) := by
  unfold dequeueMessage
  dsimp only
  split
  · exact .needs _
  · rename_i hhead
    exact touch_of_sublist (SMessageList.dequeueMessage_sublist what _) (not_not.1 hhead)

theorem touch_filterMessages (functor : SMessage D → SMessageList.FilterAction) (flags : ℕ) (now : ℤ)
    (handler : SHandler D) :
    Touch (SMessageList.addrs handler.queue).Nodup handler
      (handler.filterMessages functor flags now) := by
  unfold filterMessages
  dsimp only
  split
  · split
    · exact .needs _
    · rename_i hnil
      rw [hnil]
      exact .emptied
  · rename_i hhead
    exact touch_of_sublist (SMessageList.filterMessages_sublist _ _ _) (not_not.1 hhead)

/-! ### The addresses -/

theorem nodup_enqueueMessage (message : SMessage D) (time : ℤ) (flags : ℕ) (new : Option ℕ)
    (now : ℤ) {handler : SHandler D} (hq : (SMessageList.addrs handler.queue).Nodup)
    (hnew : ∀ addr ∈ new, addr ∉ SMessageList.addrs handler.queue) :
    (SMessageList.addrs (handler.enqueueMessage message time flags new now).1.queue).Nodup := by
  unfold enqueueMessage
  split
  · cases new with
    | none => exact hq
    | some addr =>
      have h := SMessageList.nodup_enqueueMessage { message with addr := addr, when := time } now hq
        (hnew addr rfl)
      dsimp only
      split
      · exact h
      · exact h
  · have hposted (removeDups : Bool) :
        (SMessageList.addrs (posted message time removeDups new now handler.queue).queue).Nodup := by
      cases removeDups with
      | true => exact nodup_enqueueMessageRemoveDups message time now new hq hnew
      | false => exact nodup_enqueueUniqueMessage message time now new hq hnew
    unfold enqueueUniqueMessage
    dsimp only
    split
    · exact hposted _
    · exact hposted _

theorem dequeueMessage_sublist (what : ℕ) (handler : SHandler D) :
    (handler.dequeueMessage what).1.queue.Sublist handler.queue := by
  have h := SMessageList.dequeueMessage_sublist what handler.queue
  unfold dequeueMessage
  dsimp only
  split
  · exact h
  · exact h

theorem filterMessages_sublist (functor : SMessage D → SMessageList.FilterAction) (flags : ℕ)
    (now : ℤ) (handler : SHandler D) :
    (handler.filterMessages functor flags now).1.queue.Sublist handler.queue := by
  unfold filterMessages
  dsimp only
  split
  · split
    · exact SMessageList.filterMessages_sublist _ _ _
    · exact SMessageList.filterMessages_sublist _ _ _
  · exact SMessageList.filterMessages_sublist _ _ _

theorem nodup_dequeueMessage (what : ℕ) {handler : SHandler D}
    (hq : (SMessageList.addrs handler.queue).Nodup) :
    (SMessageList.addrs (handler.dequeueMessage what).1.queue).Nodup :=
  hq.sublist (addrs_sublist (dequeueMessage_sublist what handler))

theorem nodup_filterMessages (functor : SMessage D → SMessageList.FilterAction) (flags : ℕ) (now : ℤ)
    {handler : SHandler D} (hq : (SMessageList.addrs handler.queue).Nodup) :
    (SMessageList.addrs (handler.filterMessages functor flags now).1.queue).Nodup :=
  hq.sublist (addrs_sublist (filterMessages_sublist functor flags now handler))

theorem nodup_dispatchMessage {handler : SHandler D}
    (hq : (SMessageList.addrs handler.queue).Nodup) :
    (SMessageList.addrs handler.dispatchMessage.1.queue).Nodup := by
  unfold dispatchMessage
  split
  · exact hq
  · rename_i msg queue hmsg
    rw [hmsg] at hq
    exact (List.nodup_cons.1 hq).2

/-! ### The bits of the state -/

/-- **What the bits say** of a handler with these outstanding calls, on the list or not. -/
structure FlagsOk (handler : SHandler D) (schedules unschedules : ℕ) (listed : Prop) : Prop where
  schedules : schedules = if handler.calledSchedule then 1 else 0
  called : handler.calledSchedule = true → handler.needSchedule = true
  need : handler.dying = false → handler.canSchedule = true → handler.needSchedule = true →
    handler.calledSchedule = true
  can : handler.dying = false → listed → handler.canSchedule = true
  scheduled : listed → handler.scheduled = true ∨ 0 < unschedules
  dying : handler.dying = true → listed → 0 < unschedules

/-- One for the call that is asked for. -/
def asks (kind : Kind) (asked : Option Kind) : ℕ := if asked = some kind then 1 else 0

theorem FlagsOk.init : FlagsOk (SHandler.init : SHandler D) 0 0 False where
  schedules := rfl
  called := nofun
  need := nofun
  can := nofun
  scheduled := nofun
  dying := nofun

variable {handler : SHandler D} {schedules unschedules : ℕ} {listed : Prop}

theorem FlagsOk.queue (h : FlagsOk handler schedules unschedules listed)
    (queue : List (SMessage D)) :
    FlagsOk { handler with queue := queue } schedules unschedules listed :=
  ⟨h.schedules, h.called, h.need, h.can, h.scheduled, h.dying⟩

theorem needs_fst (handler : SHandler D) :
    handler.needs.1 = { handler with
      needSchedule := true
      calledSchedule := handler.calledSchedule || handler.needs.2 = some .schedule } := by
  unfold SHandler.needs
  cases handler.canSchedule && !handler.needSchedule && !handler.calledSchedule <;> simp

theorem needs_snd (handler : SHandler D) :
    handler.needs.2 = none ∧
        ¬(handler.canSchedule = true ∧ handler.needSchedule = false ∧
          handler.calledSchedule = false) ∨
      handler.needs.2 = some .schedule ∧ handler.canSchedule = true ∧
        handler.needSchedule = false ∧ handler.calledSchedule = false := by
  unfold SHandler.needs
  cases handler.canSchedule <;> cases handler.needSchedule <;> cases handler.calledSchedule <;>
    simp

theorem FlagsOk.needs (h : FlagsOk handler schedules unschedules listed) :
    FlagsOk handler.needs.1 (schedules + asks .schedule handler.needs.2)
      (unschedules + asks .unschedule handler.needs.2) listed := by
  rw [needs_fst]
  rcases needs_snd handler with ⟨hnone, hbits⟩ | ⟨hsome, hcan, hneed, hcalled⟩
  · rw [hnone]
    refine ⟨?_, fun _ => rfl, fun hd hc _ => ?_, h.can, h.scheduled, h.dying⟩
    · simpa [asks] using h.schedules
    · -- a handler that can be scheduled and needs it has been called for
      have hold := h.need hd hc
      by_contra hcalled
      simp_all
  · rw [hsome]
    refine ⟨?_, fun _ => rfl, fun _ _ _ => by simp, h.can, h.scheduled, h.dying⟩
    have hs := h.schedules
    rw [hcalled] at hs
    simp [asks, hs]

/-- A handler that is on the list still has a call to take it off, or gets one. -/
theorem FlagsOk.asked (h : FlagsOk handler schedules unschedules listed) (hl : listed) :
    0 < unschedules
      + asks .unschedule (if handler.scheduled then some Kind.unschedule else none) := by
  rcases h.scheduled hl with hsch | hun
  · simp [hsch, asks]
  · omega

theorem asks_unscheduled (b : Bool) :
    asks .schedule (if b then some Kind.unschedule else none) = 0 := by
  cases b <;> rfl

theorem FlagsOk.removeAllMessages (h : FlagsOk handler schedules unschedules listed) :
    FlagsOk handler.removeAllMessages.1
      (schedules + asks .schedule handler.removeAllMessages.2)
      (unschedules + asks .unschedule handler.removeAllMessages.2) listed where
  schedules := by
    rw [SHandler.removeAllMessages, asks_unscheduled]
    exact h.schedules
  called := h.called
  need := h.need
  can := h.can
  scheduled := fun hl => .inr (h.asked hl)
  dying := fun _ hl => h.asked hl

section

variable {fixed : Prop} {result : SHandler D × Option Kind} (ht : Touch fixed handler result)
include ht

theorem Touch.flagsOk (h : FlagsOk handler schedules unschedules listed) :
    FlagsOk result.1 (schedules + asks .schedule result.2) (unschedules + asks .unschedule result.2)
      listed := by
  cases ht with
  | quiet queue => exact h.queue queue
  | needs queue => exact (h.queue queue).needs
  | emptied => exact h.removeAllMessages

/-- **A region that changes the time** of a handler on the list asks for a call. -/
theorem Touch.nextMessageTime (hf : handler.FlagsOk 0 0 True) (hnone : result.2 = none)
    (hfixed : fixed) : result.1.nextMessageTime = handler.nextMessageTime := by
  cases ht with
  | quiet queue hne htime => exact htime hfixed
  | emptied =>
    have hsch := (hf.scheduled trivial).resolve_right (lt_irrefl 0)
    simp [removeAllMessages, hsch] at hnone
  | needs queue =>
    have hdying : handler.dying = false := by
      by_contra hd
      exact absurd (hf.dying (by simpa using hd) trivial) (lt_irrefl 0)
    have hcalled : handler.calledSchedule = false := by
      have hs := hf.schedules
      by_contra hc
      rw [if_pos (by simpa using hc)] at hs
      cases hs
    have hcan := hf.can hdying trivial
    have hneed : handler.needSchedule = false := by
      by_contra hn
      rw [hf.need hdying hcan (by simpa using hn)] at hcalled
      cases hcalled
    simp [SHandler.needs, hcan, hneed, hcalled] at hnone

end

section

variable (h : FlagsOk handler schedules unschedules listed)
include h

theorem FlagsOk.unschedule :
    FlagsOk handler.unschedule.1 (schedules + asks .schedule handler.unschedule.2)
      (unschedules + asks .unschedule handler.unschedule.2) listed where
  schedules := by
    rw [SHandler.unschedule, asks_unscheduled]
    exact h.schedules
  called := h.called
  need := nofun
  can := nofun
  scheduled := fun hl => .inr (h.asked hl)
  dying := fun _ hl => h.asked hl

theorem FlagsOk.resumeScheduling :
    FlagsOk handler.resumeScheduling.1 (schedules + asks .schedule handler.resumeScheduling.2)
      (unschedules + asks .unschedule handler.resumeScheduling.2) listed where
  schedules := by
    have hs := h.schedules
    rw [hs]
    unfold SHandler.resumeScheduling
    cases handler.needSchedule <;> cases handler.calledSchedule <;> rfl
  called := by
    have hc := h.called
    unfold SHandler.resumeScheduling
    cases hneed : handler.needSchedule <;> simp_all
  need := by
    intro _ _ hneed
    have hneed : handler.needSchedule = true := hneed
    simp [SHandler.resumeScheduling, hneed]
  can := fun _ _ => rfl
  scheduled := fun hl => (h.scheduled hl).imp id fun hun => by omega
  dying := fun hd hl => by
    have := h.dying hd hl
    omega

theorem FlagsOk.dispatchMessage (hcan : handler.dying = false → handler.canSchedule = false) :
    FlagsOk handler.dispatchMessage.1 schedules unschedules listed := by
  unfold SHandler.dispatchMessage
  split
  · exact h
  · refine ⟨h.schedules, fun hc => ?_, fun hd hc => ?_, h.can, h.scheduled, h.dying⟩
    · simp [h.called hc]
    · rw [hcan hd] at hc
      cases hc

theorem FlagsOk.off (unschedules' : ℕ) : FlagsOk handler schedules unschedules' False :=
  ⟨h.schedules, h.called, h.need, nofun, nofun, nofun⟩

theorem FlagsOk.deferScheduling : FlagsOk handler.deferScheduling schedules unschedules False :=
  ⟨h.schedules, h.called, nofun, nofun, nofun, nofun⟩

end

theorem startSchedule_of_ne (hne : handler.startSchedule.2 ≠ .cancelSchedule) :
    handler.canSchedule = true ∧ handler.needSchedule = true ∧ handler.dying = false ∧
      handler.queue ≠ [] ∧ handler.startSchedule.1 =
        { handler with calledSchedule := false, needSchedule := false } := by
  unfold SHandler.startSchedule at hne ⊢
  split at hne
  · rename_i hbits
    rw [if_pos hbits]
    have hempty : handler.queue.isEmpty ≠ true := fun he => hne (by simp [he])
    simp only [Bool.and_eq_true, Bool.not_eq_true'] at hbits
    refine ⟨hbits.1.1, hbits.1.2, hbits.2, fun hq => hempty (by simp [hq]), rfl⟩
  · exact absurd rfl hne

theorem startSchedule_of_eq (heq : handler.startSchedule.2 = .cancelSchedule) :
    ∃ need, (handler.canSchedule = false → need = handler.needSchedule) ∧
      (handler.canSchedule = true → handler.needSchedule = true → handler.dying = false →
        need = false ∧ handler.queue = []) ∧
      handler.startSchedule.1 = { handler with calledSchedule := false, needSchedule := need } := by
  unfold SHandler.startSchedule at heq ⊢
  split at heq
  · rename_i hbits
    rw [if_pos hbits]
    refine ⟨false, fun hc => ?_, fun _ _ _ => ⟨rfl, ?_⟩, rfl⟩
    · simp [hc] at hbits
    · dsimp only at heq
      split at heq
      · rename_i he
        exact List.isEmpty_iff.1 he
      · split at heq <;> cases heq
  · rename_i hbits
    rw [if_neg hbits]
    refine ⟨handler.needSchedule, fun _ => rfl, fun hc hn hd => absurd ?_ hbits, rfl⟩
    simp [hc, hn, hd]

section

variable (h : FlagsOk handler (schedules + 1) unschedules listed)
include h

/-- **A call to schedule is there only for a handler that was called for**, and only one. -/
theorem FlagsOk.of_succ : handler.calledSchedule = true ∧ schedules = 0 := by
  have hs := h.schedules
  split at hs
  · rename_i hc
    exact ⟨hc, by omega⟩
  · omega

theorem FlagsOk.scheduled_on (hne : handler.startSchedule.2 ≠ .cancelSchedule) :
    FlagsOk handler.startSchedule.1.doneSchedule schedules unschedules True := by
  obtain ⟨hcan, -, hdying, -, hstart⟩ := startSchedule_of_ne hne
  rw [hstart]
  refine ⟨h.of_succ.2, nofun, nofun, fun _ _ => hcan, fun _ => .inl rfl, fun hd => ?_⟩
  rw [hdying] at hd
  cases hd

theorem FlagsOk.scheduled_off (heq : handler.startSchedule.2 = .cancelSchedule) :
    FlagsOk handler.startSchedule.1 schedules unschedules False := by
  obtain ⟨need, -, hneed, hstart⟩ := startSchedule_of_eq heq
  obtain ⟨hcalled, hs⟩ := h.of_succ
  rw [hstart]
  refine ⟨hs, nofun, fun hd hc hn => ?_, nofun, nofun, nofun⟩
  rw [(hneed hc (h.called hcalled) hd).1] at hn
  cases hn

end

end OpenBinder.SHandler
