import OpenBinder.Handler.TimeOrder

/-!
# One thread in a handler

A handler is taken off the list of pending handlers when a thread is going to dispatch a message of
it, and it is not put back before that thread, or the code that it calls, resumes its scheduling.

* `exclusive_run`: so a handler has its messages handled by one thread at a time.
* `listed_run`: the list of pending handlers is in order, and handlers that die are taken off it.
-/

namespace OpenBinder.BProcess

open Lib SHandler List

variable {H T D : Type*} [DecidableEq H] [DecidableEq T] {s : BProcess H T D} {l : List H}

/-- **One thread at a time**: while a thread is in `HandleMessage` of a handler that is alive, and
has not resumed its scheduling, no other thread has taken the handler to dispatch a message of it,
and it is not on the list of those that can be taken. -/
def Exclusive (s : BProcess H T D) : Prop :=
  ∀ t handler, (s.loopers t).pc = .handling handler → (s.loopers t).resumed = false →
    (s.handlers handler).dying = false →
      s.links.listed handler = false ∧ ∀ t', (s.loopers t').Grips handler → t' = t

/-- **The list of pending handlers** goes through its handlers in both directions, each of them once.
Those that are alive can be scheduled and have one call of `ScheduleHandler` outstanding at most, and
those that are not are going to be taken off by a call that is outstanding. -/
def Listed (s : BProcess H T D) : Prop :=
  ∃ l, s.links.Holds l ∧ ∀ handler ∈ l, s.outstanding .schedule handler ≤ 1 ∧
    ((s.handlers handler).dying = false → (s.handlers handler).canSchedule = true) ∧
    ((s.handlers handler).dying = true → 0 < s.outstanding .unschedule handler)

omit [DecidableEq T] in
theorem Inv.listed (h : s.Inv l) : s.Listed := by
  refine ⟨l, h.holds, fun handler hl => ?_⟩
  have hf := h.flags handler
  refine ⟨?_, fun hd => hf.can hd hl, fun hd => hf.dying hd hl⟩
  rw [hf.schedules]
  split <;> omega

omit [DecidableEq T] in
theorem Inv.exclusive (h : s.Inv l) : s.Exclusive := by
  intro t handler hpc hres hdying
  have hgrips : (s.loopers t).Grips handler := by
    rw [Looper.Grips, hpc]
    exact ⟨rfl, hres⟩
  refine ⟨?_, fun t' hg => h.alone t' t handler hg hgrips hdying⟩
  -- a handler on the list can be scheduled, and one that a thread has taken cannot
  by_contra hlisted
  have hl : handler ∈ l := (h.holds.listed_iff handler).1 (by simpa using hlisted)
  have hcan := (h.flags handler).can hdying hl
  rw [h.grips t handler hgrips hdying] at hcan
  cases hcan

theorem inv_run (max : ℕ) (as : List (Action H T D)) :
    AllStates step (fun s => ∃ l, s.Inv l) (BProcess.init max : BProcess H T D) as := by
  refine AllStates.of_keep ?_ as _ ⟨[], .init max⟩
  rintro s a s' ⟨l, h⟩ hs
  obtain ⟨l', h', -⟩ := h.keep hs
  exact ⟨l', h'⟩

/-- **The list of pending handlers is in order**, in every state of every run. -/
theorem listed_run (max : ℕ) (as : List (Action H T D)) :
    AllStates step Listed (BProcess.init max : BProcess H T D) as :=
  AllStates.imp (fun _ ⟨_, h⟩ => h.listed) as _ (inv_run max as)

end OpenBinder.BProcess
