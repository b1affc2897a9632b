import Mathlib.Data.Int.Order.Basic
import OpenBinder.Lib.Linked

/-!
# The request queue of a process

`binder_proc_Transact` hands a transaction to the thread on top of the wait stack, or appends
it to the queue if no thread waits. `binder_proc_WaitForRequest` takes the first transaction
from the queue, or pushes the thread on the wait stack and sleeps; its second half finds out
why the thread woke up. The timers and the activation of death notifications wake threads up
as well. Each of these is one step under the locks of the process.

A thread that sends has its transactions linked through the same `next` field until
`binder_thread_Read` gets to them, and `Transact` does not clear it.
-/

namespace OpenBinder

open Lib Function

inductive WakeReason where
  | none
  | idle
  | processDeath
  deriving DecidableEq

/-- `BND_PROC_MAX_IDLE_THREADS`. -/
def maxIdleThreads : ℤ := 3

/-- A live process and the threads `Θ`, its own and those that send to it. `T` are the
transactions, none of which is allocated twice. -/
structure Requests (Θ T : Type) where
  /-- `m_head`, `m_tail` and the `next` fields -/
  queue : TailQueue T
  /-- `m_waitStack`, the top first -/
  waitStack : List Θ
  waitStackCount : ℤ
  syncCount : ℤ
  /-- `btEventInQueue` -/
  eventInQueue : Bool
  /-- `WAKE_THREAD_FOR_PROCESS_DEATH` in `m_wakeThreadMask` -/
  wakeThreadMask : Bool
  /-- whether the thread is between the halves of `WaitForRequest` -/
  waiting : Θ → Bool
  nextRequest : Θ → Option T
  wakeReason : Θ → WakeReason
  /-- `m_pendingRefResolution` -/
  pending : Θ → Option T
  /-- what was allocated so far -/
  created : List T
  /-- what `Transact` accepted and did not reflect -/
  accepted : List T
  /-- what was put into the queue, in this order -/
  queued : List T
  /-- what was taken from the queue, in this order -/
  popped : List T
  /-- what `WaitForRequest` returned, and to whom -/
  returned : List (Θ × T)
  /-- what was sent as a reply, or reflected -/
  elsewhere : List T

namespace Requests

variable {Θ T : Type} [DecidableEq Θ] [DecidableEq T]

/-- A process without requests; `event` is its `m_eventTransaction`. -/
def init (event : T) : Requests Θ T where
  queue := ⟨fun _ => none, none, .head⟩
  waitStack := []
  waitStackCount := 0
  syncCount := 0
  eventInQueue := false
  wakeThreadMask := false
  waiting _ := false
  nextRequest _ := none
  wakeReason _ := .none
  pending _ := none
  created := [event]
  accepted := []
  queued := []
  popped := []
  returned := []
  elsewhere := []

/-- `binder_proc_RemoveThreadFromWaitStack`. -/
def removeThread (s : Requests Θ T) (w : Θ) : Requests Θ T :=
  { s with waitStack := s.waitStack.erase w, waitStackCount := s.waitStackCount - 1 }

/-- `binder_proc_DeliverTransacton`. -/
def deliver (t : T) (s : Requests Θ T) : Requests Θ T :=
  match s.waitStack with
  | w :: _ =>
    let s := s.removeThread w
    { s with nextRequest := update s.nextRequest w (some t) }
  | [] => { s with queue := s.queue.put t, queued := s.queued ++ [t] }

/-- `binder_proc_Transact`, where the transaction is not reflected. -/
def transact (t : T) (s : Requests Θ T) : Requests Θ T :=
  let s := s.deliver t
  { s with syncCount := s.syncCount + 1, accepted := s.accepted ++ [t] }

/-- The end of `binder_proc_WaitForRequest` with a transaction. -/
def finish (event : T) (w : Θ) (t : T) (s : Requests Θ T) : Requests Θ T :=
  if t = event then { s with eventInQueue := false }
  else { s with syncCount := s.syncCount - 1, returned := s.returned ++ [(w, t)] }

/-- `binder_proc_WaitForRequest` up to where the thread sleeps, or all of it if it does not.
`noDeaths` says whether the lists of death notifications are empty. -/
def wait (event : T) (w : Θ) (noDeaths : Bool) (s : Requests Θ T) : Requests Θ T :=
  let s := if s.wakeThreadMask then
      { s with wakeThreadMask := false, wakeReason := update s.wakeReason w .processDeath }
    else s
  if s.wakeReason w = .processDeath then
    if noDeaths then { s with wakeReason := update s.wakeReason w .none } else s
  else
    match s.queue.take with
    | some (t, queue) => { s with queue := queue, popped := s.popped ++ [t] }.finish event w t
    | none =>
      { s with
        waitStack := w :: s.waitStack
        waitStackCount := s.waitStackCount + 1
        waiting := update s.waiting w true }

/-- `binder_proc_WaitForRequest` from where the thread woke up. -/
def wake (event : T) (w : Θ) (s : Requests Θ T) : Requests Θ T :=
  let s := { s with waiting := update s.waiting w false }
  match s.nextRequest w with
  | some t => { s with nextRequest := update s.nextRequest w none }.finish event w t
  | none =>
    match s.wakeReason w with
    | .idle => { s with wakeReason := update s.wakeReason w .none }
    | .processDeath => s
    | .none => s.removeThread w

/-- `binder_proc_wakeup_timer`. -/
def wakeupTimer (event : T) (s : Requests Θ T) : Requests Θ T :=
  if s.eventInQueue then s else { s with eventInQueue := true }.deliver event

/-- `binder_proc_idle_timer`; none if there is no thread at the bottom of the stack. -/
def idleTimer (s : Requests Θ T) : Option (Requests Θ T) :=
  if s.waitStackCount > maxIdleThreads then
    s.waitStack.getLast?.map fun w =>
      { s with wakeReason := update s.wakeReason w .idle }.removeThread w
  else some s

/-- `binder_proc_activate_death_processing_thread`. -/
def activateDeath (s : Requests Θ T) : Requests Θ T :=
  match s.waitStack with
  | w :: _ =>
    let s := s.removeThread w
    { s with wakeReason := update s.wakeReason w .processDeath }
  | [] => { s with wakeThreadMask := true }

/-- The steps. -/
inductive Action (Θ T : Type) where
  /-- `bcTRANSACTION`: a new transaction of a thread that sends -/
  | write (w : Θ) (t : T)
  /-- `binder_thread_Read` of the thread that sends, up to `Transact` -/
  | send (w : Θ)
  /-- the same, where the transaction is a reply, is reflected, or goes to another process -/
  | divert (w : Θ)
  /-- `Transact` of what `binder_transaction_CreateRef` made -/
  | transactRef (t : T)
  /-- the `next` field of a transaction that is elsewhere -/
  | relink (t : T) (x : Option T)
  | wait (w : Θ) (noDeaths : Bool)
  | wake (w : Θ)
  | wakeupTimer
  | idleTimer
  | activateDeath
  /-- `binder_proc_GetPendingDeathNotifications` with nothing left -/
  | doneDeaths (w : Θ)

/-- A step, where it can be taken. -/
def step (event : T) (s : Requests Θ T) : Action Θ T → Option (Requests Θ T)
  | .write w t =>
    if t ∈ s.created then none
    else some { s with
      created := t :: s.created
      queue := s.queue.link t (s.pending w)
      pending := update s.pending w (some t) }
  | .send w => (s.pending w).map fun t =>
      { s with pending := update s.pending w (s.queue.next t) }.transact t
  | .divert w => (s.pending w).map fun t =>
      { s with
        pending := update s.pending w (s.queue.next t)
        elsewhere := t :: s.elsewhere }
  | .transactRef t =>
    if t ∈ s.created then none
    else some ({ s with created := t :: s.created, queue := s.queue.link t none }.transact t)
  | .relink t x =>
    if t ∈ s.elsewhere ∨ t ∈ s.returned.map Prod.snd then some { s with queue := s.queue.link t x }
    else none
  | .wait w noDeaths => if s.waiting w then none else some (s.wait event w noDeaths)
  | .wake w => if s.waiting w then some (s.wake event w) else none
  | .wakeupTimer => some (s.wakeupTimer event)
  | .idleTimer => s.idleTimer
  | .activateDeath => some s.activateDeath
  | .doneDeaths w =>
    if s.waiting w then none
    else some { s with wakeReason := update s.wakeReason w .none }

/-! ### What is claimed -/

/-- Where a transaction can be. -/
inductive Place (Θ : Type) where
  | queue
  | thread (w : Θ)
  | returned (w : Θ)
  deriving DecidableEq

/-- A transaction is at a place, when the queue has the transactions `q`. -/
def At (s : Requests Θ T) (q : List T) (t : T) : Place Θ → Prop
  | .queue => t ∈ q
  | .thread w => s.waiting w = true ∧ s.nextRequest w = some t
  | .returned w => (w, t) ∈ s.returned

/-- **Nothing is lost, duplicated or reordered**: what the queue has is linked from head to tail
and what is left of what was put into it, every transaction that was accepted is at exactly one
place and returned once at most, and the counts are right. -/
structure Sound (s : Requests Θ T) : Prop where
  queue : ∃ q, s.queue.Holds q ∧ s.queued = s.popped ++ q ∧
    ∀ t ∈ s.accepted, ∃! p, s.At q t p
  returned : (s.returned.map Prod.snd).Nodup
  syncCount : s.syncCount = (s.accepted.filter fun t => t ∉ s.returned.map Prod.snd).length
  waitStackCount : s.waitStackCount = s.waitStack.length
  waitStack : s.waitStack.Nodup

/-- A thread that sends to a process where no thread waits has nothing else pending. -/
def Fits (s : Requests Θ T) : Action Θ T → Prop
  | .send w => s.waitStack = [] → ∀ t, s.pending w = some t → s.queue.next t = none
  | _ => True

end Requests

end OpenBinder
