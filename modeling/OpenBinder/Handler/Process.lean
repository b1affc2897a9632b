import OpenBinder.Lib.Doubly
import OpenBinder.Lib.Run
import OpenBinder.Handler.MessageList
import Mathlib.Data.Multiset.Basic
import Mathlib.Data.Multiset.AddSub

/-!
# Handlers of a process

`SHandler` and the part of `BProcess` that dispatches messages, for any number of handlers and of
threads. A region under `SHandler::m_lock` is one step, and so is a region under `BProcess::m_lock`
with the regions of handlers in it. `ScheduleHandler` and `UnscheduleHandler` are called after the
region that asks for them: until then the call is outstanding.

* `SHandler.Kind`, `Call`: the outstanding calls. One that has an owner keeps that thread waiting.
* `Pc`, `Looper`: where a thread is in `DispatchMessage`, and the `DispatchAllMessages` it is in.
* `step`: one region, or what a thread does between two of them.

The clock and the addresses that `new` returns are parameters of the steps. The references by which
the list keeps its handlers in memory and the priorities of the threads are left out.
-/

namespace OpenBinder

open Lib Function

/-- `SHandler`: its queue, and the bits of `m_state`. -/
structure SHandler (D : Type*) where
  queue : List (SMessage D)
  canSchedule : Bool
  scheduled : Bool
  needSchedule : Bool
  dying : Bool
  calledSchedule : Bool

namespace SHandler

variable {D : Type*}

/-- The call that a region of a handler asks for. -/
inductive Kind where
  | schedule
  | unschedule
deriving DecidableEq

/-- A new handler, `ghCanSchedule`. -/
def init : SHandler D where
  queue := []
  canSchedule := true
  scheduled := false
  needSchedule := false
  dying := false
  calledSchedule := false

/-- What a region does when the first message is another one than before. -/
def needs (handler : SHandler D) : SHandler D × Option Kind :=
  let doSchedule := handler.canSchedule && !handler.needSchedule && !handler.calledSchedule
  ({ handler with
      needSchedule := true
      calledSchedule := handler.calledSchedule || doSchedule },
    if doSchedule then some .schedule else none)

/-- A message posted with a duplicate flag. -/
def posted (message : SMessage D) (time : ℤ) (removeDups : Bool) (new : Option ℕ) (now : ℤ)
    (queue : List (SMessage D)) : SMessageList.Posted D :=
  if removeDups then SMessageList.enqueueMessageRemoveDups message time now new queue
  else SMessageList.enqueueUniqueMessage message time now new queue

def enqueueUniqueMessage (message : SMessage D) (time : ℤ) (removeDups : Bool) (new : Option ℕ)
    (now : ℤ) (handler : SHandler D) : SHandler D × Option Kind :=
  let msg := posted message time removeDups new now handler.queue
  let handler' := { handler with queue := msg.queue }
  if msg.IsHead then handler'.needs else (handler', none)

/-- `EnqueueMessage`, with the flags `B_POST_REMOVE_DUPLICATES` and `B_POST_KEEP_UNIQUE`. -/
def enqueueMessage (message : SMessage D) (time : ℤ) (flags : ℕ) (new : Option ℕ) (now : ℤ)
    (handler : SHandler D) : SHandler D × Option Kind :=
  if flags &&& 3 = 0 then
    match new with
    | none => (handler, none)
    | some addr =>
      let msg := { message with addr := addr, when := time }
      let queue := SMessageList.enqueueMessage msg now handler.queue
      let handler' := { handler with queue := queue }
      if SMessageList.head queue = some addr then handler'.needs else (handler', none)
  else handler.enqueueUniqueMessage message time (flags &&& 1 ≠ 0) new now

def nextMessageTime (handler : SHandler D) : ℤ := SMessageList.oldestMessage handler.queue

def dequeueMessage (what : ℕ) (handler : SHandler D) : SHandler D × Option Kind :=
  let queue := (SMessageList.dequeueMessage what handler.queue).2
  let handler' := { handler with queue := queue }
  if SMessageList.head queue ≠ SMessageList.head handler.queue then handler'.needs
  else (handler', none)

/-- `FilterMessages`, with the flags `FILTER_REVERSE_FLAG` and `FILTER_FUTURE_FLAG`. -/
def filterMessages (functor : SMessage D → SMessageList.FilterAction) (flags : ℕ) (now : ℤ)
    (handler : SHandler D) : SHandler D × Option Kind :=
  let action (msg : SMessage D) :=
    if flags &&& 2 ≠ 0 ∨ msg.when ≤ now then functor msg else .keep
  let queue := (SMessageList.filterMessages action (flags &&& 1 ≠ 0) handler.queue).1
  let handler' := { handler with queue := queue }
  if SMessageList.head queue ≠ SMessageList.head handler.queue then
    match queue with
    | _ :: _ => handler'.needs
    | [] => ({ handler' with scheduled := false },
        if handler.scheduled then some .unschedule else none)
  else (handler', none)

def removeAllMessages (handler : SHandler D) : SHandler D × Option Kind :=
  ({ handler with queue := [], scheduled := false },
    if handler.scheduled then some .unschedule else none)

/-- The region of `dispatch_message`, and whether there is a message to handle. -/
def dispatchMessage (handler : SHandler D) : SHandler D × Bool :=
  match handler.queue with
  | [] => (handler, false)
  | _ :: queue =>
    ({ handler with
        queue := queue
        needSchedule := handler.needSchedule || !queue.isEmpty }, true)

/-- The region of `ResumeScheduling`. -/
def resumeScheduling (handler : SHandler D) : SHandler D × Option Kind :=
  let doSchedule := handler.needSchedule && !handler.calledSchedule
  ({ handler with
      canSchedule := true
      calledSchedule := handler.calledSchedule || doSchedule },
    if doSchedule then some .schedule else none)

def deferScheduling (handler : SHandler D) : SHandler D :=
  { handler with scheduled := false, canSchedule := false }

def unschedule (handler : SHandler D) : SHandler D × Option Kind :=
  ({ handler with canSchedule := false, scheduled := false, dying := true },
    if handler.scheduled then some .unschedule else none)

/-- What `start_schedule` decides. -/
inductive Scheduling where
  | cancelSchedule
  | doSchedule
  | doReschedule
deriving DecidableEq

def startSchedule (handler : SHandler D) : SHandler D × Scheduling :=
  let handler' := { handler with calledSchedule := false }
  if handler.canSchedule && handler.needSchedule && !handler.dying then
    ({ handler' with needSchedule := false },
      if handler.queue.isEmpty then .cancelSchedule
      else if handler.scheduled then .doReschedule
      else .doSchedule)
  else (handler', .cancelSchedule)

def doneSchedule (handler : SHandler D) : SHandler D := { handler with scheduled := true }

end SHandler

namespace BProcess

/-- Where a thread is in `DispatchMessage`. -/
inductive Pc (H : Type*) where
  /-- Not in it. -/
  | idle
  /-- Before `AttemptAcquire`. -/
  | acquiring (handler : H)
  /-- Before `dispatch_message`. -/
  | dispatching (handler : H)
  /-- In `HandleMessage`. -/
  | handling (handler : H)
  /-- Before the locked region that looks for a shortcut. -/
  | handled (handler : H)
  /-- Before `ResumeScheduling`. -/
  | resuming (handler : H)
  /-- Before the locked region at the top of the loop. -/
  | next
deriving DecidableEq

/-- A thread: `kSchedulingResumed` of its looper, and the calls of `DispatchAllMessages` it is in,
the innermost first, each with whether it is in `HandleMessage`. -/
structure Looper (H : Type*) where
  pc : Pc H
  resumed : Bool
  alls : List (H × Bool)

/-- A call of `ScheduleHandler` or `UnscheduleHandler` that is outstanding. -/
structure Call (H T : Type*) where
  kind : SHandler.Kind
  handler : H
  owner : Option T
deriving DecidableEq

namespace Looper

variable {H : Type*}

def init : Looper H where
  pc := .idle
  resumed := false
  alls := []

/-- The handler whose `HandleMessage` the thread is in. -/
def current (looper : Looper H) : Option H :=
  match looper.alls, looper.pc with
  | (handler, handling) :: _, _ => if handling then some handler else none
  | [], .handling handler => some handler
  | [], _ => none

/-- The thread runs code of a user. -/
def InUser (looper : Looper H) : Prop :=
  looper.current ≠ none ∨ looper.pc = .idle ∧ looper.alls = []

end Looper

end BProcess

/-- A process: its handlers and threads, and `m_pendingHandlers` with the pointers of the
handlers. -/
structure BProcess (H T D : Type*) where
  handlers : H → SHandler D
  links : Links H
  loopers : T → BProcess.Looper H
  calls : Multiset (BProcess.Call H T)
  /-- The handlers that have no strong reference any more. -/
  gone : H → Bool
  nextEventTime : ℤ
  currentEventConcurrency : ℕ
  maxEventConcurrency : ℕ

namespace BProcess

variable {H T D : Type*}

/-- A process that no message was posted to. -/
def init (max : ℕ) : BProcess H T D where
  handlers := fun _ => .init
  links := .empty
  loopers := fun _ => .init
  calls := 0
  gone := fun _ => false
  nextEventTime := SMessageList.infiniteTimeout
  currentEventConcurrency := 0
  maxEventConcurrency := max

variable [DecidableEq H] [DecidableEq T]

/-! ### The list of handlers -/

/-- The loop of `InsertHandler`, for a number of turns. -/
def insertWalk (time : H → ℤ) (links : Links H) (msgTime : ℤ) : ℕ → H → Option H
  | 0, _ => none
  | n + 1, p =>
    match links.next p with
    | none => some p
    | some q => if time q < msgTime then insertWalk time links msgTime n q else some p

def insertHandler (n : ℕ) (time : H → ℤ) (links : Links H) (handler : H) : Option (Links H) :=
  match links.head with
  | none => some (links.pushFront handler)
  | some p =>
    if time handler < time p then some (links.pushFront handler)
    else (insertWalk time links (time handler) n p).map fun p => links.insertAfter p handler

def unscheduleHandler (links : Links H) (handler : H) : Links H :=
  if links.listed handler then links.unlink handler else links

/-- When the first message of a handler is due. -/
def time (s : BProcess H T D) (handler : H) : ℤ := (s.handlers handler).nextMessageTime

def scheduleNextEvent (s : BProcess H T D) : BProcess H T D :=
  if s.maxEventConcurrency ≤ s.currentEventConcurrency then s
  else
    let nextTime := match s.links.head with
      | none => SMessageList.infiniteTimeout
      | some handler => s.time handler
    if nextTime < s.nextEventTime then { s with nextEventTime := nextTime } else s

def scheduleHandler (n : ℕ) (handler : H) (s : BProcess H T D) : Option (BProcess H T D) :=
  let (handler', scheduling) := (s.handlers handler).startSchedule
  let links := unscheduleHandler s.links handler
  if scheduling ≠ .cancelSchedule then
    (insertHandler n s.time links handler).map fun links' =>
      scheduleNextEvent { s with
        handlers := update s.handlers handler handler'.doneSchedule
        links := links' }
  else
    some (scheduleNextEvent { s with
      handlers := update s.handlers handler handler'
      links := links })

/-! ### The steps -/

/-- A region of a handler, and the call it asks for. -/
def region (s : BProcess H T D) (handler : H) (owner : Option T)
    (result : SHandler D × Option SHandler.Kind) : BProcess H T D :=
  { s with
    handlers := update s.handlers handler result.1
    calls := match result.2 with
      | none => s.calls
      | some kind => ⟨kind, handler, owner⟩ ::ₘ s.calls }

/-- A thread somewhere else. -/
def setLooper (s : BProcess H T D) (t : T) (looper : Looper H) : BProcess H T D :=
  { s with loopers := update s.loopers t looper }

/-- The thread has no call outstanding. -/
def Ready (s : BProcess H T D) (t : T) : Prop := ∀ c ∈ s.calls, c.owner ≠ some t

instance (s : BProcess H T D) (t : T) : Decidable (s.Ready t) := Multiset.decidableForallMultiset

/-- `ResumeScheduling` of a thread, where `BProcess::ResumingScheduling` sets its flag. -/
def resumeScheduling (s : BProcess H T D) (t : T) (handler : H) : BProcess H T D :=
  if (s.loopers t).resumed then s
  else
    (s.region handler (some t) (s.handlers handler).resumeScheduling).setLooper t
      { s.loopers t with resumed := true }

/-- The thread leaves `DispatchMessage`. -/
def dispatchLeave (s : BProcess H T D) (t : T) : BProcess H T D :=
  scheduleNextEvent { s.setLooper t { s.loopers t with pc := .idle } with
    currentEventConcurrency := s.currentEventConcurrency - 1 }

/-- The top of the loop of `DispatchMessage`: the first handler is taken off the list if it is
due. -/
def dispatchNext (s : BProcess H T D) (t : T) (firstTime : Bool) (curTime : ℤ) : BProcess H T D :=
  match s.links.head with
  | none => s.dispatchLeave t
  | some handler =>
    if s.time handler ≤ curTime then
      let s' := { s.setLooper t { s.loopers t with pc := .acquiring handler } with
        links := s.links.popFront handler
        handlers := update s.handlers handler (s.handlers handler).deferScheduling }
      if firstTime then s'.scheduleNextEvent else s'
    else s.dispatchLeave t

/-- The shortcut of `DispatchMessage`: the handler has the message that is to be handled next, and
the thread has not resumed it. -/
def Shortcut (s : BProcess H T D) (t : T) (handler : H) (curTime : ℤ) : Prop :=
  (∀ pending ∈ s.links.head, s.time handler ≤ s.time pending) ∧
    (s.loopers t).resumed = false ∧ s.time handler ≤ curTime

instance (s : BProcess H T D) (t : T) (handler : H) (curTime : ℤ) :
    Decidable (s.Shortcut t handler curTime) := by
  unfold Shortcut
  infer_instance

instance (looper : Looper H) : Decidable looper.InUser := by
  unfold Looper.InUser
  infer_instance

/-- What a thread in `DispatchMessage` does. -/
inductive ThreadAction where
  /-- `AttemptAcquire` of the handler. -/
  | attemptAcquire
  /-- `dispatch_message` of the handler. -/
  | dispatch
  /-- `HandleMessage` returns. -/
  | handled
  /-- The region that looks for a shortcut. -/
  | shortcut (curTime : ℤ)
  /-- `ResumeScheduling` and `ClearSchedulingResumed`. -/
  | resume
  /-- The region at the top of the loop. -/
  | next (curTime : ℤ)

/-- What happens in a process. -/
inductive Action (H T D : Type*) where
  /-- `EnqueueMessage`, which every way to post a message calls. -/
  | post (handler : H) (message : SMessage D) (time : ℤ) (flags : ℕ) (new : Option ℕ) (now : ℤ)
  /-- `DequeueMessage`. -/
  | dequeue (handler : H) (what : ℕ)
  /-- `FilterMessages`. -/
  | filter (handler : H) (functor : SMessage D → SMessageList.FilterAction) (flags : ℕ) (now : ℤ)
  /-- `RemoveAllMessages`. -/
  | removeAll (handler : H)
  /-- The region of an outstanding call, with the turns of a loop in it. -/
  | call (c : Call H T) (n : ℕ)
  /-- A thread enters `DispatchMessage`. -/
  | dispatchMessage (t : T) (now : ℤ)
  /-- A thread in `DispatchMessage` goes on. -/
  | thread (t : T) (a : ThreadAction)
  /-- `HandleMessage` calls `ResumeScheduling`. -/
  | resumeScheduling (t : T)
  /-- A thread calls `DispatchAllMessages`. -/
  | dispatchAllMessages (t : T) (handler : H)
  /-- `dispatch_message` in `DispatchAllMessages`. -/
  | dispatchAll (t : T)
  /-- The last strong reference goes, and the destructor starts with `unschedule`. -/
  | release (handler : H)

/-- What the thread does in `DispatchMessage` on its own: it has no call outstanding, and it is in
no `DispatchAllMessages`. -/
def Free (s : BProcess H T D) (t : T) : Prop := s.Ready t ∧ (s.loopers t).alls = []

instance (s : BProcess H T D) (t : T) : Decidable (s.Free t) := instDecidableAnd

/-- The steps of a thread in `DispatchMessage`. -/
def threadStep (s : BProcess H T D) (t : T) (a : ThreadAction) : Option (BProcess H T D) :=
  match a, (s.loopers t).pc with
  | .attemptAcquire, .acquiring handler =>
    some (s.setLooper t { s.loopers t with
      pc := if s.gone handler then .next else .dispatching handler })
  | .dispatch, .dispatching handler =>
    let result := (s.handlers handler).dispatchMessage
    some ((s.region handler none (result.1, none)).setLooper t { s.loopers t with
      pc := if result.2 then .handling handler else .handled handler })
  | .handled, .handling handler =>
    some (s.setLooper t { s.loopers t with pc := .handled handler })
  | .shortcut curTime, .handled handler =>
    some (s.setLooper t { s.loopers t with
      pc := if s.Shortcut t handler curTime then .dispatching handler else .resuming handler })
  | .resume, .resuming handler =>
    -- the flag is clear after `ClearSchedulingResumed`, whether it was set or not
    some ((s.resumeScheduling t handler).setLooper t
      { s.loopers t with pc := .next, resumed := false })
  | .next curTime, .next => some (s.dispatchNext t false curTime)
  | _, _ => none

/-- **A step.** -/
def step (s : BProcess H T D) : Action H T D → Option (BProcess H T D)
  | .post handler message time flags new now =>
    if ∀ addr ∈ new, addr ∉ SMessageList.addrs (s.handlers handler).queue then
      some (s.region handler none ((s.handlers handler).enqueueMessage message time flags new now))
    else none
  | .dequeue handler what =>
    some (s.region handler none ((s.handlers handler).dequeueMessage what))
  | .filter handler functor flags now =>
    some (s.region handler none ((s.handlers handler).filterMessages functor flags now))
  | .removeAll handler => some (s.region handler none (s.handlers handler).removeAllMessages)
  | .call c n =>
    if c ∈ s.calls then
      let s' := { s with calls := s.calls.erase c }
      match c.kind with
      | .schedule => s'.scheduleHandler n c.handler
      | .unschedule => some { s' with links := unscheduleHandler s.links c.handler }
    else none
  | .dispatchMessage t now =>
    if s.Free t ∧ (s.loopers t).pc = .idle then
      if s.maxEventConcurrency ≤ s.currentEventConcurrency then some s
      else some (dispatchNext { s with
        currentEventConcurrency := s.currentEventConcurrency + 1
        nextEventTime := SMessageList.infiniteTimeout } t true now)
    else none
  | .thread t a => if s.Free t then s.threadStep t a else none
  | .resumeScheduling t =>
    if s.Ready t then
      (s.loopers t).current.map fun handler => s.resumeScheduling t handler
    else none
  | .dispatchAllMessages t handler =>
    if s.Ready t ∧ (s.loopers t).InUser then
      some ((s.region handler (some t) (s.handlers handler).unschedule).setLooper t
        { s.loopers t with alls := (handler, false) :: (s.loopers t).alls })
    else none
  | .dispatchAll t =>
    if s.Ready t then
      match (s.loopers t).alls with
      | [] => none
      | (handler, _) :: alls =>
        let result := (s.handlers handler).dispatchMessage
        some ((s.region handler none (result.1, none)).setLooper t { s.loopers t with
          alls := if result.2 then (handler, true) :: alls else alls })
    else none
  | .release handler =>
    if s.gone handler then none
    else some { s.region handler none (s.handlers handler).unschedule with
      gone := update s.gone handler true }

end BProcess

end OpenBinder
