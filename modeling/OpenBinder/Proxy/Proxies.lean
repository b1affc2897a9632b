import Mathlib.Algebra.Ring.Int.Defs
import Mathlib.Algebra.Ring.Nat
import Mathlib.Data.Int.Order.Basic
import OpenBinder.Lib.Run

/-!
# Proxies

A process has one `BpBinder` for each handle that it has been given. The handle table refers to it
without a reference, the `SAtom` counts say when the driver is to be told, and a proxy is destroyed
by the thread that drops the last weak reference. Threads get in between at every region under
`m_handleRefLock`, at every operation on a count and at every command that is written.

* `Proxy`: the counts of a proxy.
* `Stage`: where a thread is that has begun an operation and not ended it.
* `Proxies.step`: what a thread does next.
* `Proxies.Accounted`: what is claimed of every state.
-/

namespace OpenBinder

open Lib Function

def initialPrimaryValue : ℤ := 2 ^ 28

/-- A `BpBinder`, with its counts, whether its memory has been freed, and whether it was made for a
`wptr` that there was no memory for. -/
structure Proxy where
  handle : ℕ
  strong : ℤ
  weak : ℤ
  freed : Bool
  lost : Bool

namespace Proxy

def incWeak (b : Proxy) : Proxy := { b with weak := b.weak + 1 }

/-- The count of `DecWeak`. -/
def decWeak (b : Proxy) : Proxy := { b with weak := b.weak - 1 }

/-- The count of `IncStrong`, without the initial value. -/
def incStrong (b : Proxy) : Proxy :=
  { b with strong := if b.strong = initialPrimaryValue then 1 else b.strong + 1 }

/-- The count of `DecStrong`. -/
def decStrong (b : Proxy) : Proxy := { b with strong := b.strong - 1 }

/-- The number of strong references. -/
def strongCount (b : Proxy) : ℤ := if b.strong = initialPrimaryValue then 0 else b.strong

/-- A proxy that was just made. -/
def new (handle : ℕ) : Proxy := ⟨handle, initialPrimaryValue, 0, false, false⟩

section

variable (b : Proxy)

@[simp] theorem incWeak_weak : b.incWeak.weak = b.weak + 1 := rfl

@[simp] theorem incWeak_strong : b.incWeak.strong = b.strong := rfl

@[simp] theorem incWeak_strongCount : b.incWeak.strongCount = b.strongCount := rfl

@[simp] theorem incWeak_freed : b.incWeak.freed = b.freed := rfl

@[simp] theorem decWeak_weak : b.decWeak.weak = b.weak - 1 := rfl

@[simp] theorem decWeak_strong : b.decWeak.strong = b.strong := rfl

@[simp] theorem decWeak_strongCount : b.decWeak.strongCount = b.strongCount := rfl

@[simp] theorem decWeak_freed : b.decWeak.freed = b.freed := rfl

@[simp] theorem incStrong_weak : b.incStrong.weak = b.weak := rfl

@[simp] theorem incStrong_freed : b.incStrong.freed = b.freed := rfl

@[simp] theorem decStrong_weak : b.decStrong.weak = b.weak := rfl

@[simp] theorem decStrong_freed : b.decStrong.freed = b.freed := rfl

end

theorem incStrong_spec {b : Proxy} (hrange : 0 ≤ b.strong ∧ b.strong ≤ initialPrimaryValue)
    (hroom : b.strong ≠ initialPrimaryValue - 1) :
    b.incStrong.strongCount = b.strongCount + 1 ∧ 0 < b.incStrong.strong ∧
      b.incStrong.strong < initialPrimaryValue := by
  have hone : (1 : ℤ) ≠ initialPrimaryValue ∧ (1 : ℤ) < initialPrimaryValue := by decide
  unfold incStrong strongCount
  dsimp only
  by_cases hinit : b.strong = initialPrimaryValue
  · rw [if_pos hinit, if_neg hone.1, if_pos hinit]
    omega
  · rw [if_neg hinit, if_neg (by omega : ¬ b.strong + 1 = initialPrimaryValue), if_neg hinit]
    omega

theorem decStrong_spec {b : Proxy} (hrange : 0 ≤ b.strong ∧ b.strong ≤ initialPrimaryValue)
    (hpos : 0 < b.strongCount) :
    b.strongCount = b.strong ∧ b.decStrong.strongCount = b.strongCount - 1 ∧
      0 ≤ b.decStrong.strong ∧ b.decStrong.strong < initialPrimaryValue := by
  have hinit : b.strong ≠ initialPrimaryValue := by
    intro hinit
    unfold strongCount at hpos
    rw [if_pos hinit] at hpos
    exact lt_irrefl 0 hpos
  unfold strongCount at hpos ⊢
  rw [if_neg hinit] at hpos
  unfold decStrong
  dsimp only
  rw [if_neg hinit, if_neg (by omega)]
  omega

end Proxy

/-- A command that is written for a handle, and the reply to `bcATTEMPT_ACQUIRE` if it succeeds. -/
inductive Command where
  | increfs
  | decrefs
  | acquire
  | release
  | attemptAcquire
  | attempted
  deriving DecidableEq

/-- Where a thread is in an operation on a proxy. -/
inductive Stage where
  /-- `DecStrong` has dropped the last strong reference, and calls `FinishAtom`. -/
  | finishing (b : ℕ)
  /-- `DecStrong` calls `DecWeak`. -/
  | decWeak (b : ℕ)
  /-- The destructor calls `ExpungeHandle`. -/
  | expunging (b : ℕ)
  /-- The destructor calls `DecrefsHandle`. -/
  | decrefing (b : ℕ)
  /-- The memory is to be freed. -/
  | freeing (b : ℕ)
  /-- `IncStrong` has called `IncWeak`. -/
  | copying (b : ℕ)
  /-- `IncStrong` calls `InitAtom`. -/
  | initCopied (b : ℕ)
  /-- `AttemptIncStrong` has called `IncWeak`. -/
  | promoting (b : ℕ)
  /-- `AttemptIncStrong` calls `IncStrongAttempted`. -/
  | attempting (b : ℕ)
  /-- `AttemptAcquireHandle` waits for the reply. -/
  | waiting (b : ℕ)
  /-- `IncStrongAttempted` has come back with `B_OK`. -/
  | attempted (b : ℕ)
  /-- `AttemptIncStrong` calls `FinishAtom`. -/
  | finishingSpare (b : ℕ)
  /-- `AttemptIncStrong` calls `InitAtom`. -/
  | initPromoted (b : ℕ)

/-- The proxies of a process, the references on them that are held by what is not in the middle of
something, the threads that are, and the commands. -/
structure Proxies where
  made : ℕ
  proxies : ℕ → Proxy
  table : ℕ → Option ℕ
  strongRefs : ℕ → ℕ
  weakRefs : ℕ → ℕ
  frames : List Stage
  commands : List (Command × ℕ)
  fatal : Bool

namespace Proxies

/-- What a thread does next. -/
inductive Action where
  /-- `GetStrongProxyForHandle`, and whether there is memory for a new proxy. -/
  | getStrong (handle : ℕ) (newOk : Bool)
  /-- `GetWeakProxyForHandle`, and whether there is memory for a new proxy and for the `wptr`. -/
  | getWeak (handle : ℕ) (newOk weakOk : Bool)
  /-- `IncStrong`, by the owner of a strong reference. -/
  | incStrong (b : ℕ)
  /-- `IncWeak`, by the owner of a reference. -/
  | incWeak (b : ℕ)
  /-- `AttemptIncStrong`, by the owner of a weak reference. -/
  | attemptIncStrong (b : ℕ)
  | decStrong (b : ℕ)
  | decWeak (b : ℕ)
  /-- The next step of a thread; the reply to `bcATTEMPT_ACQUIRE` is a success or not. -/
  | resume (thread : ℕ) (granted : Bool)

/-- A proxy is changed. -/
def modify (s : Proxies) (b : ℕ) (f : Proxy → Proxy) : Proxies :=
  { s with proxies := update s.proxies b (f (s.proxies b)) }

/-- Strong references are held from now on, or no longer. -/
def own (s : Proxies) (b : ℕ) (strong weak : ℕ) : Proxies :=
  { s with
    strongRefs := update s.strongRefs b strong
    weakRefs := update s.weakRefs b weak }

/-- A thread goes on there. -/
def goOn (s : Proxies) (f : Stage) : Proxies := { s with frames := s.frames ++ [f] }

/-- A command is written. -/
def write (s : Proxies) (command : Command) (handle : ℕ) : Proxies :=
  { s with commands := s.commands ++ [(command, handle)] }

section

variable (s : Proxies) (b : ℕ)

section

variable (f : Proxy → Proxy)
include f

@[simp] theorem modify_proxies : (s.modify b f).proxies b = f (s.proxies b) :=
  update_self ..

@[simp] theorem modify_strongRefs : (s.modify b f).strongRefs = s.strongRefs := rfl

@[simp] theorem modify_weakRefs : (s.modify b f).weakRefs = s.weakRefs := rfl

@[simp] theorem modify_table : (s.modify b f).table = s.table := rfl

@[simp] theorem modify_frames : (s.modify b f).frames = s.frames := rfl

@[simp] theorem modify_commands : (s.modify b f).commands = s.commands := rfl

@[simp] theorem modify_fatal : (s.modify b f).fatal = s.fatal := rfl

end

variable (strong weak : ℕ)

@[simp] theorem own_strongRefs : (s.own b strong weak).strongRefs b = strong :=
  update_self ..

@[simp] theorem own_weakRefs : (s.own b strong weak).weakRefs b = weak := update_self ..

@[simp] theorem own_proxies : (s.own b strong weak).proxies = s.proxies := rfl

@[simp] theorem own_table : (s.own b strong weak).table = s.table := rfl

@[simp] theorem own_frames : (s.own b strong weak).frames = s.frames := rfl

@[simp] theorem own_commands : (s.own b strong weak).commands = s.commands := rfl

@[simp] theorem own_fatal : (s.own b strong weak).fatal = s.fatal := rfl

end

/-- The proxy of a handle, if `AttemptIncWeak` succeeds on it. -/
def slot (s : Proxies) (handle : ℕ) : Option ℕ :=
  (s.table handle).filter fun b => 0 < (s.proxies b).weak

/-- A new proxy in the slot of a handle. The constructor calls `IncrefsHandle`. -/
def create (s : Proxies) (handle : ℕ) (b : Proxy) (strong weak : ℕ) : Proxies :=
  { s with
    made := s.made + 1
    proxies := update s.proxies s.made b
    table := update s.table handle (some s.made)
    strongRefs := update s.strongRefs s.made strong
    weakRefs := update s.weakRefs s.made weak
    commands := s.commands ++ [(.increfs, handle)] }

def forceIncStrong (s : Proxies) (b : ℕ) : Proxies :=
  let r := (s.proxies b).strong
  let s := s.modify b fun p => p.incWeak.incStrong
  if r = initialPrimaryValue ∨ r = 0 then s.write .acquire (s.proxies b).handle else s

/-- `IncStrong`, without another thread in between. -/
def incStrong (s : Proxies) (b : ℕ) : Proxies :=
  let r := (s.proxies b).strong
  if r = 0 then { s with fatal := true }
  else
    let s := s.modify b fun p => p.incWeak.incStrong
    if r = initialPrimaryValue then s.write .acquire (s.proxies b).handle else s

/-- `DecStrong`, without another thread in between and not of the last weak reference. -/
def decStrong (s : Proxies) (b : ℕ) : Proxies :=
  let r := (s.proxies b).strong
  let s := s.modify b fun p => p.decStrong.decWeak
  if r = 1 then s.write .release (s.proxies b).handle
  else if r < 1 then { s with fatal := true }
  else s

/-- `GetStrongProxyForHandle`. -/
def getStrong (s : Proxies) (handle : ℕ) (newOk : Bool) : Proxies :=
  match s.slot handle with
  | none =>
    if newOk then
      (s.create handle (Proxy.new handle).incWeak.incStrong 1 0).write .acquire handle
    else { s with table := update s.table handle none }
  | some b =>
    -- the reference of `AttemptIncWeak`, that of the region and that of `r`
    let r := ((s.modify b Proxy.incWeak).forceIncStrong b).incStrong b
    ((r.decStrong b).modify b Proxy.decWeak).own b (s.strongRefs b + 1) (s.weakRefs b)

/-- `GetWeakProxyForHandle`. -/
def getWeak (s : Proxies) (handle : ℕ) (newOk weakOk : Bool) : Proxies :=
  match s.slot handle with
  | none =>
    if newOk then
      if weakOk then s.create handle (Proxy.new handle).incWeak 0 1
      else s.create handle { Proxy.new handle with lost := true } 0 0
    else { s with table := update s.table handle none }
  | some b =>
    -- `AttemptIncWeak`, `r = b` and `DecWeak`
    if weakOk then
      (s.modify b fun p => p.incWeak.incWeak.decWeak).own b (s.strongRefs b) (s.weakRefs b + 1)
    else s.modify b fun p => p.incWeak.decWeak

/-- `DecWeak`. -/
def dropWeak (s : Proxies) (b : ℕ) : Proxies :=
  let r := (s.proxies b).weak
  let s := s.modify b Proxy.decWeak
  if r = 1 then s.goOn (.expunging b) else if r < 1 then { s with fatal := true } else s

/-- `DecStrong`. -/
def dropStrong (s : Proxies) (b : ℕ) : Proxies :=
  let r := (s.proxies b).strong
  let s := s.modify b Proxy.decStrong
  if r = 1 then s.goOn (.finishing b)
  else if r < 1 then { s with fatal := true }
  else s.goOn (.decWeak b)

/-- `AttemptIncStrong` gives its caller a strong reference. -/
def promoted (s : Proxies) (b : ℕ) : Proxies := s.own b (s.strongRefs b + 1) (s.weakRefs b + 1)

/-- The next step of a thread. -/
def resume (s : Proxies) (granted : Bool) : Stage → Proxies
  | .finishing b => (s.write .release (s.proxies b).handle).goOn (.decWeak b)
  | .decWeak b => s.dropWeak b
  | .expunging b =>
    let handle := (s.proxies b).handle
    -- the slot may have been given to another proxy
    let table := if s.table handle = some b then update s.table handle none else s.table
    { s with table := table }.goOn (.decrefing b)
  | .decrefing b => (s.write .decrefs (s.proxies b).handle).goOn (.freeing b)
  | .freeing b => s.modify b fun p => { p with freed := true }
  | .copying b =>
    let r := (s.proxies b).strong
    if r = 0 then { s with fatal := true }
    else if r = initialPrimaryValue then (s.modify b Proxy.incStrong).goOn (.initCopied b)
    else (s.modify b Proxy.incStrong).own b (s.strongRefs b + 2) (s.weakRefs b)
  | .initCopied b =>
    (s.write .acquire (s.proxies b).handle).own b (s.strongRefs b + 2) (s.weakRefs b)
  | .promoting b =>
    let current := (s.proxies b).strong
    if 0 < current ∧ current < initialPrimaryValue then
      (s.modify b fun p => { p with strong := current + 1 }).promoted b
    else if current ≤ 0 ∨ current = initialPrimaryValue then s.goOn (.attempting b)
    else s.promoted b
  | .attempting b => (s.write .attemptAcquire (s.proxies b).handle).goOn (.waiting b)
  | .waiting b =>
    if granted then (s.write .attempted (s.proxies b).handle).goOn (.attempted b)
    else (s.own b (s.strongRefs b) (s.weakRefs b + 1)).goOn (.decWeak b)
  | .attempted b =>
    let current := (s.proxies b).strong
    let s := s.modify b Proxy.incStrong
    -- the driver has given a reference that is not needed
    if 0 < current ∧ current < initialPrimaryValue then s.goOn (.finishingSpare b)
    else if current = initialPrimaryValue then s.goOn (.initPromoted b)
    else s.promoted b
  | .finishingSpare b => (s.write .release (s.proxies b).handle).promoted b
  | .initPromoted b => (s.write .acquire (s.proxies b).handle).promoted b

/-- **A step.** A thread operates on a proxy that it owns a reference on. -/
def step (s : Proxies) : Action → Option Proxies
  | .getStrong handle newOk => some (s.getStrong handle newOk)
  | .getWeak handle newOk weakOk => some (s.getWeak handle newOk weakOk)
  | .incStrong b =>
    if s.strongRefs b = 0 then none
    else some (((s.own b (s.strongRefs b - 1) (s.weakRefs b)).modify b Proxy.incWeak).goOn
      (.copying b))
  | .incWeak b =>
    if s.strongRefs b = 0 ∧ s.weakRefs b = 0 then none
    else some ((s.own b (s.strongRefs b) (s.weakRefs b + 1)).modify b Proxy.incWeak)
  | .attemptIncStrong b =>
    if s.weakRefs b = 0 then none
    else some (((s.own b (s.strongRefs b) (s.weakRefs b - 1)).modify b Proxy.incWeak).goOn
      (.promoting b))
  | .decStrong b =>
    if s.strongRefs b = 0 then none
    else some ((s.own b (s.strongRefs b - 1) (s.weakRefs b)).dropStrong b)
  | .decWeak b =>
    if s.weakRefs b = 0 then none
    else some ((s.own b (s.strongRefs b) (s.weakRefs b - 1)).dropWeak b)
  | .resume thread granted => do
    let f ← s.frames[thread]?
    return { s with frames := s.frames.eraseIdx thread }.resume granted f

/-- No proxy has been made. -/
def init : Proxies :=
  ⟨0, fun _ => Proxy.new 0, fun _ => none, fun _ => 0, fun _ => 0, [], [], false⟩

/-! ### What is claimed -/

/-- A proxy that has been made and not freed. -/
def Live (s : Proxies) (b : ℕ) : Prop := b < s.made ∧ (s.proxies b).freed = false

/-- How many live proxies of a handle there are. -/
def liveCount (s : Proxies) (handle : ℕ) : ℕ :=
  (List.range s.made).countP fun b =>
    (s.proxies b).handle = handle && !(s.proxies b).freed

/-- How many live proxies of a handle have a strong reference. -/
def strongCount (s : Proxies) (handle : ℕ) : ℕ :=
  (List.range s.made).countP fun b =>
    ((s.proxies b).handle = handle && !(s.proxies b).freed) &&
      decide (0 < (s.proxies b).strongCount)

/-- How often a command was written for a handle. -/
def count (s : Proxies) (command : Command) (handle : ℕ) : ℤ := s.commands.count (command, handle)

/-- **The counts of the driver are exact** when nothing is in progress, a live proxy is the one of
its handle, and no slot refers to memory that has been freed. -/
structure Accounted (s : Proxies) : Prop where
  acquired : s.frames = [] → ∀ handle, s.count .acquire handle + s.count .attempted handle -
    s.count .release handle = s.strongCount handle
  increfed : s.frames = [] → ∀ handle, s.count .increfs handle - s.count .decrefs handle =
    s.liveCount handle
  one : s.frames = [] → ∀ b, s.Live b → (s.proxies b).lost = false →
    s.table (s.proxies b).handle = some b
  slots : ∀ handle b, s.table handle = some b → s.Live b ∧ (s.proxies b).handle = handle
  sound : s.fatal = false

/-- **What a step observes**: there is room in the strong count, and no proxy without a first strong
reference is given one by the driver. -/
def Observes (s : Proxies) : Action → Prop
  | .getStrong handle _ => ∀ b, s.slot handle = some b →
    (s.proxies b).strong ≠ initialPrimaryValue - 1
  | .resume thread _ => ∀ f, s.frames[thread]? = some f →
    match f with
    | .copying b | .promoting b => (s.proxies b).strong ≠ initialPrimaryValue - 1
    | .attempted b => (s.proxies b).strong ≠ initialPrimaryValue - 1 ∧
      (s.proxies b).strong ≠ initialPrimaryValue
    | _ => True
  | _ => True

end Proxies

end OpenBinder
