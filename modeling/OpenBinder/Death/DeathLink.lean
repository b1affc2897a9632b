import OpenBinder.Parcel.Storage
import OpenBinder.Remote.Values
import OpenBinder.Stream.Effect

/-!
# Death links

A proxy keeps the obituaries that were asked for with `LinkToDeath` and reports them when it
learns that its object has died. Threads get in between at every region under `m_lock` and at
every read of `m_alive` without it.

* `Obituary.calls`: what a target is called with.
* `BpBinder.Proxy`: the proxy and the threads that are in the middle of something.
* `BpBinder.step`: what a thread does next.
* `BpBinder.Exact`: what the claim of a step is.
-/

namespace OpenBinder

open Lib

def binderDead : ℤ := (BitVec.ofNat 32 0x80004a03).toInt

def nameNotFound : ℤ := (BitVec.ofNat 32 0x8000052c).toInt

def noTranslateLink : BitVec 32 := 0x00000004#32

def unlinkAllTargets : BitVec 32 := 0x00000008#32

def kPrivateLinkFlagMask : BitVec 32 := 0x70000000#32

def kIsALink : BitVec 32 := 0x80000000#32

/-- `BpBinder::Obituary`. A weak pointer is who it points to. -/
structure Obituary (T : Type) where
  target : T
  method : SValue
  flags : BitVec 32

/-- A call of the target of an obituary. -/
inductive DeathCall where
  | invoke (key value : SValue)
  | unlink (binding : SValue) (flags : BitVec 32)

/-- One round of the loop of `report_one_death`. `self` is a weak binder of the proxy. -/
def reportItem (self : SValue) (flags : BitVec 32) (key value : SValue) : Option DeathCall :=
  if !key.isWild then
    if flags &&& noTranslateLink = 0 then
      (SValue.joinItem value (.int32 0) self Flags.none).map (.invoke key)
    else some (.invoke key value)
  else if flags &&& noTranslateLink = 0 then
    (SValue.initAsMap Flags.none (.int32 0) self).map (.invoke value)
  else some (.invoke key value)

/-- What `report_one_death` calls a target with that is still there. -/
def Obituary.calls {T : Type} (self : SValue) (obit : Obituary T) : Option (List DeathCall) :=
  if obit.flags &&& kIsALink = 0 then
    obit.method.items.mapM fun item => reportItem self obit.flags item.1 item.2
  else some [.unlink obit.method (obit.flags &&& ~~~kIsALink)]

namespace BpBinder

/-- An obituary, with the number of the `LinkToDeath` that it was given to. -/
structure Filed (T : Type) where
  number : ℕ
  obit : Obituary T

/-- Where a thread is. -/
inductive Frame (T : Type) where
  /-- `Transact` has found the proxy alive, and its transaction is out. -/
  | transacting
  /-- The transaction has come back dead, and `SendObituary` is called. -/
  | bereaved
  /-- `SendObituary` has found the proxy alive, and is about to lock. -/
  | sending
  /-- `SendObituary` has the obituaries left to report. -/
  | reporting (obits : List (Filed T))
  /-- `LinkToDeath` has found the proxy dead. -/
  | late (obit : Filed T)

/-- What has happened. -/
inductive Event (T : Type) where
  /-- `LinkToDeath` has come back. -/
  | linked (obit : Filed T) (status : ℤ)
  /-- `UnlinkToDeath` has come back, and has removed these. -/
  | unlinked (removed : List (Filed T)) (status : ℤ)
  /-- The target was there and has been called. -/
  | reported (obit : Filed T) (calls : Option (List DeathCall))
  /-- The target could not be promoted any more. -/
  | missed (obit : Filed T)

/-- A proxy, with the threads in it, the targets that cannot be promoted any more, what has
happened, and how many obituaries it was given. -/
structure Proxy (T : Type) where
  alive : Bool
  obituaries : Option (List (Filed T))
  frames : List (Frame T)
  gone : List T
  log : List (Event T)
  count : ℕ

/-- What a thread, or the world, does next. -/
inductive Action (T : Type) where
  /-- The region of `LinkToDeath`, and whether there is memory for the vector and for the item. -/
  | linkToDeath (obit : Obituary T) (newOk addOk : Bool)
  | unlinkToDeath (target : T) (method : SValue) (flags : BitVec 32)
  /-- The read of `m_alive` in `Transact`. -/
  | transact
  /-- The read of `m_alive` in `SendObituary`. -/
  | sendObituary
  /-- The next step of a thread; `Transact` has come back with the status. -/
  | resume (thread : ℕ) (status : ℤ)
  | die (target : T)

variable {T : Type} [DecidableEq T]

/-- Whether `UnlinkToDeath` is about an obituary. -/
def Filed.matches (target : T) (method : SValue) (flags : BitVec 32) (o : Filed T) : Bool :=
  o.obit.target = target &&
    ((o.obit.method.compare method == .eq && o.obit.flags &&& ~~~kPrivateLinkFlagMask == flags) ||
      flags &&& unlinkAllTargets != 0)

/-- The loop of `UnlinkToDeath`: the obituaries in front of the index and from it on, and whether
one was found. The vector is deleted with its last item. -/
def unlinkLoop (found : Filed T → Bool) :
    List (Filed T) → List (Filed T) → Bool → Option (List (Filed T)) × Bool
  | front, [], any => (some front, any)
  | front, o :: rest, any =>
    if found o then
      if front.length + (rest.length + 1) = 1 then (none, true) else unlinkLoop found front rest true
    else unlinkLoop found (front ++ [o]) rest any

/-- `report_one_death`. -/
def report (self : SValue) (gone : List T) (o : Filed T) : Event T :=
  if o.obit.target ∈ gone then .missed o else .reported o (o.obit.calls self)

/-- The region of `LinkToDeath`, with the result if it comes back. -/
def Proxy.link (s : Proxy T) (o : Filed T) (newOk addOk : Bool) : Proxy T :=
  if s.alive then
    if s.obituaries.isNone && !newOk then { s with log := s.log ++ [.linked o noMemory] }
    else
      let obits := s.obituaries.getD []
      if addOk then
        { s with obituaries := some (obits ++ [o]), log := s.log ++ [.linked o obits.length] }
      else { s with obituaries := some obits, log := s.log ++ [.linked o noMemory] }
  else { s with frames := s.frames ++ [.late o] }

/-- `UnlinkToDeath`. -/
def Proxy.unlink (s : Proxy T) (target : T) (method : SValue) (flags : BitVec 32) : Proxy T :=
  match s.obituaries with
  | none => { s with log := s.log ++ [.unlinked [] nameNotFound] }
  | some obits =>
    let found := Filed.matches target method flags
    let r := unlinkLoop found [] obits false
    { s with obituaries := r.1, log := s.log ++
      [.unlinked (obits.filter found) (if r.2 then 0 else nameNotFound)] }

/-- The next step of a thread that is in the middle of something. What it is then goes back among
the others. -/
def Proxy.resume (self : SValue) (s : Proxy T) (status : ℤ) : Frame T → Proxy T
  | .transacting =>
    if status = binderDead then { s with frames := s.frames ++ [.bereaved] } else s
  | .bereaved => if s.alive then { s with frames := s.frames ++ [.sending] } else s
  | .sending =>
    let s' := { s with obituaries := none, alive := false }
    match s.obituaries with
    | none => s'
    | some obits => { s' with frames := s.frames ++ [.reporting obits] }
  | .reporting [] => s
  | .reporting (o :: obits) =>
    { s with frames := s.frames ++ [.reporting obits], log := s.log ++ [report self s.gone o] }
  | .late o => { s with log := s.log ++ [report self s.gone o, .linked o binderDead] }

/-- **A step.** -/
def step (self : SValue) (s : Proxy T) : Action T → Option (Proxy T)
  | .linkToDeath obit newOk addOk =>
    some ({ s with count := s.count + 1 }.link ⟨s.count, obit⟩ newOk addOk)
  | .unlinkToDeath target method flags => some (s.unlink target method flags)
  | .transact => some (if s.alive then { s with frames := s.frames ++ [.transacting] } else s)
  | .sendObituary => some (if s.alive then { s with frames := s.frames ++ [.sending] } else s)
  | .resume thread status => do
    let frame ← s.frames[thread]?
    return { s with frames := s.frames.eraseIdx thread }.resume self status frame
  | .die target => some { s with gone := target :: s.gone }

/-- A proxy that was just made. -/
def Proxy.init : Proxy T := ⟨true, none, [], [], [], 0⟩

/-! ### Where the obituaries are -/

namespace Frame

/-- The obituaries that a thread is to report. -/
def obits : Frame T → List (Filed T)
  | reporting obits => obits
  | late o => [o]
  | _ => []

end Frame

namespace Event

/-- The obituaries that were removed. -/
def removed : Event T → List (Filed T)
  | unlinked removed _ => removed
  | _ => []

/-- The obituaries whose targets were called, or were not there any more. -/
def told : Event T → List (Filed T)
  | reported o _ => [o]
  | missed o => [o]
  | _ => []

/-- The obituaries that there was no memory for. -/
def refused : Event T → List (Filed T)
  | linked o status => if status = noMemory then [o] else []
  | _ => []

end Event

namespace Proxy

variable (s : Proxy T)

/-- The obituaries that are registered. -/
def held : List (Filed T) := s.obituaries.getD []

/-- The obituaries that threads are to report. -/
def carried : List (Filed T) := s.frames.flatMap Frame.obits

def removed : List (Filed T) := s.log.flatMap Event.removed
def told : List (Filed T) := s.log.flatMap Event.told
def refused : List (Filed T) := s.log.flatMap Event.refused

/-- Everywhere that an obituary can be. -/
def places : List (Filed T) := s.held ++ s.carried ++ s.removed ++ s.told ++ s.refused

end Proxy

/-- **No obituary is lost or reported twice**: each that was given to the proxy is in one place
once; none is registered with a dead proxy, and none is told of while it is alive; and only those
whose targets are gone are missed. -/
structure Accounted (s : Proxy T) : Prop where
  once : (s.places.map Filed.number).Perm (List.range s.count)
  dead : s.alive = false → s.held = []
  alive : s.alive = true → s.carried = [] ∧ s.told = []
  missed : ∀ o, .missed o ∈ s.log → o.obit.target ∈ s.gone

/-- **`LinkToDeath` says what it did**: the result is `B_OK` exactly if the obituary is registered. -/
def Answered (s s' : Proxy T) (obit : Obituary T) : Prop :=
  ∀ status, .linked ⟨s.count, obit⟩ status ∈ s'.log → (status = 0 ↔ ⟨s.count, obit⟩ ∈ s'.held)

/-- **`UnlinkToDeath` does what it says**: those that match are removed, and no others, and the
result is `B_OK` exactly if there are any. -/
def Unlinked (s s' : Proxy T) (found : Filed T → Bool) : Prop :=
  s'.held = s.held.filter (!found ·) ∧
    ∃ status, s'.log = s.log ++ [.unlinked (s.held.filter found) status] ∧
      (status = 0 ↔ s.held.any found = true)

/-- **What a step is claimed to do.** -/
structure Exact (proxy : SValue) (s : Proxy T) (a : Action T) : Prop where
  accounted : ∀ s', step proxy s a = some s' → Accounted s'
  linked : ∀ obit newOk addOk s', a = .linkToDeath obit newOk addOk → step proxy s a = some s' →
    Answered s s' obit
  late : ∀ thread status o s', a = .resume thread status → s.frames[thread]? = some (.late o) →
    step proxy s a = some s' → s'.log = s.log ++ [report proxy s.gone o, .linked o binderDead] ∧
      o ∉ s'.held
  unlinked : ∀ target method flags s', a = .unlinkToDeath target method flags →
    step proxy s a = some s' → Unlinked s s' (Filed.matches target method flags)

/-- **What a step observes**: an obituary is registered only if no other one is. -/
def Observes (s : Proxy T) : Action T → Prop
  | .linkToDeath _ newOk addOk =>
    s.alive = true → (s.obituaries.isSome || newOk) = true → addOk = true → s.held = []
  | _ => True

end BpBinder

end OpenBinder
