import OpenBinder.Death.DeathLink
import OpenBinder.Lib.Keyed
import OpenBinder.Remote.Parameter
import OpenBinder.Value.Arguments

/-!
# The informant

Targets register with an informant to be called when a key is pushed. The registrations of a key
are a vector that is sorted by flags, target and method, and a target that is held weakly is what
the weak pointer gives when it is asked: `NULL` from the moment when the target has died.

* `CallbackInfo`, `InformList`: the registrations.
* `BInformant`: an informant, the threads that are in `Inform`, the messages that are on their way.
* `BInformant.step`: what happens next.
* `BInformant.Exact`: what is claimed of a step.
-/

namespace OpenBinder

open Lib

def weakBinderLink : BitVec 32 := 0x00000001#32

def syncBinderLink : BitVec 32 := 0x00000002#32

def nameInUse : ℤ := (BitVec.ofNat 32 0x8000052d).toInt

structure CallbackInfo where
  mTarget : BitVec 32
  mMethod : SValue
  mFlags : BitVec 32
  mCookie : SValue

namespace CallbackInfo

def isWeak (info : CallbackInfo) : Bool := info.mFlags &&& weakBinderLink != 0

def isSync (info : CallbackInfo) : Bool := info.mFlags &&& syncBinderLink != 0

/-- `CallbackInfo::Target`, when these objects have died. -/
def target (gone : List (BitVec 32)) (info : CallbackInfo) : BitVec 32 :=
  if info.isWeak && decide (info.mTarget ∈ gone) then 0 else info.mTarget

/-- The reference that is held on the target. -/
def ref (info : CallbackInfo) : BitVec 32 × Bool := (info.mTarget, info.isWeak)

/-- `BCompare`. -/
protected def compare (gone : List (BitVec 32)) (l r : CallbackInfo) : Ordering :=
  (cmpInt l.mFlags.toNat r.mFlags.toNat).then
    ((cmpInt (l.target gone).toNat (r.target gone).toNat).then (l.mMethod.compare r.mMethod))

/-- The same registration, whatever its cookie. -/
def Same (l r : CallbackInfo) : Prop :=
  l.mTarget = r.mTarget ∧ l.mFlags = r.mFlags ∧ l.mMethod.Equal r.mMethod

/-- `BCompare` of a registration with the one at a position. -/
def verdict (gone : List (BitVec 32)) (infos : List CallbackInfo) (info : CallbackInfo) (i : ℕ) :
    Ordering :=
  match infos[i]? with
  | some r => (info.compare gone r).swap
  | none => .gt

/-- `SAbstractSortedVector::GetOrderOf`. -/
def getOrderOf (gone : List (BitVec 32)) (infos : List CallbackInfo) (info : CallbackInfo) :
    Bool × ℕ :=
  bisect (verdict gone infos info) infos.length 0 infos.length

end CallbackInfo

open CallbackInfo

/-- `InformList<CallbackInfo>`. -/
structure InformList where
  mList : Keyed cmpCode (List CallbackInfo)

namespace InformList

def find (l : InformList) (key : SValue) : List CallbackInfo := (l.mList.valueFor key.code).getD []

/-- `InformList::Add`, and whether there is memory for the item and, where the key is new, for the
key. -/
def add (gone : List (BitVec 32)) (l : InformList) (key : SValue) (info : CallbackInfo)
    (infoOk keyOk : Bool) : InformList × ℤ :=
  match l.mList.valueFor key.code with
  | some registered =>
    let pos := getOrderOf gone registered info
    if pos.1 then (l, nameInUse)
    else if infoOk then (⟨l.mList.add key.code (registered.insertIdx pos.2 info)⟩, 0)
    else (l, noMemory)
  | none => if infoOk && keyOk then (⟨l.mList.add key.code [info]⟩, 0) else (l, noMemory)

/-- `InformList::Remove`, with what is removed. -/
def remove (gone : List (BitVec 32)) (l : InformList) (key : SValue) (info : CallbackInfo) :
    InformList × Option CallbackInfo :=
  match l.mList.valueFor key.code with
  | none => (l, none)
  | some infoList =>
    let pos := getOrderOf gone infoList info
    let left := if pos.1 then infoList.eraseIdx pos.2 else infoList
    (⟨if left.isEmpty then l.mList.remove key.code else l.mList.add key.code left⟩,
      if pos.1 then infoList[pos.2]? else none)

/-- All registrations. -/
def infos (l : InformList) : List CallbackInfo := l.mList.items.flatMap Prod.snd

end InformList

namespace SValue

/-- An `SValue` of a strong binder. -/
def ofBinder (binder : BitVec 32) : SValue := object ⟨kPackedLargeBinderType, binder, 0⟩

/-- The strong binder that a value is of, or `NULL`. -/
def binder (v : SValue) : BitVec 32 :=
  match v.toObject fun _ _ => 0 with
  | some o => if o.isStrong then o.binder else 0
  | none => 0

/-- A value with one more item. Under a new key there is always a result. -/
def withItem (this : SValue) (key : BitVec 32) (value : SValue) : SValue :=
  (this.joinItem (int32 key) value Flags.none).getD undefined

end SValue

namespace BInformant

/-- The arguments of a call. -/
def callArgs (information cookie key : SValue) : SValue :=
  (((SValue.initAsMap Flags.none (.int32 0) information).getD .undefined).withItem 1 cookie).withItem
    2 key

/-- The message of an asynchronous call. -/
def callMessage (target : BitVec 32) (method args : SValue) : SValue :=
  ((SValue.undefined.withItem 0 (.ofBinder target)).withItem 1 method).withItem 2 args

/-- Where a thread is with a registration. -/
inductive Phase where
  /-- The target is to be promoted. -/
  | calling
  /-- The target has been promoted, and is to be called. -/
  | promoted
  /-- The target could not be promoted, and the registration is to be removed. -/
  | removing
  deriving DecidableEq

/-- A thread in `Inform`, with the number of the call and the copy of the registrations. -/
structure Informing where
  number : ℕ
  key : SValue
  information : SValue
  callbacks : List CallbackInfo
  i : ℕ
  phase : Phase

/-- A message on its way, with the registration of the `Inform` that it was posted for. -/
structure Posted where
  number : ℕ
  i : ℕ
  message : SValue

/-- What a call of `Inform` is about, and the registrations when it began. -/
structure Start where
  key : SValue
  information : SValue
  callbacks : List CallbackInfo

/-- What has happened. -/
inductive Event where
  | registered (key : SValue) (info : CallbackInfo) (status : ℤ)
  | unregistered (key : SValue) (info : CallbackInfo) (status : ℤ)
  /-- A target was called. -/
  | called (number i : ℕ) (target : BitVec 32) (method args : SValue)
  /-- A target could not be promoted. -/
  | missed (number i : ℕ)

/-- The references that are held, strong ones (`false`) and weak ones. -/
abbrev Refs := BitVec 32 → Bool → ℤ

def Refs.inc (refs : Refs) (t : BitVec 32) (weak : Bool) : Refs :=
  fun t' weak' => if t ≠ 0 ∧ t' = t ∧ weak' = weak then refs t' weak' + 1 else refs t' weak'

def Refs.dec (refs : Refs) (t : BitVec 32) (weak : Bool) : Refs :=
  fun t' weak' => if t ≠ 0 ∧ t' = t ∧ weak' = weak then refs t' weak' - 1 else refs t' weak'

/-- The constructors of `CallbackInfo`. -/
def Refs.hold (refs : Refs) (info : CallbackInfo) : Refs := refs.inc info.mTarget info.isWeak

/-- The destructor of `CallbackInfo`. -/
def Refs.drop (refs : Refs) (info : CallbackInfo) : Refs := refs.dec info.mTarget info.isWeak

end BInformant

/-- An informant, the references that it holds, the objects that have died, what is going on and
what has happened. -/
structure BInformant where
  callbacks : InformList
  refs : BInformant.Refs
  gone : List (BitVec 32)
  informs : List BInformant.Informing
  posted : List BInformant.Posted
  started : List BInformant.Start
  log : List BInformant.Event

namespace BInformant

/-- What happens next. -/
inductive Action where
  | registerForCallback (key : SValue) (info : CallbackInfo) (infoOk keyOk : Bool)
  | unregisterForCallback (key : SValue) (info : CallbackInfo)
  /-- The region of `Inform`, and whether there is memory for the copy. -/
  | inform (key information : SValue) (copyOk : Bool)
  /-- The next step of a thread in `Inform`, and whether there is memory for the message. -/
  | resume (thread : ℕ) (postOk : Bool)
  /-- `HandleMessage`. -/
  | handleMessage (n : ℕ)
  /-- An object dies that no strong reference is held to. -/
  | die (target : BitVec 32)
  /-- An object is made where one was that no reference is held to any more. -/
  | born (target : BitVec 32)

/-- `RegisterForCallback`. -/
def register (s : BInformant) (key : SValue) (info : CallbackInfo) (infoOk keyOk : Bool) :
    BInformant :=
  let held := s.refs.hold info
  let r := s.callbacks.add s.gone key info infoOk keyOk
  { s with
    callbacks := r.1
    refs := (if r.2 = 0 then held.hold info else held).drop info
    log := s.log ++ [.registered key info r.2] }

/-- `UnregisterForCallback`. -/
def unregister (s : BInformant) (key : SValue) (info : CallbackInfo) : BInformant :=
  let held := s.refs.hold info
  let r := s.callbacks.remove s.gone key info
  { s with
    callbacks := r.1
    refs := (r.2.elim held held.drop).drop info
    log := s.log ++ [.unregistered key info (if r.2.isSome then 0 else nameNotFound)] }

/-- The region of `Inform`. -/
def inform (s : BInformant) (key information : SValue) (copyOk : Bool) : BInformant :=
  let registered := s.callbacks.find key
  let callbacks := if copyOk then registered else []
  { s with
    informs := s.informs ++ [⟨s.started.length, key, information, callbacks, 0, .calling⟩]
    refs := callbacks.foldl Refs.hold s.refs
    started := s.started ++ [⟨key, information, registered⟩] }

/-- What happens to a registration of a thread in `Inform`. -/
def resume (s : BInformant) (postOk : Bool) (t : Informing) (info : CallbackInfo) : BInformant :=
  let next := { t with i := t.i + 1, phase := .calling }
  match t.phase with
  | .calling =>
    if info.target s.gone = 0 then
      { s with
        informs := s.informs ++ [{ t with phase := .removing }]
        log := s.log ++ [.missed t.number t.i] }
    else
      { s with
        informs := s.informs ++ [{ t with phase := .promoted }]
        refs := s.refs.inc info.mTarget false }
  | .promoted =>
    let args := callArgs t.information info.mCookie t.key
    if info.isSync then
      { s with
        informs := s.informs ++ [next]
        refs := s.refs.dec info.mTarget false
        log := s.log ++ [.called t.number t.i info.mTarget info.mMethod args] }
    else
      let message := callMessage info.mTarget info.mMethod args
      if postOk then
        { s with
          informs := s.informs ++ [next]
          refs := (s.refs.inc (message.valueFor (.int32 0)).binder false).dec info.mTarget false
          posted := s.posted ++ [⟨t.number, t.i, message⟩] }
      else
        { s with informs := s.informs ++ [next], refs := s.refs.dec info.mTarget false }
  | .removing =>
    let r := s.callbacks.remove s.gone t.key info
    { s with
      callbacks := r.1
      informs := s.informs ++ [next]
      refs := r.2.elim s.refs s.refs.drop }

/-- `HandleMessage`. -/
def handle (s : BInformant) (p : Posted) : BInformant :=
  let obj := (p.message.valueFor (.int32 0)).binder
  if obj ≠ 0 then
    { s with
      refs := s.refs.dec obj false
      log := s.log ++ [.called p.number p.i obj (p.message.valueFor (.int32 1))
        (p.message.valueFor (.int32 2))] }
  else s

/-- **A step.** A caller holds on to the target that it registers or unregisters. -/
def step (s : BInformant) : Action → Option BInformant
  | .registerForCallback key info infoOk keyOk =>
    if info.mTarget ∈ s.gone then none else some (s.register key info infoOk keyOk)
  | .unregisterForCallback key info =>
    if info.mTarget ∈ s.gone then none else some (s.unregister key info)
  | .inform key information copyOk => some (s.inform key information copyOk)
  | .resume thread postOk => do
    let t ← s.informs[thread]?
    let others := { s with informs := s.informs.eraseIdx thread }
    match t.callbacks[t.i]? with
    | some info => return others.resume postOk t info
    | none => return { others with refs := t.callbacks.foldl Refs.drop s.refs }
  | .handleMessage n => do
    let p ← s.posted[n]?
    return { s with posted := s.posted.eraseIdx n }.handle p
  | .die target =>
    if target = 0 ∨ s.refs target false ≠ 0 then none
    else some { s with gone := target :: s.gone }
  | .born target =>
    if s.refs target false ≠ 0 ∨ s.refs target true ≠ 0 then none
    else some { s with gone := s.gone.filter (· != target) }

/-- An informant that was just made. -/
def init : BInformant := ⟨⟨Keyed.empty⟩, fun _ _ => 0, [], [], [], [], []⟩

/-! ### What is claimed -/

/-- A registration of the key is there. -/
def Registered (s : BInformant) (key : SValue) (info : CallbackInfo) : Prop :=
  ∃ r ∈ s.callbacks.find key, r.Same info

/-- The registrations that a thread in `Inform` still has to call. -/
def Informing.due (t : Informing) : List (ℕ × ℕ) :=
  let first := match t.phase with
    | .removing => t.i + 1
    | _ => t.i
  (List.range' first (t.callbacks.length - first)).map (t.number, ·)

/-- The registration that was called or missed. -/
def Event.told : Event → List (ℕ × ℕ)
  | .called number i _ _ _ => [(number, i)]
  | .missed number i => [(number, i)]
  | _ => []

/-- Everywhere that a registration of a call of `Inform` can be. -/
def places (s : BInformant) : List (ℕ × ℕ) :=
  s.informs.flatMap Informing.due ++ s.posted.map (fun p => (p.number, p.i)) ++
    s.log.flatMap Event.told

/-- What the calls of `Inform` have to call. -/
def issued (s : BInformant) : List (ℕ × ℕ) :=
  s.started.zipIdx.flatMap fun start =>
    (List.range start.1.callbacks.length).map (start.2, ·)

/-- The references that a thread in `Inform` holds. -/
def Informing.held (t : Informing) : List (BitVec 32 × Bool) :=
  t.callbacks.map CallbackInfo.ref ++
    match t.phase with
    | .promoted => (t.callbacks[t.i]?.map fun info => (info.mTarget, false)).toList
    | _ => []

/-- The reference that a message holds. -/
def Posted.held (p : Posted) : BitVec 32 × Bool := ((p.message.valueFor (.int32 0)).binder, false)

/-- The references that are to be held. -/
def held (s : BInformant) : List (BitVec 32 × Bool) :=
  s.callbacks.infos.map CallbackInfo.ref ++ s.informs.flatMap Informing.held ++
    s.posted.map Posted.held

/-- **No registration is lost or called twice**: each registration that is there when an `Inform`
begins is in one place once, a call is of its target and its method with its cookie, no two
registrations of a key are the same, and what is referred to is what is there. -/
structure Accounted (s : BInformant) : Prop where
  once : s.places.Perm s.issued
  called : ∀ number i target method args, .called number i target method args ∈ s.log →
    ∃ start info, s.started[number]? = some start ∧ start.callbacks[i]? = some info ∧
      target = info.mTarget ∧ method.Equal info.mMethod ∧
        (args.valueFor (.int32 1)).Equal info.mCookie
  distinct : ∀ key, (s.callbacks.find key).Pairwise fun l r => ¬ l.Same r
  refs : ∀ t weak, t ≠ 0 → s.refs t weak = (s.held.count (t, weak) : ℕ)
  alive : ∀ t, t ≠ 0 → 0 < s.refs t false → t ∉ s.gone

/-- A key is not looked at. -/
def Others (s s' : BInformant) (key : SValue) : Prop :=
  ∀ key' : SValue, ¬ key'.Equal key → s'.callbacks.find key' = s.callbacks.find key'

/-- What a step says of calls: a target is called only while it is there, and missed only if it is
not. -/
structure Told (s : BInformant) (events : List Event) : Prop where
  called : ∀ number i target method args, .called number i target method args ∈ events →
    target ∉ s.gone
  missed : ∀ number i, .missed number i ∈ events → ∃ start info, s.started[number]? = some start ∧
    start.callbacks[i]? = some info ∧
      (info.mTarget = 0 ∨ info.isWeak = true ∧ info.mTarget ∈ s.gone)

/-- **What a step is claimed to do.** -/
structure Exact (s : BInformant) (a : Action) : Prop where
  accounted : ∀ s', step s a = some s' → Accounted s'
  /-- The duplicate test finds what is registered, and what is not is registered. -/
  registered : ∀ key info infoOk keyOk s', a = .registerForCallback key info infoOk keyOk →
    info.mTarget ≠ 0 → step s a = some s' → Others s s' key ∧
      (Registered s key info ∧ s'.callbacks = s.callbacks ∧
          s'.log = s.log ++ [.registered key info nameInUse] ∨
        ¬ Registered s key info ∧ (infoOk && keyOk) = false ∧ s'.callbacks = s.callbacks ∧
          s'.log = s.log ++ [.registered key info noMemory] ∨
        ¬ Registered s key info ∧ (s'.callbacks.find key).Perm (info :: s.callbacks.find key) ∧
          s'.log = s.log ++ [.registered key info 0])
  /-- What is registered is found and removed. -/
  unregistered : ∀ key info s', a = .unregisterForCallback key info → info.mTarget ≠ 0 →
    step s a = some s' → Others s s' key ∧
      ((∃ r, r.Same info ∧ (s.callbacks.find key).Perm (r :: s'.callbacks.find key) ∧
          s'.log = s.log ++ [.unregistered key info 0]) ∨
        ¬ Registered s key info ∧ s'.callbacks.find key = s.callbacks.find key ∧
          s'.log = s.log ++ [.unregistered key info nameNotFound])
  /-- `Inform` is about what is registered when it begins. -/
  informed : ∀ key information copyOk s', a = .inform key information copyOk →
    step s a = some s' → s'.callbacks = s.callbacks ∧ s'.started =
      s.started ++ [⟨key, information, s.callbacks.find key⟩]
  /-- The registration of a target that has died is removed, and no other one but of such
  targets. -/
  removed : ∀ thread postOk t info s', a = .resume thread postOk → s.informs[thread]? = some t →
    t.callbacks[t.i]? = some info → step s a = some s' → Others s s' t.key ∧
      (s'.callbacks.find t.key = s.callbacks.find t.key ∨
        ∃ r, (r.mTarget = 0 ∨ r.isWeak = true ∧ r.mTarget ∈ s.gone) ∧
          (s.callbacks.find t.key).Perm (r :: s'.callbacks.find t.key)) ∧
      (t.phase = .removing → ¬ Registered s' t.key info)
  told : ∀ s', step s a = some s' → ∃ events, s'.log = s.log ++ events ∧ Told s events

/-- **The search for a registration finds it**: what is compared on the way to it stands on the
right side, a target that has died as the `NULL` that it is compared as. -/
def Reached (s : BInformant) (key : SValue) (info : CallbackInfo) : Prop :=
  ∀ i r, (s.callbacks.find key)[i]? = some r → r.Same info →
    Leads (verdict s.gone (s.callbacks.find key) info) i (s.callbacks.find key).length 0
      (s.callbacks.find key).length

/-- **What a step observes.** -/
def Observes (s : BInformant) : Action → Prop
  | .registerForCallback key info _ _ => Reached s key info
  | .unregisterForCallback key info => info.mTarget ≠ 0 → Reached s key info
  | .inform key _ copyOk => copyOk = true ∨ s.callbacks.find key = []
  | .resume thread postOk => ∀ t info, s.informs[thread]? = some t → t.callbacks[t.i]? = some info →
    match t.phase with
    | .calling => True
    | .promoted => t.information.isError = false ∧ t.key.isError = false ∧
      (info.isSync = false →
        postOk = true ∧ info.mMethod.isError = false ∧ info.mCookie.isError = false)
    | .removing => Reached s t.key info
  | _ => True

end BInformant

end OpenBinder
