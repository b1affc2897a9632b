import OpenBinder.Handler.MessageList
import OpenBinder.Inform.Informant
import OpenBinder.Lib.Grouped

/-!
# Links

A binder keeps the links that it was given: those of a sender key in a vector under the key, those
of everything it sends in a list. What it pushes is translated by each link that matches, joined for
each target, and sent at once to the targets that are linked synchronously. The rest goes into a
message to the handler of the binder.

* `LinksRec`, `Links`: the links, and the strong references that are held for them.
* `Links.link`, `Links.unlink`, `Links.push`: what is done under the lock.
* `LinkedBinder.step`: what happens next.
* `LinkedBinder.Exact`: what is claimed of a step.
-/

namespace OpenBinder

open Lib

def kLinkHasRef : BitVec 32 := 0x40000000#32

def Flags.noValueFlatten : Flags := ⟨true, false⟩

/-- `links_rec`, with the number of the `Link` that it is of. -/
structure LinksRec where
  value : SValue
  target : ℕ
  flags : BitVec 32
  number : ℕ

namespace LinksRec

def isWeak (ent : LinksRec) : Bool := ent.flags &&& weakBinderLink != 0

def isSync (ent : LinksRec) : Bool := ent.flags &&& syncBinderLink != 0

def noTranslate (ent : LinksRec) : Bool := ent.flags &&& noTranslateLink != 0

def hasRef (ent : LinksRec) : Bool := ent.flags &&& kLinkHasRef != 0

/-- Whether the target is there, or can be promoted. -/
def isLive (gone : List ℕ) (ent : LinksRec) : Bool := !(ent.isWeak && decide (ent.target ∈ gone))

/-- Whether `Unlink` of one target is about a link. -/
def isOf (node : ℕ) (flags : BitVec 32) (value : SValue) (link : LinksRec) : Bool :=
  decide (node = link.target) && link.flags &&& ~~~kPrivateLinkFlagMask == flags &&
    link.value.compare value == .eq

end LinksRec

/-- `BBinder::extensions`, with the strong references on the binder that are held for links. -/
structure Links where
  links : Keyed cmpCode (List LinksRec)
  otherLinks : List LinksRec
  strong : ℤ

namespace Links

/-- All links, with the sender key of each that has one. -/
def linked (s : Links) : List (Option (List ℤ) × LinksRec) :=
  s.links.entries.map (fun e => (some e.1, e.2)) ++ s.otherLinks.map (none, ·)

/-! ### `Link` -/

section Link

-- `HoldRefForLink` is virtual
variable (holdRefForLink : SValue → BitVec 32 → Bool)

/-- The flags of a new link. -/
def finalFlags (senderKey : SValue) (flags : BitVec 32) : BitVec 32 :=
  if holdRefForLink senderKey flags then flags ||| kLinkHasRef else flags

/-- The reference for a new link. -/
def hold (s : Links) (senderKey : SValue) (flags : BitVec 32) : Links :=
  if holdRefForLink senderKey flags then { s with strong := s.strong + 1 } else s

/-- The reference for a new link goes if the link could not be added. -/
def settle (s : Links) (added : Bool) (flags : BitVec 32) : Links :=
  if !added && flags &&& kLinkHasRef != 0 then { s with strong := s.strong - 1 } else s

/-- A thread in `Link`: whether it still has the lock where it is to give it back, the result of
the last insertion, and the items that are not of a simple sender key. -/
structure Linking where
  links : Links
  locked : Bool
  result : ℤ
  remnants : SValue

/-- One round of the loop of `Link`, and whether there is memory for a new key and for the link. -/
def linkItem (node : ℕ) (flags : BitVec 32) (number : ℕ) (memory : Bool × Bool) (t : Linking)
    (senderKey targetKey : SValue) : Option Linking :=
  if senderKey.isSimple then
    let link : LinksRec := ⟨targetKey, node, finalFlags holdRefForLink senderKey flags, number⟩
    let held := t.links.hold holdRefForLink senderKey flags
    let linkRec := held.links.valueFor senderKey.code
    -- the `break` leaves the region and the reference as they are
    if linkRec.isNone && !memory.1 then
      some { t with links := held, locked := true, result := noMemory }
    else
      let recs := linkRec.getD []
      let added := held.links.add senderKey.code (if memory.2 then recs ++ [link] else recs)
      some { t with
        links := { held with links := added }.settle memory.2 link.flags
        result := if memory.2 then 0 else noMemory }
  else
    (t.remnants.joinItem senderKey targetKey Flags.noValueFlatten).map fun remnants =>
      { t with remnants := remnants }

/-- The loop of `Link`. -/
def linkLoop (node : ℕ) (flags : BitVec 32) (number : ℕ) (memory : ℕ → Bool × Bool) :
    ℕ → List SValue.Pair → Linking → Option Linking
  | _, [], t => some t
  | i, p :: rest, t => do
    let t ← linkItem holdRefForLink node flags number (memory i) t p.1 p.2
    if t.locked then return t else linkLoop node flags number memory (i + 1) rest t

/-- A link that is not of a sender key. -/
def linkOther (node : ℕ) (flags : BitVec 32) (number : ℕ) (recOk : Bool) (t : Linking)
    (value : SValue) : Linking :=
  let link : LinksRec := ⟨value, node, finalFlags holdRefForLink .undefined flags, number⟩
  let held := t.links.hold holdRefForLink .undefined flags
  let others := if recOk then held.otherLinks ++ [link] else held.otherLinks
  { t with
    links := { held with otherLinks := others }.settle recOk link.flags
    result := if recOk then 0 else noMemory }

/-- `Link`, where the extensions are there. -/
def link (s : Links) (node : ℕ) (binding : SValue) (flags : BitVec 32) (number : ℕ)
    (memory : ℕ → Bool × Bool) : Option Linking :=
  let t : Linking := ⟨s, false, 0, .undefined⟩
  if binding.isWild then
    some (linkOther holdRefForLink node flags number (memory 0).2 t binding)
  else do
    let t ← linkLoop holdRefForLink node flags number memory 0 binding.items t
    -- a thread that has left the loop waits here for itself
    if t.remnants.isDefined && !t.locked then
      return linkOther holdRefForLink node flags number (memory binding.items.length).2 t t.remnants
    else return t

end Link

/-! ### `Unlink` -/

/-- The loops of `Unlink` over a vector, which go from the last link to the first: what is left of
the vector and of the references. -/
def dropLoop (hit : LinksRec → Bool) : List LinksRec → ℤ → List LinksRec × ℤ
  | [], strong => ([], strong)
  | link :: rest, strong =>
    let r := dropLoop hit rest strong
    if hit link then (r.1, if link.hasRef then r.2 - 1 else r.2) else (link :: r.1, r.2)

/-- The links under a key that `Unlink` is about go, and the key with the last of them. -/
def dropUnder (hit : LinksRec → Bool) (key : List ℤ) (s : Links) : Links :=
  match s.links.valueFor key with
  | none => s
  | some linkRec =>
    let r := dropLoop hit linkRec s.strong
    { s with
      links := if r.1.isEmpty then s.links.remove key else s.links.add key r.1
      strong := r.2 }

/-- The other links that `Unlink` is about go. -/
def dropOthers (hit : LinksRec → Bool) (s : Links) : Links :=
  let r := dropLoop hit s.otherLinks s.strong
  { s with otherLinks := r.1, strong := r.2 }

/-- `Unlink`, where the extensions are there. With remnants there is a fatal error. -/
def unlink (s : Links) (node : ℕ) (binding : SValue) (flags : BitVec 32) : Option Links :=
  if flags &&& unlinkAllTargets != 0 then
    let hit := fun link : LinksRec => decide (node = link.target)
    some (((s.links.items.map Prod.fst).foldr (dropUnder hit) s).dropOthers hit)
  else if binding.isWild then some (s.dropOthers (LinksRec.isOf node flags binding))
  else if binding.items.all fun p => p.1.isSimple then
    some (binding.items.foldl (fun s p => s.dropUnder (LinksRec.isOf node flags p.2) p.1.code) s)
  else none

/-! ### `Push` -/

/-- The "map keys" operation of a link that is not of a sender key. -/
def mapKeys (out value : SValue) : Option SValue :=
  value.items.foldlM (fun binding p =>
    let v := out.valueFor p.1
    if v.isDefined then binding.joinItem p.2 v Flags.none else some binding) .undefined

/-- What `Push` passes to `PushMaps::Add` of a link of a sender key. -/
def offered (gone : List ℕ) (senderValue : SValue) (ent : LinksRec) :
    Option (LinksRec × Option SValue) :=
  if ent.isLive gone then some (ent, SValue.initAsMap Flags.none ent.value senderValue) else none

/-- What `Push` passes to `PushMaps::Add` of another link. -/
def otherOffered (gone : List ℕ) (out : SValue) (ent : LinksRec) :
    Option (LinksRec × Option SValue) :=
  let mapped := !(ent.value.isWild || ent.noTranslate)
  let binding := if mapped then mapKeys out ent.value else some out
  -- nothing that the link is of is sent
  if mapped && binding.elim false (fun v => !v.isDefined) then none
  else if ent.isLive gone then some (ent, binding)
  else none

/-- **The matching links** of what is pushed whose targets are there, each with what it makes of
it. -/
def pushLinks (gone : List ℕ) (s : Links) (out : SValue) : List (LinksRec × Option SValue) :=
  out.items.flatMap (fun p =>
    ((s.links.valueFor p.1.code).getD []).filterMap (offered gone p.2)) ++
    s.otherLinks.filterMap (otherOffered gone out)

/-! ### What is claimed of the links -/

/-- The link that a `Link` makes of an item. -/
def made (holdRefForLink : SValue → BitVec 32 → Bool) (node : ℕ) (flags : BitVec 32) (number : ℕ)
    (senderKey value : SValue) : LinksRec :=
  ⟨value, node, finalFlags holdRefForLink senderKey flags, number⟩

/-- What a `Link` is to add. -/
def asked (holdRefForLink : SValue → BitVec 32 → Bool) (node : ℕ) (binding : SValue)
    (flags : BitVec 32) (number : ℕ) : List (Option (List ℤ) × LinksRec) :=
  if binding.isWild then [(none, made holdRefForLink node flags number .undefined binding)]
  else binding.items.map fun p => (some p.1.code, made holdRefForLink node flags number p.1 p.2)

/-- What `Unlink` of one target takes for the links that it is about. -/
def hits (node : ℕ) (binding : SValue) (flags : BitVec 32) (x : Option (List ℤ) × LinksRec) :
    Bool :=
  if binding.isWild then decide (x.1 = none) && x.2.isOf node flags binding
  else binding.items.any fun p => decide (x.1 = some p.1.code) && x.2.isOf node flags p.2

/-- There is memory for the keys of items that are new. -/
def KeysOk (links : Keyed cmpCode (List LinksRec)) (i : ℕ) (items : List SValue.Pair)
    (memory : ℕ → Bool × Bool) : Prop :=
  ∀ k p, items[k]? = some p → (memory (i + k)).1 = true ∨
    (links.valueFor p.1.code).isSome ∨
      ∃ j q, j < k ∧ items[j]? = some q ∧ q.1.code = p.1.code

end Links

/-- What each target is to get in one mode. -/
abbrev PushGroup := Keyed (compare : ℕ → ℕ → Ordering) (Option SValue)

namespace PushGroup

/-- `Join`, of values that there are. -/
def joined (v w : Option SValue) : Option SValue := do SValue.join Flags.none (← v) (← w)

/-- What a link adds to a group, and whether there is memory for a new target. -/
def put (group : PushGroup) (itemOk : Bool) (target : ℕ) (value : Option SValue) : PushGroup :=
  if (group.valueFor target).isSome || itemOk then group.merge joined (target, value) else group

end PushGroup

structure PushMaps where
  syncGroup : PushGroup
  asyncGroup : Option PushGroup

namespace PushMaps

/-- What a link passes on: its own value if it does not translate. -/
def passed (offer : LinksRec × Option SValue) : Option SValue :=
  if offer.1.noTranslate then some offer.1.value else offer.2

/-- `PushMaps::Add`, and whether there is memory for the asynchronous group and for the item. -/
def add (maps : PushMaps) (memory : Bool × Bool) (offer : LinksRec × Option SValue) : PushMaps :=
  let target := offer.1.target
  if offer.1.isSync then
    { maps with syncGroup := maps.syncGroup.put memory.2 target (passed offer) }
  else if maps.asyncGroup.isNone && !memory.1 then maps
  else
    let group : PushGroup := maps.asyncGroup.getD Keyed.empty
    { maps with asyncGroup := some (group.put memory.2 target (passed offer)) }

/-- The groups of all links. -/
def addAll (memory : ℕ → Bool × Bool) : ℕ → List (LinksRec × Option SValue) → PushMaps → PushMaps
  | _, [], maps => maps
  | i, offer :: rest, maps => addAll memory (i + 1) rest (maps.add (memory i) offer)

end PushMaps

/-- What has happened to a binder. -/
inductive LinkEvent where
  | linked (number : ℕ) (status : ℤ)
  | unlinked (status : ℤ)
  | pushed (push : ℕ) (status : ℤ)
  /-- `Effect` of a target was called for a push. -/
  | effect (push : ℕ) (sync : Bool) (target : ℕ) (value : Option SValue)

/-- A call of `Link`. -/
structure LinkCall where
  node : ℕ
  binding : SValue
  flags : BitVec 32

/-- A group of a push, on its way to the handler. -/
structure PushedGroup where
  push : ℕ
  group : PushGroup

def PushedGroup.doPush (p : PushedGroup) (sync : Bool) : List LinkEvent :=
  p.group.items.map fun item => .effect p.push sync item.1 item.2

/-- A binder with its links, whether its lock was left locked, the targets that have died, the time
of the last push, the messages to its handler, what it was called with, what the handler is to
deliver, and what has happened. -/
structure LinkedBinder where
  extensions : Bool
  links : Links
  locked : Bool
  gone : List ℕ
  now : ℤ
  queue : List (SMessage PushedGroup)
  calls : List LinkCall
  pushes : ℕ
  due : List LinkEvent
  log : List LinkEvent

namespace LinkedBinder

/-- `'asyn'`. -/
def msgAsyn : ℕ := 0x6173796e

/-- What happens next. -/
inductive Action where
  /-- `Link`, and whether there is memory for the extensions, and for the key and the link of each
  item. -/
  | link (node : ℕ) (binding : SValue) (flags : BitVec 32) (newOk : Bool)
    (memory : ℕ → Bool × Bool)
  | unlink (node : ℕ) (binding : SValue) (flags : BitVec 32)
  /-- `Push` at a time, and whether there is memory for the asynchronous group, for the item of
  each link and for the message. -/
  | push (out : SValue) (time : ℤ) (memory : ℕ → Bool × Bool) (postOk : Bool)
  /-- `HandleMessage` of the handler. -/
  | handleMessage
  /-- A target dies that no strong reference is held to. -/
  | die (target : ℕ)

variable (holdRefForLink : SValue → BitVec 32 → Bool)

def link (s : LinkedBinder) (node : ℕ) (binding : SValue) (flags : BitVec 32) (newOk : Bool)
    (memory : ℕ → Bool × Bool) : Option LinkedBinder :=
  let number := s.calls.length
  let called : LinkedBinder := { s with calls := s.calls ++ [⟨node, binding, flags⟩] }
  if !s.extensions && !newOk then some { called with log := s.log ++ [.linked number noMemory] }
  else do
    let t ← s.links.link holdRefForLink node binding flags number memory
    return { called with
      extensions := true
      links := t.links
      locked := t.locked
      log := s.log ++ [.linked number t.result] }

def unlink (s : LinkedBinder) (node : ℕ) (binding : SValue) (flags : BitVec 32) :
    Option LinkedBinder :=
  if !s.extensions then some { s with log := s.log ++ [.unlinked (-1)] }
  else do
    let links ← s.links.unlink node binding flags
    return { s with links := links, log := s.log ++ [.unlinked 0] }

def doPush (s : LinkedBinder) (time : ℤ) (maps : PushMaps) (postOk : Bool) : LinkedBinder :=
  let sync := (PushedGroup.mk s.pushes maps.syncGroup).doPush true
  match maps.asyncGroup with
  | none => { s with log := s.log ++ sync ++ [.pushed s.pushes 0] }
  | some group =>
    let pushed : PushedGroup := ⟨s.pushes, group⟩
    let msg : SMessage PushedGroup := ⟨s.pushes, msgAsyn, 0, 0, pushed⟩
    let due := s.due ++ pushed.doPush false
    if postOk then
      { s with
        queue := SMessageList.enqueueMessage msg time s.queue
        due := due
        log := s.log ++ sync ++ [.pushed s.pushes 0] }
    else { s with due := due, log := s.log ++ sync ++ [.pushed s.pushes noMemory] }

def push (s : LinkedBinder) (out : SValue) (time : ℤ) (memory : ℕ → Bool × Bool) (postOk : Bool) :
    LinkedBinder :=
  let offers := if s.extensions then s.links.pushLinks s.gone out else []
  let maps := PushMaps.addAll memory 0 offers ⟨Keyed.empty, none⟩
  let pushed := s.doPush time maps postOk
  { pushed with now := time, pushes := s.pushes + 1 }

/-- `AsyncHandler::HandleMessage`, of the first message. -/
def handleMessage (s : LinkedBinder) : Option LinkedBinder :=
  let r := SMessageList.dequeueMessage SMessageList.anyWhat s.queue
  r.1.map fun msg => { s with queue := r.2, log := s.log ++ msg.data.doPush false }

/-- The bindings that links are of here, and the flags. -/
def Linkable (binding : SValue) (flags : BitVec 32) : Prop :=
  (binding.isWild = true ∨ ∀ p ∈ binding.items, p.1.isSimple = true) ∧ flags &&& ~~~7#32 = 0

instance (binding : SValue) (flags : BitVec 32) : Decidable (Linkable binding flags) :=
  inferInstanceAs (Decidable ((_ ∨ _) ∧ _))

/-- **A step.** Nothing that needs the lock comes back once it is left locked. The clock does not go
back, and a caller of `Link` holds on to the target. -/
def step (s : LinkedBinder) : Action → Option LinkedBinder
  | .link node binding flags newOk memory =>
    if s.locked ∨ node ∈ s.gone ∨ ¬ Linkable binding flags then none
    else s.link holdRefForLink node binding flags newOk memory
  | .unlink node binding flags => if s.locked then none else s.unlink node binding flags
  | .push out time memory postOk =>
    if s.locked ∨ time < s.now then none else some (s.push out time memory postOk)
  | .handleMessage => s.handleMessage
  | .die target =>
    if s.links.linked.any (fun x => !x.2.isWeak && x.2.target == target) ||
        s.queue.any (fun msg => (msg.data.group.valueFor target).isSome) then none
    else some { s with gone := target :: s.gone }

/-- A binder without links. -/
def init : LinkedBinder :=
  ⟨false, ⟨Keyed.empty, [], 0⟩, false, [], 0, [], [], 0, [], []⟩

/-! ### What is claimed -/

/-- The same arguments. -/
def Same (c c' : LinkCall) : Prop :=
  c.node = c'.node ∧ c.binding.Equal c'.binding ∧ c.flags = c'.flags

/-- A `Link` was called with these arguments. -/
def Given (s : LinkedBinder) (n : ℕ) (c : LinkCall) : Prop :=
  ∃ c', s.calls[n]? = some c' ∧ Same c' c

/-- What the matching links of a target pass on to it in a mode. -/
def offers (s : LinkedBinder) (out : SValue) (sync : Bool) (target : ℕ) : List (Option SValue) :=
  ((s.links.pushLinks s.gone out).filter fun o =>
    o.1.isSync == sync && o.1.target == target).map PushMaps.passed

/-- **The effects of a push in a mode**: each target of a matching link gets one, the join of what
these links pass on. -/
def Effects (s : LinkedBinder) (out : SValue) (sync : Bool) (l : List (ℕ × SValue)) : Prop :=
  (l.map Prod.fst).Nodup ∧ ∀ t v, (t, v) ∈ l ↔
    Keyed.merged PushGroup.joined (s.offers out sync t) = some (some v)

/-- An effect that the handler delivers. -/
def isAsync : LinkEvent → Bool
  | .effect _ sync _ _ => !sync
  | _ => false

/-- The events of the effects of a push. -/
def told (s : LinkedBinder) (sync : Bool) (l : List (ℕ × SValue)) : List LinkEvent :=
  l.map fun e => .effect s.pushes sync e.1 (some e.2)

/-- **Nothing is kept or lost**: the lock is given back, a strong reference is held for each link
that is to have one, and the handler delivers what was pushed in the order of the pushes. -/
structure Accounted (s : LinkedBinder) : Prop where
  unlocked : s.locked = false
  strong : s.links.strong = (s.links.linked.countP fun x => x.2.hasRef : ℕ)
  inOrder : s.log.filter isAsync ++ s.queue.flatMap (fun msg => msg.data.doPush false) = s.due

/-- **What a step is claimed to do.** -/
structure Exact (s : LinkedBinder) (a : Action) : Prop where
  accounted : ∀ s', step holdRefForLink s a = some s' → Accounted s'
  /-- All links are added if `Link` succeeds, and no other ones in any case. -/
  linked : ∀ node binding flags newOk memory, a = .link node binding flags newOk memory →
    node ∉ s.gone → Linkable binding flags → ∃ s' made status,
      step holdRefForLink s a = some s' ∧
      made.Sublist (Links.asked holdRefForLink node binding flags s.calls.length) ∧
      (status = 0 → made = Links.asked holdRefForLink node binding flags s.calls.length) ∧
      s'.links.linked.Perm (s.links.linked ++ made) ∧
      s'.log = s.log ++ [.linked s.calls.length status]
  /-- With the arguments of a `Link`, exactly the links of such a one go. -/
  unlinked : ∀ node binding flags, a = .unlink node binding flags →
    flags &&& unlinkAllTargets = 0 → (∃ n, s.Given n ⟨node, binding, flags⟩) → ∃ s' n,
      step holdRefForLink s a = some s' ∧ s.Given n ⟨node, binding, flags⟩ ∧
      s'.links.linked.Perm (s.links.linked.filter fun x => x.2.number ≠ n)
  /-- With `B_UNLINK_ALL_TARGETS`, exactly the links of the target go. -/
  unlinkedAll : ∀ node binding flags, a = .unlink node binding flags →
    flags &&& unlinkAllTargets ≠ 0 → ∃ s', step holdRefForLink s a = some s' ∧
      s'.links.linked.Perm (s.links.linked.filter fun x => x.2.target ≠ node)
  /-- The synchronous effects are delivered, and the other ones are due. -/
  pushed : ∀ out time memory postOk, a = .push out time memory postOk → s.now ≤ time →
    ∃ s' now later, step holdRefForLink s a = some s' ∧ s.Effects out true now ∧
      s.Effects out false later ∧ s'.links = s.links ∧
      s'.log = s.log ++ s.told true now ++ [.pushed s.pushes 0] ∧
      s'.due = s.due ++ s.told false later

/-- There is memory for what a push makes of the links. -/
structure PushOk (s : LinkedBinder) (out : SValue) (memory : ℕ → Bool × Bool) (postOk : Bool) :
    Prop where
  group : ∀ i o, (s.links.pushLinks s.gone out)[i]? = some o → o.1.isSync = false →
    (memory i).1 = true ∨
      ∃ j o', j < i ∧ (s.links.pushLinks s.gone out)[j]? = some o' ∧ o'.1.isSync = false
  item : ∀ i o, (s.links.pushLinks s.gone out)[i]? = some o → (memory i).2 = true ∨
    ∃ j o', j < i ∧ (s.links.pushLinks s.gone out)[j]? = some o' ∧ o'.1.isSync = o.1.isSync ∧
      o'.1.target = o.1.target
  post : postOk = true ∨ ∀ o ∈ s.links.pushLinks s.gone out, o.1.isSync = true

/-- **What a step observes.** -/
def Observes (s : LinkedBinder) : Action → Prop
  | .link _ binding _ newOk memory => s.extensions = false ∧ newOk = false ∨
    binding.isWild = true ∨ Links.KeysOk s.links.links 0 binding.items memory ∧
      -- a failure before the last item is not reported
      ((∀ i < binding.items.length, (memory i).2 = true) ∨
        (memory (binding.items.length - 1)).2 = false)
  | .unlink node binding flags => flags &&& unlinkAllTargets = 0 →
    (∃ n, s.Given n ⟨node, binding, flags⟩) → ∃ n, s.Given n ⟨node, binding, flags⟩ ∧
      ∀ x ∈ s.links.linked, Links.hits node binding flags x = true → x.2.number = n
  | .push out _ memory postOk => s.PushOk out memory postOk ∧
    ∀ sync t, Keyed.merged PushGroup.joined (s.offers out sync t) ≠ some none
  | _ => True

end LinkedBinder

end OpenBinder
