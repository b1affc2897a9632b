import OpenBinder.Remote.Values

/-!
# `Effect` through a proxy

`BpBinder::Effect` sends the arguments that are not what is assumed without them, and
`BBinder::Transact` puts the others back. The status comes back as that of the transaction or
with the reply, and the output in the reply.

* `BBinder.effect`: the call on the object itself.
* `BBinder.transactEffect`, `BpBinder.effect`: the two ends of the transaction.
* `BpBinder.EffectSame`: what the claim of transparency is.
-/

namespace OpenBinder

open Lib

/-- The arguments of `Effect` in front of the last one. -/
structure EffectArgs where
  in' : SValue
  inBindings : SValue
  outBindings : SValue

namespace EffectArgs

/-- Arguments that `Compare` does not tell apart. -/
structure Equal (a b : EffectArgs) : Prop where
  in' : a.in'.Equal b.in'
  inBindings : a.inBindings.Equal b.inBindings
  outBindings : a.outBindings.Equal b.outBindings

/-- The values that `BpBinder::Effect` sends. -/
def sent (a : EffectArgs) : List SValue :=
  if a.outBindings.isDefined then [a.in', a.inBindings, a.outBindings]
  else if !a.inBindings.isWild then [a.in', a.inBindings]
  else [a.in']

/-- The arguments that `BBinder::Transact` makes of the values it gets. -/
def received : List SValue → Option EffectArgs
  | [in'] => some ⟨in', .wild, .undefined⟩
  | [in', inBindings] => some ⟨in', inBindings, .undefined⟩
  | [in', inBindings, outBindings] => some ⟨in', inBindings, outBindings⟩
  | _ => none

end EffectArgs

/-- What `HandleEffect` does: the status, what it joins into `*out`, and the object afterwards. -/
structure Handled (σ : Type) where
  status : BitVec 32
  joined : SValue
  object : σ

/-- The same to whoever can't tell equal values apart. -/
structure Handled.Equal {σ : Type} (r s : Handled σ) : Prop where
  status : r.status = s.status
  joined : r.joined.Equal s.joined
  object : r.object = s.object

/-- A local object, by its `HandleEffect`. What that does depends on the values it is given, not
on how they are represented. -/
structure BBinder (σ : Type) where
  handleEffect : σ → EffectArgs → Handled σ
  equal : ∀ {s a b}, a.Equal b → (handleEffect s a).Equal (handleEffect s b)

/-- What comes of a call of `Effect`: what `HandleEffect` was called with if it was, the status,
what is in `*out` if that is not `NULL`, and the object. -/
structure Effected (σ : Type) where
  called : Option EffectArgs
  status : ℤ
  out : Option SValue
  object : σ

/-- What comes of a transaction for one: instead of the status and the output, the reply. -/
structure EffectServed (σ : Type) where
  called : Option EffectArgs
  reply : Except ℤ SParcel
  object : σ

section Effect

variable {σ : Type} (cookie : BitVec 32 → BitVec 32 → BitVec 32)

def BBinder.effect (b : BBinder σ) (s : σ) (a : EffectArgs) (out : Option SValue) :
    Except Fault (Effected σ) :=
  let r := b.handleEffect s a
  match out with
  | none => .ok ⟨some a, r.status.toInt, none, r.object⟩
  | some v =>
    match SValue.join Flags.none v r.joined with
    | none => .error .memory
    | some out => .ok ⟨some a, r.status.toInt, some out, r.object⟩

/-- The branch of `BBinder::Transact` for a `B_EFFECT_TRANSACTION`. A status that is an error, of
`Effect` or of `SetValues`, is sent in the place of a reply. -/
def BBinder.transactEffect (b : BBinder σ) (s : σ) (data : SParcel) :
    Except Fault (EffectServed σ) := do
  let (values, _) ← data.getValues 3
  let r ← match EffectArgs.received values with
    | none => .ok ⟨none, 0, some .undefined, s⟩
    | some a => b.effect s a (some .undefined)
  if 0 ≤ r.status then
    let reply ← SParcel.setValues (SParcel.flat cookie) [r.out.getD .undefined] inlineSize
    return ⟨r.called, reply, r.object⟩
  else return ⟨r.called, .error r.status, r.object⟩

/-- `BpBinder::Effect`, of a proxy whose transactions go to the object. -/
def BpBinder.effect (b : BBinder σ) (s : σ) (a : EffectArgs) (out : Option SValue) :
    Except Fault (Effected σ) := do
  match ← SParcel.setValues (SParcel.flat cookie) a.sent inlineSize with
  | .error code => return ⟨none, code, out, s⟩
  | .ok buffer =>
    let served ← b.transactEffect cookie s buffer.arrived
    match served.reply with
    | .error code =>
      return ⟨served.called, code, out.map fun _ => .error (BitVec.ofInt 32 code), served.object⟩
    | .ok reply =>
      match out with
      | none => return ⟨served.called, 0, none, served.object⟩
      | some v =>
        let (values, _) ← reply.arrived.getValues 1
        match values with
        | value :: _ => return ⟨served.called, value.errorCheck, some value, served.object⟩
        | [] => return ⟨served.called, 0, some v, served.object⟩

/-- **The call is the same** through the proxy and on the object itself: equal arguments, the same
status, an equal output and the same object; and what was joined comes back as it was. -/
structure BpBinder.EffectAgrees (joined : SValue) (args : EffectArgs) (remote direct : Effected σ) :
    Prop where
  called : ∃ a, remote.called = some a ∧ a.Equal args
  status : remote.status = direct.status
  out : Option.Rel SValue.Equal remote.out direct.out
  object : remote.object = direct.object
  survives : 0 ≤ direct.status → ∀ v, remote.out = some v → v.Equal joined

/-- Both calls are made, and agree. -/
def BpBinder.EffectSame (b : BBinder σ) (s : σ) (a : EffectArgs) (out : Option SValue) : Prop :=
  ∃ remote direct, BpBinder.effect cookie b s a out = .ok remote ∧ b.effect s a out = .ok direct ∧
    BpBinder.EffectAgrees (b.handleEffect s a).joined a remote direct

end Effect

end OpenBinder
