import OpenBinder.Remote.Effect
import OpenBinder.Vector.FromValue

/-!
# Serving an invocation

The branch of `BBinder::Transact` for a `B_INVOKE_TRANSACTION`: arguments are read until there are
no more, and what `Effect` leaves in its output is written to the reply, the result in front of the
parameters.

* `invoked`: the arguments, and what `Effect` makes of them.
* `outParams`: the loop over the parameters. It counts those that there are, and ends when they are
  as many as the items of the output.
* `transactInvoke`: all of it; it has no result where the loop goes on past the last index.
-/

namespace OpenBinder

open Lib

def keyResult : SValue := .ofBytes stringType [0x72, 0x65, 0x73, 0]

/-- The loop that reads the in and inout parameters: the arguments and their number. -/
def readArguments : ℕ → SParcel → ℕ → SValue → Except Fault (SValue × ℕ)
  | 0, _, _, _ => .error .depth
  | fuel + 1, data, count, args => do
    let (arg, size, data) ← SValue.unarchive data
    if size < 0 then return (args, count)
    match args.joinItem (.int32 (BitVec.ofNat 32 count)) arg Flags.none with
    | some args => readArguments fuel data (count + 1) args
    | none => .error .memory

/-- What is called, with its arguments. -/
def readInvocation (data : SParcel) : Except Fault (SValue × SValue) := do
  -- the index is skipped
  let (_, data) ← data.readInt32
  let (name, _, data) ← SValue.unarchive data
  let (args, count) ← readArguments (data.data.length + 1) data 0 .undefined
  return (name, if count = 0 then .int32 0 else args)

/-- The call of `Effect`: its status and its output. -/
def invoked (effect : EffectArgs → ℤ × SValue) (data : SParcel) : Except Fault (ℤ × SValue) := do
  let (name, args) ← readInvocation data
  match SValue.initAsMap Flags.none name args with
  | some in' => return effect ⟨in', .wild, name⟩
  | none => .error .memory

/-- The out and inout parameter with an index. -/
def outParam (out : SValue) (i : ℕ) : SValue := out.valueFor (.int32 (BitVec.ofNat 32 i))

/-- The items of the output without the result. -/
def outCount (out : SValue) : ℤ :=
  out.countItems - if (out.valueFor keyResult).isDefined then 1 else 0

/-- The loop over the out and inout parameters from the one at `i` on, when there have been `j`.
`room` is how far `i` can be counted. -/
def outParams (out : SValue) : ℕ → ℕ → ℕ → Option (List SValue)
  | room, i, j =>
    if outCount out ≤ j then some []
    else match room with
      | 0 => none
      | room + 1 =>
        (outParams out room (i + 1) (if (outParam out i).isDefined then j + 1 else j)).map
          (outParam out i :: ·)

def int32Max : ℕ := 2 ^ 31 - 1

def SParcel.reserve (len : ℤ) (malloc : Bool) (p : SParcel) : Option SParcel :=
  if len ≤ p.avail then some ⟨[], 0, p.avail, []⟩
  else if len ≤ inlineSize ∨ malloc = true then some ⟨[], 0, len, []⟩
  else none

section Transact

variable (cookie : BitVec 32 → BitVec 32 → BitVec 32)

/-- The reply with these values: the status, and what is sent. -/
def writeReply (values : List SValue) (malloc : Bool) (reply : SParcel) :
    Except Fault (ℤ × Option SParcel) :=
  match reply.reserve (ssize (values.map SValue.archivedSize).sum) malloc with
  | some reply => (SValue.archiveAll (SParcel.flat cookie) values reply).map fun reply => (0, some reply)
  | none => .ok (noMemory, none)

/-- The branch of `BBinder::Transact` for a `B_INVOKE_TRANSACTION`. -/
def transactInvoke (effect : EffectArgs → ℤ × SValue) (data : SParcel) (reply : Option SParcel)
    (malloc : Bool) : Option (Except Fault (ℤ × Option SParcel)) :=
  match invoked effect data, reply with
  | .error fault, _ => some (.error fault)
  | .ok (err, _), none => some (.ok (err, none))
  | .ok (err, out), some reply =>
    if err = 0 then
      (outParams out int32Max 0 0).map fun params =>
        writeReply cookie (out.valueFor keyResult :: params) malloc reply
    else some (.ok (err, none))

end Transact

/-! ### A full reply -/

/-- **An output of nothing but results**: all keys are that of the result or indices below `n`. -/
structure Outputs (out : SValue) (n : ℕ) : Prop where
  normal : out.isNormal = true
  isMap : out.isMap = true
  keys : ∀ p ∈ out.items, p.1.code = keyResult.code ∨
    ∃ i < n, p.1.code = (SValue.int32 (BitVec.ofNat 32 i)).code
  small : n ≤ int32Max

/-- **A reply in full**: there is one, and an output of nothing but results is replied with its
parameters at their positions. -/
structure RepliesInFull (cookie : BitVec 32 → BitVec 32 → BitVec 32) (out : SValue) (malloc : Bool)
    (reply : SParcel) (served : Option (Except Fault (ℤ × Option SParcel))) : Prop where
  ends : served ≠ none
  full : ∀ n, Outputs out n → ∃ params,
    served = some (writeReply cookie (out.valueFor keyResult :: params) malloc reply) ∧
      ∀ i < n, (outParam out i).isDefined = true → params[i]? = some (outParam out i)

/-- **As many parameters as items**: the output has something for as many indices as it has items
besides the result. -/
def Counted (out : SValue) : Prop :=
  outCount out ≤ (List.range int32Max).countP fun i => (outParam out i).isDefined

end OpenBinder
