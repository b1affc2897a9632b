import OpenBinder.Lib.Scatter
import OpenBinder.Stream.Access

/-!
# Remote byte streams

`BpByteInput` and `BpByteOutput` are the streams of another process: they put a call into a
transaction, or into values for `Invoke` once a transaction was not understood.

* `byteinputActions`, `byteoutputActions`: what the servers do when they are invoked.
* `BpByteInput.readV`, `BpByteOutput.writeV`: the proxies, with what they remember.
-/

namespace OpenBinder

open Lib

/-- `B_BINDER_MISSING_ARG`. -/
def missingArg : BitVec 32 := 0x80004a01#32

def binderBadType : BitVec 32 := 0x80004a02#32

/-- A string in a value. -/
def stringValue (chars : List Byte) : SValue := SValue.ofBytes stringType (chars ++ [0])

def keyRead : SValue := stringValue [0x52, 0x65, 0x61, 0x64]
def keyWrite : SValue := stringValue [0x57, 0x72, 0x69, 0x74, 0x65]
def keySync : SValue := stringValue [0x53, 0x79, 0x6e, 0x63]

/-- Whether a shared buffer that a value needs for so many bytes is there. -/
def Around.gives (around : Around) (n : ℕ) : Bool := decide (n ≤ typeLengthMax) || around.malloc

section Hooks

variable {σ : Type} (parse : SValue → Option ℤ)

/-- `byteinput_hook_Read`. It reads without the flags that it was given. -/
def byteinputHookRead (input : IByteInput σ) (around : Around) (s : σ) (args : SValue) :
    SValue × σ :=
  let param := args.valueFor (.int32 0)
  if !param.isDefined then (.int32 missingArg, s)
  else
    match param.asInt32 parse with
    | none => (.int32 binderBadType, s)
    | some readSize =>
      if around.gives readSize.toNat then
        let (result, s') := input.readV s readSize.toNat 0
        (if result.amt.toInt < 0 then .int32 result.amt else .ofBytes rawType result.data, s')
      else (.int32 (BitVec.ofInt 32 noMemory), s)

def byteoutputHookWrite (output : IByteOutput σ) (s : σ) (args : SValue) : SValue × σ :=
  let param1 := args.valueFor (.int32 1)
  match if param1.isDefined then param1.asInt32 parse else some 0 with
  | none => (.int32 binderBadType, s)
  | some flags =>
    let param := args.valueFor (.int32 0)
    if !param.isDefined then (.int32 missingArg, s)
    else if !param.isSimple && param.bytes.isSome then (.int32 binderBadType, s)
    else
      let (result, s') := output.writeV s (param.bytes.getD []) flags
      (.int32 result, s')

def byteoutputHookSync (output : IByteOutput σ) (s : σ) (_ : SValue) : SValue × σ :=
  let (result, s') := output.sync s
  (.int32 result, s')

def byteinputActions (input : IByteInput σ) (around : Around) : List (EffectAction σ) :=
  [⟨keyRead, none, none, some (byteinputHookRead parse input around)⟩]

def byteoutputActions (output : IByteOutput σ) : List (EffectAction σ) :=
  [⟨keyWrite, none, none, some (byteoutputHookWrite parse output)⟩,
    ⟨keySync, none, none, some (byteoutputHookSync output)⟩]

end Hooks

/-! ### The proxies -/

instance (r : Range) : Decidable r.Inside :=
  inferInstanceAs (Decidable (0 < r.length → 0 ≤ r.offset ∧ r.offset + r.length ≤ r.block))

/-- `SParcel::GetParcel`. -/
def getParcel : Reply := ⟨(Storage.Start.buffer (-1) true).storage, []⟩

/-- What a remote object does with a transaction; `none` if it goes outside of a buffer. -/
def Served.checked {σ : Type} (r : Served σ) : Option (BitVec 32 × Reply × σ) :=
  if ∀ given ∈ r.given.toList, given.range.Inside then
    some (r.status, r.reply.getD getParcel, r.object)
  else none

/-- The loop that gives out what was read; `none` if a length is negative. -/
def scatter : List ℕ → List Byte → Option (List (List Byte))
  | [], _ => some []
  | _ :: _, [] => some []
  | len :: vector, b :: bytes =>
    let sizeLeft : ℤ := (b :: bytes).length
    let thisSize := if ssize len > sizeLeft then sizeLeft else ssize len
    if thisSize < 0 then none
    else do
      let rest ← scatter vector ((b :: bytes).drop thisSize.toNat)
      pure ((b :: bytes).take thisSize.toNat :: rest)

/-- What a call gives: its result, and the bytes that the elements of the vector got. -/
structure Transferred where
  status : BitVec 32
  parts : List (List Byte)

/-- What a proxy gives: also whether it goes on with transactions, and the object behind it. -/
structure Proxied (σ : Type) where
  result : Transferred
  canTransact : Bool
  object : σ

/-- The end of a read: the data, if there is no error, is given out. -/
def deliver (vector : List ℕ) (status : BitVec 32) (data : List Byte) : Option Transferred :=
  if 0 ≤ status.toInt then do
    let parts ← scatter vector data
    pure ⟨BitVec.ofNat 32 (parts.map List.length).sum, parts⟩
  else some ⟨status, []⟩

/-- What is in the reply of a read: the data behind the count, or the error in its place. -/
def Reply.received (reply : Reply) : BitVec 32 × List Byte :=
  if 4 ≤ reply.storage.length then
    let status := wordFrom reply.bytes 0
    if 0 ≤ status.toInt then (0, (reply.bytes.drop 4).take (reply.storage.length - 4).toNat)
    else (status, [])
  else (BitVec.ofInt 32 noMemory, [])

/-- What is in the value that was returned for a read. -/
def receivedValue (value : SValue) : BitVec 32 × List Byte :=
  let status := BitVec.ofInt 32 value.errorCheck
  match value.bytes with
  | some data => (status, data)
  | none => if 0 ≤ status.toInt then (BitVec.ofInt 32 noMemory, []) else (status, [])

section Proxies

variable {σ : Type} (parse : SValue → Option ℤ)

/-- The transaction of `BpByteInput::ReadV`. -/
def BpByteInput.transact (input : IByteInput σ) (s : σ) (size flags : BitVec 32)
    (around : Around) : Option ((BitVec 32 × List Byte) × σ) := do
  let (status, reply, s) ← (BnByteInput.transact input s
    (some (wordBytes size ++ wordBytes flags)) (some getParcel) around).checked
  pure (if 0 ≤ status.toInt then reply.received else (status, []), s)

/-- The values of `BpByteInput::ReadV`. -/
def BpByteInput.invoke (input : IByteInput σ) (s : σ) (size flags : BitVec 32)
    (around : Around) : Option ((BitVec 32 × List Byte) × σ) := do
  let args ← SValue.initAsMap Flags.none (.int32 0) (.int32 size)
  let args ← if flags ≠ 0 then args.joinItem (.int32 1) (.int32 flags) Flags.none else some args
  let (reply, s) ← IBinder.invoke (byteinputActions parse input around) keyRead args s
  pure (receivedValue reply, s)

def BpByteInput.readV (input : IByteInput σ) (canTransact : Bool) (s : σ) (vector : List ℕ)
    (flags : BitVec 32) (around : Around) : Option (Proxied σ) := do
  let size := BitVec.ofNat 32 vector.sum
  let (received, s) ← if canTransact then BpByteInput.transact input s size flags around
    else some ((0, []), s)
  let canTransact := canTransact && received.1 != unknownTransact
  let (received, s) ← if canTransact then some (received, s)
    else BpByteInput.invoke parse input s size flags around
  pure ⟨← deliver vector received.1 received.2, canTransact, s⟩

/-- The parcel of `BpByteOutput::WriteV` with its code; `none` if there is no memory for it. A
single buffer is sent as it is. -/
def BpByteOutput.command (vector : List (List Byte)) (flags : BitVec 32) (around : Around) :
    Option (Option (List Byte × Bool)) :=
  match vector with
  | [buffer] => if flags = 0 then some (some (buffer, false)) else framed
  | _ => framed
where
  /-- The flags, and behind them all the bytes. -/
  framed : Option (Option (List Byte × Bool)) :=
    let size := BitVec.ofNat 32 vector.flatten.length
    let (found, p) := getParcel.storage.alloc (ssize (size.toInt + 4)) around.malloc
    if found then
      if (⟨p.data.size, 0, 4 + vector.flatten.length⟩ : Range).Inside then
        some (some (wordBytes flags ++ vector.flatten, true))
      else none
    else some none

/-- The transaction of `BpByteOutput::WriteV`. -/
def BpByteOutput.transact (output : IByteOutput σ) (s : σ) (vector : List (List Byte))
    (flags : BitVec 32) (around : Around) : Option (BitVec 32 × σ) := do
  match ← BpByteOutput.command vector flags around with
  | none => pure (BitVec.ofInt 32 noMemory, s)
  | some (bytes, framed) =>
    let (status, reply, s) ← (if framed then
        BnByteOutput.transactWriteFlags output s (some bytes) (some getParcel) around
      else BnByteOutput.transactWrite output s (some bytes) (some getParcel) around).checked
    pure (if 0 ≤ status.toInt then
      if 4 ≤ reply.storage.length then wordFrom reply.bytes 0 else BitVec.ofInt 32 (-1)
      else status, s)

/-- The values of `BpByteOutput::WriteV`. -/
def BpByteOutput.invoke (output : IByteOutput σ) (s : σ) (vector : List (List Byte))
    (flags : BitVec 32) (around : Around) : Option (BitVec 32 × σ) :=
  -- the sum of the lengths wraps around, the bytes do not
  if 2 ^ 32 ≤ vector.flatten.length then none
  else if around.gives vector.flatten.length then do
    let args ← SValue.initAsMap Flags.none (.int32 0) (.ofBytes rawType vector.flatten)
    let args ← args.joinItem (.int32 1) (.int32 flags) Flags.none
    let (reply, s) ← IBinder.invoke (byteoutputActions parse output) keyWrite args s
    pure (reply.asSSize parse, s)
  else some (BitVec.ofInt 32 noMemory, s)

def BpByteOutput.writeV (output : IByteOutput σ) (canTransact : Bool) (s : σ)
    (vector : List (List Byte)) (flags : BitVec 32) (around : Around) : Option (Proxied σ) := do
  let (status, s) ← if canTransact then BpByteOutput.transact output s vector flags around
    else some (0, s)
  let canTransact := canTransact && status != unknownTransact
  let (status, s) ← if canTransact then some (status, s)
    else BpByteOutput.invoke parse output s vector flags around
  pure ⟨⟨status, []⟩, canTransact, s⟩

end Proxies

end OpenBinder
