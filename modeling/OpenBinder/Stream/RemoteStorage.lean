import OpenBinder.Stream.ByteStream

/-!
# Remote storages

`BpStorage` is the storage of another process. It reads and writes by transactions, or by
`Invoke` once one was not understood, and does everything else by `Get` and `Invoke`.

* `storageActions`: what the server does when it is invoked.
* `BpStorage.perform`: the calls through the proxy.
-/

namespace OpenBinder

open Lib

def keySize : SValue := stringValue [0x53, 0x69, 0x7a, 0x65]
def keySetSize : SValue := stringValue [0x53, 0x65, 0x74, 0x53, 0x69, 0x7a, 0x65]
def keyReadAt : SValue := stringValue [0x52, 0x65, 0x61, 0x64, 0x41, 0x74]
def keyWriteAt : SValue := stringValue [0x57, 0x72, 0x69, 0x74, 0x65, 0x41, 0x74]

/-- `SValue::Offset`, which needs a buffer. -/
def Around.offset (around : Around) (n : BitVec 64) : SValue :=
  if around.gives 8 then .int64 n else .error (BitVec.ofInt 32 noMemory)

namespace SValue

def statusCheck (v : SValue) : ℤ :=
  if v.errorCheck < 0 then v.errorCheck
  else match v with
    | small type data =>
      if type.1 = packSmallType statusType 4 then data.toInt
      else if type.1 = kUndefinedTypeCode then (BitVec.ofNat 32 0x8000052e).toInt
      else 0
    | _ => 0

def typeConversionError (v : SValue) : ℤ := if v.statusCheck < 0 then v.statusCheck else badType

end SValue

section Hooks

variable {σ : Type} (parse : SValue → Option ℤ)

def storageHookSize (storage : IStorage σ) (around : Around) (s : σ) : SValue × σ :=
  (around.offset (storage.size s), s)

def storageHookSetSize (storage : IStorage σ) (s : σ) (args : SValue) : SValue × σ :=
  let param := args.valueFor (.int32 0)
  if !param.isDefined then (.int32 missingArg, s)
  else
    match param.asInt64 parse with
    | none => (.int32 binderBadType, s)
    | some size =>
      let (result, s') := storage.setSize s size
      (.int32 result, s')

def storageHookReadAt (storage : IStorage σ) (around : Around) (s : σ) (args : SValue) :
    SValue × σ :=
  let param0 := args.valueFor (.int32 0)
  if !param0.isDefined then (.int32 missingArg, s)
  else
    match param0.asInt64 parse with
    | none => (.int32 binderBadType, s)
    | some position =>
      let param1 := args.valueFor (.int32 1)
      if !param1.isDefined then (.int32 missingArg, s)
      else
        match param1.asInt32 parse with
        | none => (.int32 binderBadType, s)
        | some len =>
          if around.gives len.toNat then
            let (result, s') := storage.readAtV s position len.toNat
            (if result.amt.toInt < 0 then .int32 result.amt else .ofBytes rawType result.data, s')
          else (.int32 (BitVec.ofInt 32 noMemory), s)

def storageHookWriteAt (storage : IStorage σ) (s : σ) (args : SValue) : SValue × σ :=
  let param0 := args.valueFor (.int32 0)
  if !param0.isDefined then (.int32 missingArg, s)
  else
    match param0.asInt64 parse with
    | none => (.int32 binderBadType, s)
    | some position =>
      let param1 := args.valueFor (.int32 1)
      if !param1.isDefined then (.int32 missingArg, s)
      else if !param1.isSimple && param1.bytes.isSome then (.int32 binderBadType, s)
      else
        let (result, s') := storage.writeAtV s position (param1.bytes.getD [])
        (.int32 result, s')

def storageHookSync (storage : IStorage σ) (s : σ) (_ : SValue) : SValue × σ :=
  let (result, s') := storage.sync s
  (.int32 result, s')

def storageActions (storage : IStorage σ) (around : Around) : List (EffectAction σ) :=
  [⟨keySize, none, some (storageHookSize storage around), none⟩,
    ⟨keySetSize, none, none, some (storageHookSetSize parse storage)⟩,
    ⟨keyReadAt, none, none, some (storageHookReadAt parse storage around)⟩,
    ⟨keyWriteAt, none, none, some (storageHookWriteAt parse storage)⟩,
    ⟨keySync, none, none, some (storageHookSync storage)⟩]

/-! ### The proxy -/

/-- A call on a storage. -/
inductive StorageRequest where
  | size
  | setSize (size : BitVec 64)
  | readAtV (position : BitVec 64) (vector : List ℕ)
  | writeAtV (position : BitVec 64) (vector : List (List Byte))
  | sync

/-- What a call gives. -/
inductive StorageResult where
  | offset (n : BitVec 64)
  | transferred (result : Transferred)

/-- A position in memory. -/
def positionBytes (position : BitVec 64) : List Byte :=
  wordBytes (position.setWidth 32) ++ wordBytes (position.extractLsb' 32 32)

/-- The transaction of `BpStorage::ReadAtV`. -/
def BpStorage.transactReadAt (storage : IStorage σ) (s : σ) (position : BitVec 64)
    (size : BitVec 32) (around : Around) : Option ((BitVec 32 × List Byte) × σ) := do
  let (status, reply, s) ← (BnStorage.transactReadAt storage s
    (some (positionBytes position ++ wordBytes size)) (some getParcel) around).checked
  pure (if 0 ≤ status.toInt then reply.received else (status, []), s)

/-- The values of `BpStorage::ReadAtV`. -/
def BpStorage.invokeReadAt (storage : IStorage σ) (s : σ) (position : BitVec 64)
    (size : BitVec 32) (around : Around) : Option ((BitVec 32 × List Byte) × σ) := do
  let args ← SValue.initAsMap Flags.none (.int32 0) (around.offset position)
  let args ← args.joinItem (.int32 1) (.int32 size) Flags.none
  let (reply, s) ← IBinder.invoke (storageActions parse storage around) keyReadAt args s
  pure (receivedValue reply, s)

/-- The transaction of `BpStorage::WriteAtV`. -/
def BpStorage.transactWriteAt (storage : IStorage σ) (s : σ) (position : BitVec 64)
    (vector : List (List Byte)) (around : Around) : Option (BitVec 32 × σ) := do
  let size := BitVec.ofNat 32 vector.flatten.length
  let (found, p) := getParcel.storage.alloc (ssize (size.toInt + 8)) around.malloc
  if found then
    if (⟨p.data.size, 0, 8 + vector.flatten.length⟩ : Range).Inside then
      let (status, reply, s) ← (BnStorage.transactWriteAt storage s
        (some (positionBytes position ++ vector.flatten)) (some getParcel) around).checked
      pure (if 0 ≤ status.toInt then
        if 4 ≤ reply.storage.length then wordFrom reply.bytes 0 else BitVec.ofInt 32 (-1)
        else status, s)
    else none
  else pure (BitVec.ofInt 32 noMemory, s)

/-- The values of `BpStorage::WriteAtV`. Both are joined under the first key. -/
def BpStorage.invokeWriteAt (storage : IStorage σ) (s : σ) (position : BitVec 64)
    (vector : List (List Byte)) (around : Around) : Option (BitVec 32 × σ) :=
  if 2 ^ 32 ≤ vector.flatten.length then none
  else if around.gives vector.flatten.length then do
    let args ← SValue.initAsMap Flags.none (.int32 0) (around.offset position)
    let args ← args.joinItem (.int32 0) (.ofBytes rawType vector.flatten) Flags.none
    let (reply, s) ← IBinder.invoke (storageActions parse storage around) keyWriteAt args s
    pure (reply.asSSize parse, s)
  else some (BitVec.ofInt 32 noMemory, s)

/-- What a call through the proxy gives: also whether it goes on with transactions, and the
storage behind it. -/
structure StorageProxied (σ : Type) where
  result : StorageResult
  canTransact : Bool
  object : σ

/-- The calls of `BpStorage`; `none` if one goes outside of a buffer. `SetSize` is sent with the
key of `Sync`. -/
def BpStorage.perform (storage : IStorage σ) (canTransact : Bool) (s : σ) (around : Around) :
    StorageRequest → Option (StorageProxied σ)
  | .size => do
    let (value, s) ← IBinder.get (storageActions parse storage around) keySize s
    let n := match value.asInt64 parse with
      | some n => n
      | none => BitVec.ofInt 64 value.typeConversionError
    pure ⟨.offset n, canTransact, s⟩
  | .setSize size => do
    let args ← SValue.initAsMap Flags.none (.int32 0) (around.offset size)
    let (value, s) ← IBinder.invoke (storageActions parse storage around) keySync args s
    pure ⟨.transferred ⟨value.asStatus parse, []⟩, canTransact, s⟩
  | .readAtV position vector => do
    let size := BitVec.ofNat 32 vector.sum
    let (received, s) ← if canTransact then
        BpStorage.transactReadAt storage s position size around
      else some ((0, []), s)
    let canTransact := canTransact && received.1 != unknownTransact
    let (received, s) ← if canTransact then some (received, s)
      else BpStorage.invokeReadAt parse storage s position size around
    pure ⟨.transferred (← deliver vector received.1 received.2), canTransact, s⟩
  | .writeAtV position vector => do
    let (status, s) ← if canTransact then
        BpStorage.transactWriteAt storage s position vector around
      else some (0, s)
    let canTransact := canTransact && status != unknownTransact
    let (status, s) ← if canTransact then some (status, s)
      else BpStorage.invokeWriteAt parse storage s position vector around
    pure ⟨.transferred ⟨status, []⟩, canTransact, s⟩
  | .sync => do
    let (value, s) ← IBinder.invoke (storageActions parse storage around) keySync .wild s
    pure ⟨.transferred ⟨value.asStatus parse, []⟩, canTransact, s⟩

end Hooks

end OpenBinder
