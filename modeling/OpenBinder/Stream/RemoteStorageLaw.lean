import OpenBinder.Stream.RemoteStorage
import OpenBinder.Stream.StreamLaw

/-!
# What a remote storage does like a local one

* `transact_readAt`, `invoke_readAt`: the two ways of a read.
* `perform_size`, `perform_sync`, `perform_setSize`: what is asked for by values only.
* `StoragePair.same_of_reads`: in a run of calls that observe what they have to, every call gives what it
  gives when the storage is called itself.
-/

namespace OpenBinder

open Lib List Option SValue

section Storages

variable {σ : Type} {storage : IStorage σ} {s : σ} {around : Around} {parse : SValue → Option ℤ}
  {position : BitVec 64}

theorem isKey_keySize : keySize.IsKey := ⟨by decide, by decide, by decide, by decide⟩
theorem isKey_keySetSize : keySetSize.IsKey := ⟨by decide, by decide, by decide, by decide⟩
theorem isKey_keyReadAt : keyReadAt.IsKey := ⟨by decide, by decide, by decide, by decide⟩
theorem isKey_keyWriteAt : keyWriteAt.IsKey := ⟨by decide, by decide, by decide, by decide⟩

theorem distinct_storageActions (parse : SValue → Option ℤ) (storage : IStorage σ)
    (around : Around) : Distinct (storageActions parse storage around) := by
  have hkeys : ([keySize, keySetSize, keyReadAt, keyWriteAt, keySync].map SValue.code).Pairwise
      (· ≠ ·) := by decide
  constructor
  · intro a ha
    simp only [storageActions, mem_cons, not_mem_nil, or_false] at ha
    rcases ha with rfl | rfl | rfl | rfl | rfl
    · exact isKey_keySize
    · exact isKey_keySetSize
    · exact isKey_keyReadAt
    · exact isKey_keyWriteAt
    · exact isKey_keySync
  · have hmap : (storageActions parse storage around).map (fun a => a.key.code) =
        [keySize, keySetSize, keyReadAt, keyWriteAt, keySync].map SValue.code := rfl
    exact pairwise_map.1 (hmap ▸ hkeys)

theorem offset_of_gives (h : around.gives 8 = true) (n : BitVec 64) :
    around.offset n = .int64 n := if_pos h

/-- The position and the size that a read sends are those that the server takes out. -/
theorem positionOf_sent (position : BitVec 64) (size : BitVec 32) :
    positionOf (positionBytes position ++ wordBytes size) = position ∧
      wordFrom (positionBytes position ++ wordBytes size) 8 = size :=
  ⟨positionOf_words position, wordOf_wordBytes size⟩

theorem served_readAt {bytes : List Byte} {r : Reply} {p : Storage} {n : ℕ}
    (hlen : 12 ≤ bytes.length) (hsize : (wordFrom bytes 8).toNat = n)
    (hr : r.storage.alloc (ssize ((n : ℤ) + 4)) around.malloc = (true, p)) :
    BnStorage.transactReadAt storage s (some bytes) (some r) around =
      if 0 < n then
        let answer := storage.readAtV s (positionOf bytes) n
        ⟨if 0 ≤ answer.1.amt.toInt then 0 else answer.1.amt, some (.answer p answer.1 around.malloc),
          some (.destination ⟨p.data.size, 4, n⟩), answer.2⟩
      else ⟨0, some (.answer p (.bytes []) around.malloc), none, s⟩ := by
  subst hsize
  unfold BnStorage.transactReadAt
  simp only [getD_some, if_pos hlen, hr, if_true]

theorem told_of_neg {result : ReadResult} (hn : result.data.length < 2 ^ 31)
    (hamt : ¬ 0 ≤ result.amt.toInt) : result.told = (result.amt, []) := by
  cases result with
  | error code => exact Prod.ext (if_neg hamt) rfl
  | bytes data =>
    have hpos : (ReadResult.bytes data).amt.toInt = data.length := amt_bytes hn
    omega

theorem transact_readAt {n : ℕ} (hn : n + 4 < 2 ^ 31)
    (hmemory : n + 4 ≤ 32 ∨ around.malloc = true)
    (hzero : n = 0 → storage.readAtV s position 0 = (.bytes [], s)) :
    BpStorage.transactReadAt storage s position (BitVec.ofNat 32 n) around =
      some ((storage.readAtV s position n).1.told, (storage.readAtV s position n).2) := by
  obtain ⟨p, hr, hp, hlength, havail⟩ := alloc_getParcel hn hmemory
  have hle : ((storage.readAtV s position n).1.data.length : ℤ) ≤ n :=
    Int.ofNat_le.2 (storage.readAtV_le ..)
  have hreceived := received_answer around.malloc hlength havail (by omega) (by omega) hle
  have hlen : 12 ≤ (positionBytes position ++ wordBytes (BitVec.ofNat 32 n)).length := by
    simp only [positionBytes, length_append, wordBytes_length, Nat.reduceAdd, le_refl]
  obtain ⟨hposition, hsize⟩ := positionOf_sent position (BitVec.ofNat 32 n)
  have hnat : (wordFrom (positionBytes position ++ wordBytes (BitVec.ofNat 32 n)) 8).toNat = n := by
    rw [hsize, BitVec.toNat_ofNat, Nat.mod_eq_of_lt (by omega)]
  unfold BpStorage.transactReadAt
  rw [served_readAt hlen hnat hr, hposition]
  rcases Nat.eq_zero_or_pos n with rfl | hpos
  · -- the server does not call the storage
    rw [hzero rfl] at hreceived ⊢
    rw [if_neg (lt_irrefl 0)]
    unfold Served.checked
    rw [if_pos (by intro given hg; exact absurd hg not_mem_nil)]
    simp only [bind_eq_bind, bind_some, getD_some, hreceived]
    rw [if_pos (by decide)]
    rfl
  · rw [if_pos hpos, checked_answer hp havail]
    simp only [bind_eq_bind, bind_some, hreceived]
    by_cases hamt : 0 ≤ (storage.readAtV s position n).1.amt.toInt
    · rw [if_pos hamt, if_pos (by decide)]
      rfl
    · rw [if_neg hamt, if_neg hamt, told_of_neg (by omega) hamt]
      rfl

theorem invoke_readAt {n : ℕ} (hn : n < 2 ^ 31) (hoffset : around.gives 8 = true)
    (hmemory : around.gives n = true) (hresult : 0 ≤ (storage.readAtV s position n).1.amt.toInt) :
    BpStorage.invokeReadAt parse storage s position (BitVec.ofNat 32 n) around =
      some ((storage.readAtV s position n).1.told, (storage.readAtV s position n).2) := by
  have h0 := isKey_int32 0
  have h1 := isKey_int32 1
  have hlt : (SValue.int32 0).compare (SValue.int32 1) = .lt := by decide
  have hfirst := isPlain_int64 position
  have hsecond := isPlain_int32 (BitVec.ofNat 32 n)
  have hargs := initAsMap_key h0 hfirst.defined hfirst.error
  have hjoin := joinItem_one (v := .int64 position) h0 h1 hlt hsecond.defined hsecond.null
    hsecond.error
  have hnat : (BitVec.ofNat 32 n).toNat = n := by
    rw [BitVec.toNat_ofNat, Nat.mod_eq_of_lt (by omega)]
  have hhook : storageHookReadAt parse storage around s (SValue.two (.int32 0) (.int64 position)
      (.int32 1) (.int32 (BitVec.ofNat 32 n))) =
        (.ofBytes rawType (storage.readAtV s position n).1.data,
          (storage.readAtV s position n).2) := by
    unfold storageHookReadAt
    simp only [valueFor_two_fst h0, valueFor_two_snd h0 h1 hlt, hfirst.defined,
      hsecond.defined, Bool.not_true, Bool.false_eq_true, if_false, asInt64_int64,
      asInt32_int32, hnat, hmemory, if_true, if_neg (not_lt.2 hresult)]
  have hinvoke := invoke_eq (distinct_storageActions parse storage around)
    (mem_cons_of_mem _ (mem_cons_of_mem _ (mem_cons_self ..)))
    (isDefined_two _ _ _ _) (isError_two _ _ _ _) hhook (isPlain_raw _).defined
  unfold BpStorage.invokeReadAt
  rw [offset_of_gives hoffset, hargs]
  simp only [bind_eq_bind, bind_some, hjoin, hinvoke, received_raw hresult]
  rfl

/-- **What a read has to find**. -/
def ReadAtFits (storage : IStorage σ) (canTransact : Bool) (s : σ) (position : BitVec 64)
    (vector : List ℕ) (around : Around) : Prop :=
  let n := vector.sum
  let r := storage.readAtV s position n
  if canTransact then
    n + 4 < 2 ^ 31 ∧ (n + 4 ≤ 32 ∨ around.malloc = true) ∧ r.1.amt ≠ unknownTransact ∧
      (n = 0 → storage.readAtV s position 0 = (.bytes [], s))
  else n < 2 ^ 31 ∧ around.gives 8 = true ∧ around.gives n = true ∧ 0 ≤ r.1.amt.toInt

variable {canTransact : Bool}

theorem perform_readAtV {vector : List ℕ}
    (h : ReadAtFits storage canTransact s position vector around) :
    BpStorage.perform parse storage canTransact s around (.readAtV position vector) =
      let r := storage.readAtV s position vector.sum
      some ⟨.transferred ⟨r.1.amt, fill vector r.1.data⟩, canTransact, r.2⟩ := by
  have hle := storage.readAtV_le s position vector.sum
  rw [BpStorage.perform]
  cases canTransact with
  | true =>
    obtain ⟨hn, hmemory, hknown, hzero⟩ := h
    have htold := told_ne_unknownTransact hknown
    simp only [if_true, transact_readAt hn hmemory hzero, bind_eq_bind, bind_some,
      Bool.true_and, bne_iff_ne, ne_eq, htold, not_false_eq_true,
      deliver_told (show vector.sum < 2 ^ 31 by omega) hle]
    simp [htold]
  | false =>
    obtain ⟨hn, hoffset, hmemory, hresult⟩ := h
    simp only [Bool.false_eq_true, if_false, bind_eq_bind, bind_some, Bool.false_and,
      invoke_readAt hn hoffset hmemory hresult, deliver_told hn hle]
    rfl

theorem perform_size (h : around.gives 8 = true) :
    BpStorage.perform parse storage canTransact s around .size =
      some ⟨.offset (storage.size s), canTransact, s⟩ := by
  have hhook : storageHookSize storage around s = (.int64 (storage.size s), s) := by
    unfold storageHookSize
    rw [offset_of_gives h]
  have hget := get_eq (distinct_storageActions parse storage around) (mem_cons_self ..) hhook
    (isPlain_int64 _).defined
  simp only [BpStorage.perform, hget, bind_eq_bind, bind_some, asInt64_int64]
  rfl

/-- Whatever is invoked with the key of `Sync` is told to the storage as that. -/
theorem invoke_keySync {args : SValue} (hd : args.isDefined = true) (he : args.isError = false) :
    IBinder.invoke (storageActions parse storage around) keySync args s =
      some (.int32 (storage.sync s).1, (storage.sync s).2) := by
  have hmem : (⟨keySync, none, none, some (storageHookSync storage)⟩ : EffectAction σ) ∈
      storageActions parse storage around := by
    unfold storageActions
    simp only [mem_cons, true_or, or_true]
  exact invoke_eq (distinct_storageActions parse storage around) hmem hd he rfl
    (isPlain_int32 _).defined

theorem asStatus_int32 {status : BitVec 32} (h : status.toInt ≤ 0) :
    (SValue.int32 status).asStatus parse = status := by
  unfold SValue.asStatus
  rw [asSSize_int32, if_pos h]

theorem perform_sync (h : (storage.sync s).1.toInt ≤ 0) :
    BpStorage.perform parse storage canTransact s around .sync =
      some ⟨.transferred ⟨(storage.sync s).1, []⟩, canTransact, (storage.sync s).2⟩ := by
  have hinvoke : IBinder.invoke (storageActions parse storage around) keySync .wild s =
      some (.int32 (storage.sync s).1, (storage.sync s).2) :=
    invoke_keySync (by decide) (by decide)
  simp only [BpStorage.perform, hinvoke, bind_eq_bind, bind_some, asStatus_int32 h]
  rfl

theorem perform_setSize {size : BitVec 64} (hoffset : around.gives 8 = true)
    (h : (storage.sync s).1.toInt ≤ 0) :
    BpStorage.perform parse storage canTransact s around (.setSize size) =
      some ⟨.transferred ⟨(storage.sync s).1, []⟩, canTransact, (storage.sync s).2⟩ := by
  have hplain := isPlain_int64 size
  have hargs := initAsMap_key (isKey_int32 0) hplain.defined hplain.error
  simp only [BpStorage.perform, offset_of_gives hoffset, hargs, bind_eq_bind, bind_some, asStatus_int32 h,
    invoke_keySync (isDefined_one _ _) (isError_one _ _)]
  rfl

end Storages

/-! ### Runs -/

/-- A call on a storage, with what is found around it. -/
structure RemoteCall where
  request : StorageRequest
  around : Around

/-- The call on the storage itself. -/
def StorageRequest.directly {σ : Type} (storage : IStorage σ) (s : σ) :
    StorageRequest → StorageResult × σ
  | .size => (.offset (storage.size s), s)
  | .setSize n =>
    let r := storage.setSize s n
    (.transferred ⟨r.1, []⟩, r.2)
  | .readAtV position vector =>
    let r := storage.readAtV s position vector.sum
    (.transferred ⟨r.1.amt, fill vector r.1.data⟩, r.2)
  | .writeAtV position vector =>
    let r := storage.writeAtV s position vector.flatten
    (.transferred ⟨r.1, []⟩, r.2)
  | .sync =>
    let r := storage.sync s
    (.transferred ⟨r.1, []⟩, r.2)

/-- Two storages, one of them behind a proxy, and what this remembers. -/
structure StoragePair (σ : Type) where
  canTransact : Bool
  remote : σ
  direct : σ

namespace StoragePair

variable {σ : Type} (parse : SValue → Option ℤ) (storage : IStorage σ)

/-- The call through the proxy; `none` if it goes outside of a buffer. -/
def viaProxy (p : StoragePair σ) (c : RemoteCall) : Option (StorageProxied σ) :=
  BpStorage.perform parse storage p.canTransact p.remote c.around c.request

/-- One call, on both. -/
def step (p : StoragePair σ) (c : RemoteCall) : Option (StoragePair σ) :=
  let direct := (c.request.directly storage p.direct).2
  match p.viaProxy parse storage c with
  | none => some { p with direct := direct }
  | some r => some ⟨r.canTransact, r.object, direct⟩

/-- **The call is the same**: the result, the bytes that were moved, and the storage
afterwards. -/
def Same (p : StoragePair σ) (c : RemoteCall) : Prop :=
  ∃ r, p.viaProxy parse storage c = some r ∧
    (r.result, r.object) = c.request.directly storage p.direct

/-- The calls that the proxy gets right. A size that is set is a sync instead, and no write is
right: what is sent one way is taken for longer than it is, and the other way its bytes are
joined to the position. -/
def Observes (p : StoragePair σ) (c : RemoteCall) : Prop :=
  match c.request with
  | .size => c.around.gives 8 = true
  | .setSize n => c.around.gives 8 = true ∧ (storage.sync p.remote).1.toInt ≤ 0 ∧
      storage.setSize p.remote n = storage.sync p.remote
  | .readAtV position vector =>
    ReadAtFits storage p.canTransact p.remote position vector c.around
  | .writeAtV .. => False
  | .sync => (storage.sync p.remote).1.toInt ≤ 0

variable {parse storage}

/-- **One call** that observes what it has to is the call on the storage itself. -/
theorem viaProxy_eq {p : StoragePair σ} {c : RemoteCall} (ho : p.Observes storage c) :
    let r := c.request.directly storage p.remote
    p.viaProxy parse storage c = some ⟨r.1, p.canTransact, r.2⟩ := by
  obtain ⟨request, around⟩ := c
  cases request with
  | size => exact perform_size ho
  | setSize n =>
    obtain ⟨hoffset, hstatus, hsame⟩ := ho
    have hperform : p.viaProxy parse storage ⟨.setSize n, around⟩ =
        some ⟨.transferred ⟨(storage.sync p.remote).1, []⟩, p.canTransact,
          (storage.sync p.remote).2⟩ := perform_setSize hoffset hstatus
    rw [← hsame] at hperform
    exact hperform
  | readAtV position vector => exact perform_readAtV ho
  | writeAtV position vector => exact absurd ho id
  | sync => exact perform_sync ho

theorem same_step {p p' : StoragePair σ} {c : RemoteCall} (h : p.remote = p.direct)
    (hstep : p.step parse storage c = some p') (ho : p.Observes storage c) :
    p.Same parse storage c ∧ p'.remote = p'.direct := by
  have hvia : p.viaProxy parse storage c = some ⟨_, p.canTransact, _⟩ := viaProxy_eq ho
  unfold step at hstep
  rw [hvia] at hstep
  rw [← Option.some.inj hstep]
  rw [h] at hvia
  exact ⟨⟨_, hvia, rfl⟩, by rw [h]⟩

end StoragePair

/-- **A remote storage is like a local one**: in every run of calls that observe what they have
to, every call is the same through the proxy and on the storage itself. -/
theorem StoragePair.same_of_reads {σ : Type} (parse : SValue → Option ℤ) (storage : IStorage σ)
    (p : StoragePair σ) (h : p.remote = p.direct) (cs : List RemoteCall)
    (ho : AllSteps (step parse storage) (Observes storage) p cs) :
    AllSteps (step parse storage) (Same parse storage) p cs := by
  have hkeep : ∀ p c p', p.remote = p.direct → step parse storage p c = some p' →
      Observes storage p c → Same parse storage p c ∧ p'.remote = p'.direct :=
    fun p c p' h hstep ho => same_step h hstep ho
  exact AllSteps.imp hkeep cs p h ho

namespace StoragePair

/-- Bytes in memory, which are always in sync. -/
def bytesStorage : IStorage (List Byte) where
  size s := BitVec.ofNat 64 s.length
  setSize s size := (0, (s ++ List.replicate (size.toNat - s.length) 0).take size.toNat)
  readAtV s position n := (.bytes ((s.drop position.toNat).take n), s)
  readAtV_le _ _ n := length_take_le n _
  writeAtV s position bytes :=
    (BitVec.ofNat 32 bytes.length,
      s.take position.toNat ++ bytes ++ s.drop (position.toNat + bytes.length))
  sync s := (0, s)

/-- The size, a read by a transaction of more than is there, and a sync. -/
theorem same_bytes :
    AllSteps (step (fun _ => none) bytesStorage) (Same (fun _ => none) bytesStorage)
      ⟨true, [1, 2, 3, 4, 5], [1, 2, 3, 4, 5]⟩
      [⟨.size, true, []⟩, ⟨.readAtV 2 [2, 2], true, []⟩, ⟨.sync, true, []⟩] := by
  apply same_of_reads _ _ _ rfl
  have hsync : (0 : BitVec 32).toInt ≤ 0 := by decide
  refine .cons rfl rfl (.cons rfl ?_ (.cons rfl hsync trivial))
  exact ⟨by decide, .inl (by decide), by decide, fun h => absurd h (by decide)⟩

/-- A size that is set through the proxy stays as it was. -/
theorem not_same_setSize :
    ¬ ∀ (σ : Type) (parse : SValue → Option ℤ) (storage : IStorage σ) (p : StoragePair σ),
        p.remote = p.direct → ∀ cs,
          AllSteps (step parse storage) (Same parse storage) p cs := by
  intro h
  have hrun := h _ (fun _ => none) bytesStorage ⟨true, [], []⟩ rfl [⟨.setSize 1, true, []⟩]
  obtain ⟨r, hr, hresult⟩ := (hrun _ rfl).1
  obtain rfl := Option.some.inj hr
  exact absurd (congrArg Prod.snd hresult) (by decide)

end StoragePair

end OpenBinder
