import OpenBinder.Stream.ByteStream
import OpenBinder.Stream.ServerLaw

/-!
# Remote byte streams are like local ones

* `transact_read`, `invoke_read`: the two ways of a read.
* `transact_write`, `invoke_write`: those of a write.
* `same_of_observes`: in a run of calls that observe what they have to, every call gives what it
  gives when the stream is called itself.
-/

namespace OpenBinder

open Lib List Option SValue

theorem wordFrom_append (w : BitVec 32) (bytes : List Byte) : wordFrom (wordBytes w ++ bytes) 0 = w :=
  wordOf_wordBytes w

theorem toInt_ofNat {n : ℕ} (h : n < 2 ^ 31) : (BitVec.ofNat 32 n).toInt = n := by
  rw [BitVec.toInt_eq_toNat_bmod, BitVec.toNat_ofNat, Nat.mod_eq_of_lt (by omega),
    Int.bmod_eq_of_le] <;> omega

theorem scatter_eq (vector : List ℕ) : ∀ {bytes : List Byte}, vector.sum < 2 ^ 31 →
    bytes.length < 2 ^ 31 → scatter vector bytes = some (fill vector bytes) := by
  induction vector with
  | nil => intro bytes _ _; rfl
  | cons len vector ih =>
    intro bytes hsum hlen
    rw [sum_cons] at hsum
    cases bytes with
    | nil => rfl
    | cons b bytes =>
      have hsize : ssize (len : ℤ) = len := ssize_of_lt (by omega) (by omega)
      have hthis : (if ssize (len : ℤ) > ((b :: bytes).length : ℤ) then ((b :: bytes).length : ℤ)
          else ssize (len : ℤ)) = (min len (b :: bytes).length : ℕ) := by
        rw [hsize]
        split <;> omega
      have hneg : ¬ ((min len (b :: bytes).length : ℕ) : ℤ) < 0 := by omega
      have htake : (b :: bytes).take (min len (b :: bytes).length) = (b :: bytes).take len := by
        rw [take_eq_take_iff]
        omega
      have hdrop : (b :: bytes).drop (min len (b :: bytes).length) = (b :: bytes).drop len := by
        rcases le_total len (b :: bytes).length with hle | hle
        · rw [Nat.min_eq_left hle]
        · rw [Nat.min_eq_right hle, drop_length, drop_eq_nil_of_le hle]
      rw [scatter, fill_cons _ _ (cons_ne_nil _ _)]
      simp only [hthis, if_neg hneg, Int.toNat_natCast, htake, hdrop]
      rw [ih (by omega) (by rw [length_drop]; omega)]
      rfl

theorem placed_getParcel : getParcel.storage.Placed := ⟨by decide, by decide, by decide⟩

/-- What a reader is told of a result: the error, or nothing but the bytes. -/
def ReadResult.told (result : ReadResult) : BitVec 32 × List Byte :=
  (if 0 ≤ result.amt.toInt then 0 else result.amt, result.data)

variable {result : ReadResult}

/-- **What was told is given out**: the result, and the bytes to the elements. -/
theorem deliver_told {vector : List ℕ} (hsum : vector.sum < 2 ^ 31)
    (hle : result.data.length ≤ vector.sum) :
    deliver vector result.told.1 result.told.2 = some ⟨result.amt, fill vector result.data⟩ := by
  cases result with
  | error code =>
    have hneg : ¬ 0 ≤ code.1.toInt := not_le.2 code.2
    show deliver vector (if 0 ≤ code.1.toInt then 0 else code.1) [] = _
    rw [if_neg hneg, deliver, if_neg hneg]
    show _ = some (⟨code.1, fill vector []⟩ : Transferred)
    rw [fill_nil]
  | bytes data =>
    have hdata : data.length ≤ vector.sum := hle
    have hstatus : (ReadResult.bytes data).told.1 = 0 := if_pos (by
      show 0 ≤ (BitVec.ofNat 32 data.length).toInt
      rw [toInt_ofNat (by omega)]
      omega)
    rw [hstatus, deliver, if_pos (by decide)]
    show (scatter vector data).bind _ = _
    rw [scatter_eq vector hsum (by omega), bind_some, sum_fill, Nat.min_eq_right hdata]
    rfl

theorem amt_bytes {data : List Byte} (h : data.length < 2 ^ 31) :
    (ReadResult.bytes data).amt.toInt = data.length := by
  exact toInt_ofNat h

theorem length_reAlloc {p : Storage} {len : ℤ} (malloc : Bool) (h0 : 0 ≤ p.length)
    (hle : len ≤ p.length) (havail : p.length ≤ p.avail) :
    (p.reAlloc len malloc).2.length = len := by
  unfold Storage.reAlloc
  rw [if_neg (not_lt.2 h0), if_neg (by omega)]
  split
  · rfl
  · show p.length = len
    omega

theorem received_answer {p : Storage} {n : ℤ} (malloc : Bool) (hlength : p.length = n + 4)
    (havail : n + 4 ≤ p.avail) (h0 : 0 ≤ n) (hn : n + 4 < 2 ^ 31) (hle : result.data.length ≤ n) :
    (Reply.answer p result malloc).received = result.told := by
  have hcut : ∀ len : ℤ, len ≤ n + 4 → ((p.touch 0 4).reAlloc len malloc).2.length = len :=
    fun len hlen => length_reAlloc malloc (by rw [Storage.touch_length]; omega)
      (by rw [Storage.touch_length]; omega) (by rw [Storage.touch_length, Storage.touch_avail]; omega)
  unfold Reply.received Reply.answer
  simp only [wordFrom_append]
  cases result with
  | error code =>
    have hneg : ¬ 0 ≤ (ReadResult.error code).amt.toInt := not_le.2 code.2
    rw [if_neg hneg, hcut 4 (by omega), if_pos le_rfl, if_neg hneg]
    exact Prod.ext (if_neg hneg).symm rfl
  | bytes data =>
    have hdata : (data.length : ℤ) ≤ n := hle
    have hamt := amt_bytes (show data.length < 2 ^ 31 by omega)
    have hpos : 0 ≤ (ReadResult.bytes data).amt.toInt := by omega
    rw [if_pos hpos, hamt, ssize_of_lt (by omega) (by omega), hcut _ (by omega), if_pos (by omega),
      if_pos (by omega)]
    refine Prod.ext (if_pos hpos).symm ?_
    show ((wordBytes _ ++ data).drop 4).take _ = data
    rw [show (data.length + 4 - 4 : ℤ) = data.length by omega, Int.toNat_natCast]
    exact take_length

theorem received_raw (hresult : 0 ≤ result.amt.toInt) :
    receivedValue (.ofBytes rawType result.data) = result.told := by
  unfold receivedValue
  rw [bytes_ofBytes, (isPlain_raw _).errorCheck]
  exact Prod.ext (if_pos hresult).symm rfl

theorem told_ne_unknownTransact (h : result.amt ≠ unknownTransact) :
    result.told.1 ≠ unknownTransact := by
  unfold ReadResult.told
  split
  · exact (by decide : (0 : BitVec 32) ≠ unknownTransact)
  · exact h

section Streams

variable {σ : Type} {input : IByteInput σ} {output : IByteOutput σ} {s : σ} {flags : BitVec 32}
  {around : Around} {parse : SValue → Option ℤ}

variable {n : ℕ} {vector : List (List Byte)}

theorem alloc_getParcel {malloc : Bool} (hn : n + 4 < 2 ^ 31) (hmemory : n + 4 ≤ 32 ∨ malloc = true)
    :
    ∃ p, getParcel.storage.alloc (ssize ((n : ℤ) + 4)) malloc = (true, p) ∧ p.Placed ∧
      p.length = n + 4 ∧ (n : ℤ) + 4 ≤ p.avail := by
  have hssize : ssize ((n : ℤ) + 4) = (n : ℤ) + 4 := ssize_of_lt (by omega) (by omega)
  have hmade := placed_getParcel.alloc malloc (show (n : ℤ) + 4 < 2 ^ 31 by omega)
  rw [hssize]
  generalize getParcel.storage.alloc ((n : ℤ) + 4) malloc = made at hmade
  obtain ⟨found, p⟩ := made
  obtain ⟨hp, hgot, hfound⟩ := hmade
  obtain rfl : found = true := hfound (hmemory.imp (by omega) id)
  obtain ⟨havail, hlength⟩ := hgot rfl
  exact ⟨p, rfl, hp, hlength, havail⟩

theorem checked_answer {p : Storage} {result : ReadResult} {status : BitVec 32} {malloc : Bool}
    (hp : p.Placed) (havail : (n : ℤ) + 4 ≤ p.avail) :
    (⟨status, some (.answer p result malloc), some (.destination ⟨p.data.size, 4, n⟩), s⟩ :
      Served σ).checked = some (status, .answer p result malloc, s) := by
  unfold Served.checked
  rw [if_pos]
  · rfl
  · intro given hg
    obtain rfl := mem_singleton.1 hg
    exact inside_of_avail hp havail

theorem transact_read (h0 : 0 < n) (hn : n + 4 < 2 ^ 31)
    (hmemory : n + 4 ≤ 32 ∨ around.malloc = true) :
    BpByteInput.transact input s (BitVec.ofNat 32 n) flags around =
      some ((input.readV s n flags).1.told, (input.readV s n flags).2) := by
  obtain ⟨p, hr, hp, hlength, havail⟩ := alloc_getParcel hn hmemory
  have hle : ((input.readV s n flags).1.data.length : ℤ) ≤ n := Int.ofNat_le.2 (input.readV_le ..)
  have hserved : BnByteInput.transact input s (some (wordBytes (BitVec.ofNat 32 n) ++
      wordBytes flags)) (some getParcel) around = ⟨0, some (.answer p (input.readV s n flags).1
        around.malloc), some (.destination ⟨p.data.size, 4, n⟩), (input.readV s n flags).2⟩ := by
    have hflags : wordFrom (wordBytes (BitVec.ofNat 32 n) ++ wordBytes flags) 4 = flags :=
      wordOf_wordBytes flags
    unfold BnByteInput.transact
    simp only [getD_some, length_append, wordBytes_length, wordFrom_append,
      toInt_ofNat (show n < 2 ^ 31 by omega), hflags, hr, Int.toNat_natCast]
    rw [if_pos (by decide), if_pos (by omega), if_pos (by decide)]
    rfl
  unfold BpByteInput.transact
  rw [hserved, checked_answer hp havail]
  simp only [bind_eq_bind, bind_some]
  rw [received_answer around.malloc hlength havail (by omega) (by omega) hle]
  rfl

theorem isKey_keyRead : keyRead.IsKey := ⟨by decide, by decide, by decide, by decide⟩
theorem isKey_keyWrite : keyWrite.IsKey := ⟨by decide, by decide, by decide, by decide⟩
theorem isKey_keySync : keySync.IsKey := ⟨by decide, by decide, by decide, by decide⟩

theorem distinct_byteinputActions (parse : SValue → Option ℤ) (input : IByteInput σ)
    (around : Around) : Distinct (byteinputActions parse input around) :=
  ⟨fun _ ha => mem_singleton.1 ha ▸ isKey_keyRead, pairwise_singleton _ _⟩

theorem distinct_byteoutputActions (parse : SValue → Option ℤ) (output : IByteOutput σ) :
    Distinct (byteoutputActions parse output) := by
  refine ⟨fun a ha => ?_, ?_⟩
  · rcases mem_cons.1 ha with rfl | ha
    · exact isKey_keyWrite
    · exact mem_singleton.1 ha ▸ isKey_keySync
  · refine pairwise_cons.2 ⟨fun a ha => ?_, pairwise_singleton _ _⟩
    rw [mem_singleton.1 ha]
    show keyWrite.code ≠ keySync.code
    decide

/-- **A read by `Invoke`** is the read without flags, if that is no error. -/
theorem invoke_read (hn : n < 2 ^ 31) (hmemory : around.gives n = true)
    (hresult : 0 ≤ (input.readV s n 0).1.amt.toInt) :
    BpByteInput.invoke parse input s (BitVec.ofNat 32 n) 0 around =
      some ((input.readV s n 0).1.told, (input.readV s n 0).2) := by
  have hk := isKey_int32 0
  have hplain := isPlain_int32 (BitVec.ofNat 32 n)
  have hargs : SValue.initAsMap Flags.none (.int32 0) (.int32 (BitVec.ofNat 32 n)) =
      some (SValue.one (.int32 0) (.int32 (BitVec.ofNat 32 n))) :=
    initAsMap_key hk hplain.defined hplain.error
  have hnat : (BitVec.ofNat 32 n).toNat = n := by
    rw [BitVec.toNat_ofNat, Nat.mod_eq_of_lt (by omega)]
  have hhook : byteinputHookRead parse input around s
      (SValue.one (.int32 0) (.int32 (BitVec.ofNat 32 n))) =
        (.ofBytes rawType (input.readV s n 0).1.data, (input.readV s n 0).2) := by
    unfold byteinputHookRead
    simp only [valueFor_one_eq hk hk (compare_self _), hplain.defined, Bool.not_true,
      Bool.false_eq_true, if_false, asInt32_int32, hnat, hmemory, if_true,
      if_neg (not_lt.2 hresult)]
  have hinvoke := invoke_eq (distinct_byteinputActions parse input around)
    (mem_singleton.2 rfl) (isDefined_one _ _) (isError_one _ _) hhook
    (isPlain_raw _).defined
  unfold BpByteInput.invoke
  rw [hargs]
  simp only [bind_eq_bind, bind_some, ne_eq, not_true_eq_false, if_false, hinvoke,
    received_raw hresult]
  rfl

/-- **What a read has to find**: there is something to read and memory for it, and the stream
does not answer what a remote object says that does not know transactions; where they are given
up, there are no flags and no errors. -/
def ReadFits (input : IByteInput σ) (canTransact : Bool) (s : σ) (vector : List ℕ)
    (flags : BitVec 32) (around : Around) : Prop :=
  let n := vector.sum
  let amt := (input.readV s n flags).1.amt
  if canTransact then
    0 < n ∧ n + 4 < 2 ^ 31 ∧ (n + 4 ≤ 32 ∨ around.malloc = true) ∧ amt ≠ unknownTransact
  else n < 2 ^ 31 ∧ around.gives n = true ∧ flags = 0 ∧ 0 ≤ amt.toInt

theorem readV_eq {canTransact : Bool} {vector : List ℕ}
    (h : ReadFits input canTransact s vector flags around) :
    BpByteInput.readV parse input canTransact s vector flags around =
      let r := input.readV s vector.sum flags
      some ⟨⟨r.1.amt, fill vector r.1.data⟩, canTransact, r.2⟩ := by
  have hle := input.readV_le s vector.sum flags
  unfold BpByteInput.readV
  cases canTransact with
  | true =>
    obtain ⟨h0, hn, hmemory, hknown⟩ := h
    have htold := told_ne_unknownTransact hknown
    simp only [if_true, transact_read h0 hn hmemory, bind_eq_bind, bind_some,
      Bool.true_and, bne_iff_ne, ne_eq, htold, not_false_eq_true,
      deliver_told (show vector.sum < 2 ^ 31 by omega) hle]
    simp [htold]
  | false =>
    obtain ⟨hn, hmemory, rfl, hresult⟩ := h
    simp only [Bool.false_eq_true, if_false, bind_eq_bind, bind_some, Bool.false_and,
      invoke_read hn hmemory hresult, deliver_told hn hle]
    rfl

theorem told_copy (word : BitVec 32) (malloc : Bool) :
    (if 0 ≤ BitVec.toInt (0 : BitVec 32) then
      if 4 ≤ (getParcel.copy word malloc).storage.length then
        wordFrom (getParcel.copy word malloc).bytes 0
      else BitVec.ofInt 32 (-1)
    else 0) = word := by
  rw [if_pos (by decide), if_pos (show 4 ≤ (getParcel.copy word malloc).storage.length from le_rfl)]
  exact wordOf_wordBytes word

theorem checked_source {r : BitVec 32 × σ} {length offset n : ℤ} (h0 : 0 ≤ offset)
    (hle : offset + n ≤ length) :
    (⟨0, (some getParcel).map (·.copy r.1 around.malloc), some (.source ⟨length, offset, n⟩), r.2⟩ :
      Served σ).checked = some (0, getParcel.copy r.1 around.malloc, r.2) := by
  unfold Served.checked
  rw [if_pos]
  · rfl
  · intro given hg
    obtain rfl := mem_singleton.1 hg
    exact fun _ => ⟨h0, hle⟩

/-- The bytes that a write sends are there: one buffer that is not empty is sent without a
frame, and otherwise there is memory for the flags and the bytes. -/
def CommandFits (vector : List (List Byte)) (flags : BitVec 32) (around : Around) : Prop :=
  if vector.length = 1 ∧ flags = 0 then 0 < vector.flatten.length
  else vector.flatten.length + 4 < 2 ^ 31 ∧
    (vector.flatten.length + 4 ≤ 32 ∨ around.malloc = true)

theorem command_framed (hn : vector.flatten.length + 4 < 2 ^ 31)
    (hmemory : vector.flatten.length + 4 ≤ 32 ∨ around.malloc = true) :
    BpByteOutput.command.framed vector flags around =
      some (some (wordBytes flags ++ vector.flatten, true)) := by
  obtain ⟨p, hr, hp, -, havail⟩ := alloc_getParcel hn hmemory
  have hinside : (⟨p.data.size, 0, 4 + vector.flatten.length⟩ : Range).Inside := by
    intro _
    have hle := hp.avail_le
    exact ⟨le_rfl, by show 0 + (4 + (vector.flatten.length : ℤ)) ≤ p.data.size; omega⟩
  unfold BpByteOutput.command.framed
  simp only [toInt_ofNat (show vector.flatten.length < 2 ^ 31 by omega), hr, if_true,
    if_pos hinside]

theorem transact_write (h : CommandFits vector flags around) :
    BpByteOutput.transact output s vector flags around =
      some (output.writeV s vector.flatten flags) := by
  unfold CommandFits at h
  by_cases hsingle : vector.length = 1 ∧ flags = 0
  · rw [if_pos hsingle] at h
    obtain ⟨hlen, rfl⟩ := hsingle
    obtain ⟨buffer, rfl⟩ := length_eq_one_iff.1 hlen
    rw [flatten_singleton] at h ⊢
    cases buffer with
    | nil => exact absurd h (Nat.lt_irrefl 0)
    | cons b bytes =>
      have hcommand : BpByteOutput.command [b :: bytes] 0 around =
          some (some (b :: bytes, false)) := rfl
      have hserved : (BnByteOutput.transactWrite output s (some (b :: bytes)) (some getParcel)
          around).checked = some (0, getParcel.copy (output.writeV s (b :: bytes) 0).1
            around.malloc, (output.writeV s (b :: bytes) 0).2) := checked_source le_rfl (by omega)
      unfold BpByteOutput.transact
      rw [hcommand]
      simp only [bind_eq_bind, bind_some, Bool.false_eq_true, if_false, hserved,
        told_copy]
      rfl
  · rw [if_neg hsingle] at h
    have hcommand : BpByteOutput.command vector flags around =
        some (some (wordBytes flags ++ vector.flatten, true)) := by
      unfold BpByteOutput.command
      split
      · rename_i buffer
        rw [if_neg fun hflags => hsingle ⟨rfl, hflags⟩]
        exact command_framed h.1 h.2
      · exact command_framed h.1 h.2
    have hserved : (BnByteOutput.transactWriteFlags output s (some (wordBytes flags ++
        vector.flatten)) (some getParcel) around).checked = some (0, getParcel.copy (output.writeV s
          vector.flatten flags).1 around.malloc, (output.writeV s vector.flatten flags).2) := by
      unfold BnByteOutput.transactWriteFlags
      have hlen : 4 ≤ (wordBytes flags ++ vector.flatten).length := by
        rw [length_append, wordBytes_length]
        omega
      have hdrop : (wordBytes flags ++ vector.flatten).drop 4 = vector.flatten := rfl
      simp only [getD_some, if_pos hlen, hdrop, wordFrom_append]
      exact checked_source (by decide) (by omega)
    unfold BpByteOutput.transact
    rw [hcommand]
    simp only [bind_eq_bind, bind_some, if_true, hserved, told_copy]
    rfl

theorem invoke_write (hn : vector.flatten.length < 2 ^ 32)
    (hmemory : around.gives vector.flatten.length = true) :
    BpByteOutput.invoke parse output s vector flags around =
      some (output.writeV s vector.flatten flags) := by
  have h0 := isKey_int32 0
  have h1 := isKey_int32 1
  have hlt : (SValue.int32 0).compare (SValue.int32 1) = .lt := by decide
  have hraw := isPlain_raw vector.flatten
  have hflags := isPlain_int32 flags
  have hargs := initAsMap_key h0 hraw.defined hraw.error
  have hjoin := joinItem_one (v := .ofBytes rawType vector.flatten) h0 h1 hlt hflags.defined
    hflags.null hflags.error
  have hhook : byteoutputHookWrite parse output s (SValue.two (.int32 0)
      (.ofBytes rawType vector.flatten) (.int32 1) (.int32 flags)) =
        (.int32 (output.writeV s vector.flatten flags).1,
          (output.writeV s vector.flatten flags).2) := by
    unfold byteoutputHookWrite
    simp only [valueFor_two_fst h0, valueFor_two_snd h0 h1 hlt, hflags.defined,
      asInt32_int32, hraw.defined, hraw.simple, bytes_ofBytes, if_true, Bool.not_true,
      Bool.false_and, Bool.false_eq_true, if_false, getD_some]
  have hinvoke := invoke_eq (distinct_byteoutputActions parse output) (mem_cons_self ..)
    (isDefined_two _ _ _ _) (isError_two _ _ _ _) hhook (isPlain_int32 _).defined
  unfold BpByteOutput.invoke
  rw [if_neg (by omega), if_pos hmemory, hargs]
  simp only [bind_eq_bind, bind_some, hjoin, hinvoke, asSSize_int32]
  rfl

/-- **What a write has to find**. -/
def WriteFits (output : IByteOutput σ) (canTransact : Bool) (s : σ) (vector : List (List Byte))
    (flags : BitVec 32) (around : Around) : Prop :=
  let n := vector.flatten.length
  if canTransact then
    CommandFits vector flags around ∧ (output.writeV s vector.flatten flags).1 ≠ unknownTransact
  else n < 2 ^ 32 ∧ around.gives n = true

theorem writeV_eq {canTransact : Bool} (h : WriteFits output canTransact s vector flags around) :
    BpByteOutput.writeV parse output canTransact s vector flags around =
      let r := output.writeV s vector.flatten flags
      some ⟨⟨r.1, []⟩, canTransact, r.2⟩ := by
  unfold BpByteOutput.writeV
  cases canTransact with
  | true =>
    obtain ⟨hcommand, hknown⟩ := h
    simp only [if_true, transact_write hcommand, bind_eq_bind, bind_some,
      Bool.true_and, bne_iff_ne, ne_eq, hknown, not_false_eq_true]
    simp [hknown]
  | false =>
    obtain ⟨hn, hmemory⟩ := h
    simp only [Bool.false_eq_true, if_false, bind_eq_bind, bind_some, Bool.false_and,
      invoke_write hn hmemory]
    rfl

end Streams

/-! ### Runs -/

/-- A call on a stream: the lengths of the elements that are read to, or what is in those that
are written. -/
inductive StreamCall where
  | read (vector : List ℕ) (flags : BitVec 32) (around : Around)
  | write (vector : List (List Byte)) (flags : BitVec 32) (around : Around)

/-- Two streams, one of them behind the proxies, and what these remember. -/
structure StreamPair (σ : Type) where
  inputTransact : Bool
  outputTransact : Bool
  remote : σ
  direct : σ

namespace StreamPair

variable {σ : Type} (parse : SValue → Option ℤ) (input : IByteInput σ) (output : IByteOutput σ)

/-- The call through the proxy; `none` if it goes outside of a buffer. -/
def viaProxy (p : StreamPair σ) : StreamCall → Option (Proxied σ)
  | .read vector flags around =>
    BpByteInput.readV parse input p.inputTransact p.remote vector flags around
  | .write vector flags around =>
    BpByteOutput.writeV parse output p.outputTransact p.remote vector flags around

/-- The call on the stream itself. -/
def directly (p : StreamPair σ) : StreamCall → Transferred × σ
  | .read vector flags _ =>
    let r := input.readV p.direct vector.sum flags
    (⟨r.1.amt, fill vector r.1.data⟩, r.2)
  | .write vector flags _ =>
    let r := output.writeV p.direct vector.flatten flags
    (⟨r.1, []⟩, r.2)

/-- What the proxy of a call remembers. -/
def remember (p : StreamPair σ) (canTransact : Bool) : StreamCall → StreamPair σ
  | .read .. => { p with inputTransact := canTransact }
  | .write .. => { p with outputTransact := canTransact }

/-- One call, on both. -/
def step (p : StreamPair σ) (c : StreamCall) : Option (StreamPair σ) :=
  let direct := (p.directly input output c).2
  match p.viaProxy parse input output c with
  | none => some { p with direct := direct }
  | some r => some { p.remember r.canTransact c with remote := r.object, direct := direct }

/-- **The call is the same**: the result, the bytes that were moved, and the stream afterwards. -/
def Same (p : StreamPair σ) (c : StreamCall) : Prop :=
  ∃ r, p.viaProxy parse input output c = some r ∧ r.result = (p.directly input output c).1 ∧
    r.object = (p.directly input output c).2

/-- The calls that the proxies get right. -/
def Observes (p : StreamPair σ) : StreamCall → Prop
  | .read vector flags around => ReadFits input p.inputTransact p.remote vector flags around
  | .write vector flags around => WriteFits output p.outputTransact p.remote vector flags around

variable {parse input output}

theorem same_step {p p' : StreamPair σ} {c : StreamCall} (h : p.remote = p.direct)
    (hstep : p.step parse input output c = some p') (ho : p.Observes input output c) :
    p.Same parse input output c ∧ p'.remote = p'.direct := by
  cases c with
  | read vector flags around =>
    have hread : p.viaProxy parse input output (.read vector flags around) =
        some ⟨_, p.inputTransact, _⟩ := readV_eq ho
    unfold step at hstep
    rw [hread] at hstep
    rw [← Option.some.inj hstep]
    refine ⟨⟨_, hread, ?_, ?_⟩, ?_⟩ <;> simp only [directly, h]
  | write vector flags around =>
    have hwrite : p.viaProxy parse input output (.write vector flags around) =
        some ⟨_, p.outputTransact, _⟩ := writeV_eq ho
    unfold step at hstep
    rw [hwrite] at hstep
    rw [← Option.some.inj hstep]
    refine ⟨⟨_, hwrite, ?_, ?_⟩, ?_⟩ <;> simp only [directly, h]

end StreamPair

/-- **Remote byte streams are like local ones**: in every run of calls that observe what they
have to, every call is the same through the proxies and on the stream itself. -/
theorem StreamPair.same_of_observes {σ : Type} (parse : SValue → Option ℤ) (input : IByteInput σ)
    (output : IByteOutput σ) (p : StreamPair σ) (h : p.remote = p.direct) (cs : List StreamCall)
    (ho : AllSteps (step parse input output) (Observes input output) p cs) :
    AllSteps (step parse input output) (Same parse input output) p cs := by
  have hkeep : ∀ p c p', p.remote = p.direct → step parse input output p c = some p' →
      Observes input output p c → Same parse input output p c ∧ p'.remote = p'.direct :=
    fun p c p' h hstep ho => same_step h hstep ho
  exact AllSteps.imp hkeep cs p h ho

namespace StreamPair

/-- A stream of the bytes that were written and not yet read. -/
def pipeInput : IByteInput (List Byte) where
  readV s n _ := (.bytes (s.take n), s.drop n)
  readV_le s n _ := length_take_le n s

def pipeOutput : IByteOutput (List Byte) where
  writeV s bytes _ := (BitVec.ofNat 32 bytes.length, s ++ bytes)
  sync s := (0, s)

/-- Bytes written with flags, by a transaction, and then read by `Invoke`. -/
theorem same_pipe :
    AllSteps (step (fun _ => none) pipeInput pipeOutput)
      (Same (fun _ => none) pipeInput pipeOutput) ⟨false, true, [], []⟩
      [.write [[1, 2], [3]] 1 ⟨true, []⟩, .read [2, 2] 0 ⟨true, []⟩] := by
  apply same_of_observes _ _ _ _ rfl
  refine .cons rfl ⟨⟨by decide, .inl (by decide)⟩, by decide⟩ (.cons rfl ?_ trivial)
  exact ⟨by decide, rfl, rfl, by decide⟩

/-- A read of nothing gets the error that there is no memory. -/
theorem not_same_empty :
    ¬ ∀ (σ : Type) (parse : SValue → Option ℤ) (input : IByteInput σ) (output : IByteOutput σ)
        (p : StreamPair σ), p.remote = p.direct → ∀ cs,
          AllSteps (step parse input output) (Same parse input output) p cs := by
  intro h
  have hrun := h _ (fun _ => none) pipeInput pipeOutput ⟨true, true, [], []⟩ rfl
    [.read [0] 0 ⟨true, []⟩]
  obtain ⟨r, hr, hresult, -⟩ := (hrun _ rfl).1
  obtain ⟨⟩ := hr
  exact absurd (congrArg Transferred.status hresult) (by decide)

end StreamPair

end OpenBinder
