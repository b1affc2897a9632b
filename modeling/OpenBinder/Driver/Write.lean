import OpenBinder.Driver.IoBuffer

/-!
# `binder_thread_Write`

The loop reads a command and its arguments until there is no whole one left. What the
commands do to the rest of the driver is left out here, as none of it touches the buffer;
only whether the process could be acquired matters, for a transaction is marked as consumed
only then.

An inline transaction leaves `m_consume`, the number of bytes to skip before the next
command. It is `data_size - sizeof(tr.data)` as an `int`, and a negative one moves the cursor
back.

* `InlineMet`: the data sizes of the inline transactions that are met in a buffer.
* `write_total_iff`: the loop ends, with an offset that stays inside of the buffer and never
  moves back, exactly when it starts inside of the buffer and every data size met is at least
  eight and less than `2 ^ 31 + 8`.
-/

namespace OpenBinder

open Lib List

/-- `enum BinderDriverCommandProtocol`, the commands that `binder_thread_Write` knows besides
transactions, with the number of words of their arguments. -/
def arguments (cmd : BitVec 32) : Option ℕ :=
  match cmd.toNat with
  | 3 => some 1 -- bcACQUIRE_RESULT
  | 4 => some 1 -- bcFREE_BUFFER
  | 6 => some 1 -- bcINCREFS
  | 7 => some 1 -- bcACQUIRE
  | 8 => some 1 -- bcRELEASE
  | 9 => some 1 -- bcDECREFS
  | 10 => some 2 -- bcINCREFS_DONE
  | 11 => some 2 -- bcACQUIRE_DONE
  | 12 => some 2 -- bcATTEMPT_ACQUIRE
  | 13 => some 1 -- bcRETRIEVE_ROOT_OBJECT
  | 15 => some 0 -- bcREGISTER_LOOPER
  | 16 => some 0 -- bcENTER_LOOPER
  | 17 => some 0 -- bcEXIT_LOOPER
  | 19 => some 2 -- bcSTOP_PROCESS
  | 20 => some 1 -- bcSTOP_SELF
  | 21 => some 2 -- bcREQUEST_DEATH_NOTIFICATION
  | 22 => some 2 -- bcCLEAR_DEATH_NOTIFICATION
  | 23 => some 1 -- bcDEAD_BINDER_DONE
  | _ => none

/-- Whether a command is `bcTRANSACTION` or `bcREPLY`. -/
def isTransaction (cmd : BitVec 32) : Bool := cmd == 1 || cmd == 2

def tfInline : BitVec 32 := 1

/-- `sizeof(binder_transaction_data_t)`, with pointers of four bytes. -/
def transactionDataSize : ℕ := 36

/-- `flags`, in the bytes of a `binder_transaction_data_t`. -/
def trFlags (tr : List Byte) : BitVec 32 := wordOf ((tr.drop 12).take 4)

/-- `data_size`. -/
def trDataSize (tr : List Byte) : BitVec 32 := wordOf ((tr.drop 20).take 4)

/-- The cursor and the thread's `m_consume`. -/
structure Writer where
  io : IoBuffer
  mConsume : ℤ

/-- The head of the loop: skip what is left of inline data. -/
def Writer.skip (w : Writer) : Writer :=
  if w.mConsume ≠ 0 then
    let (n, io) := w.io.drain w.mConsume
    ⟨io.markConsumed, ssize (w.mConsume - n)⟩
  else w

/-- One command, and whether the loop goes on. `acquired` says whether the process could be
acquired. -/
def Writer.command (acquired : Bool) (w : Writer) : Bool × Writer :=
  match w.io.readU32 with
  | none => (false, w)
  | some (cmd, io) =>
    if isTransaction cmd then
      match io.readRaw transactionDataSize with
      | none => (false, { w with io := io })
      | some (tr, io) =>
        if trFlags tr &&& tfInline ≠ 0 then
          (true, ⟨io.markConsumed, ssize ((trDataSize tr).toNat - 8)⟩)
        else (true, { w with io := if acquired then io.markConsumed else io })
    else
      match arguments cmd with
      | none => (true, { w with io := io })
      | some n =>
        let (ok, io) := IoBuffer.readWords n io
        (ok, { w with io := if ok then io.markConsumed else io })

/-- The loop, for at most `fuel` commands; `acquired` has the answers for one command after
the other. -/
def Writer.loop : ℕ → (ℕ → Bool) → Writer → Option Writer
  | 0, _, _ => none
  | fuel + 1, acquired, w =>
    match w.skip.command (acquired 0) with
    | (false, w) => some w
    | (true, w) => Writer.loop fuel (fun i => acquired (i + 1)) w

/-- How a call of `binder_thread_Write` starts out. -/
structure WriteCall where
  /-- what the user has at the offsets from the start of the buffer -/
  bytes : ℤ → Byte
  size : BitVec 32
  consumed : BitVec 32
  /-- `m_consume` of the thread -/
  mConsume : BitVec 32
  /-- the errors before the loop: `m_err`, a dead process, what `iobuffer_init` refuses -/
  refused : Bool

/-- `binder_thread_Write`: `*consumed` after it, and the thread's part. -/
def binderThreadWrite (fuel : ℕ) (acquired : ℕ → Bool) (c : WriteCall) : Option (ℤ × Writer) :=
  let w : Writer := ⟨IoBuffer.init c.bytes c.size.toInt c.consumed.toInt, c.mConsume.toInt⟩
  if c.refused then some (c.consumed.toInt, ⟨{ w.io with trace := [] }, w.mConsume⟩)
  else (Writer.loop fuel acquired w).map fun w => (w.io.consumed, w)

/-- **The data size of an inline transaction is met** from an offset on. -/
inductive InlineMet (bytes : ℤ → Byte) (size : ℤ) : ℤ → ℕ → Prop where
  | here {pos : ℤ} (cmd : isTransaction (IoBuffer.wordAt bytes pos) = true) (fits : pos + 40 ≤ size)
      (flags : trFlags (IoBuffer.bytesAt bytes (pos + 4) 36) &&& tfInline ≠ 0) :
      InlineMet bytes size pos (trDataSize (IoBuffer.bytesAt bytes (pos + 4) 36)).toNat
  | afterInline {pos : ℤ} {d : ℕ} (cmd : isTransaction (IoBuffer.wordAt bytes pos) = true)
      (fits : pos + 40 ≤ size) (flags : trFlags (IoBuffer.bytesAt bytes (pos + 4) 36) &&& tfInline ≠ 0)
      (rest : InlineMet bytes size
        (min (pos + 40 + ((trDataSize (IoBuffer.bytesAt bytes (pos + 4) 36)).toNat - 8)) size) d) :
      InlineMet bytes size pos d
  | afterTransaction {pos : ℤ} {d : ℕ} (cmd : isTransaction (IoBuffer.wordAt bytes pos) = true)
      (fits : pos + 40 ≤ size) (flags : trFlags (IoBuffer.bytesAt bytes (pos + 4) 36) &&& tfInline = 0)
      (rest : InlineMet bytes size (pos + 40) d) : InlineMet bytes size pos d
  | afterCommand {pos : ℤ} {d n : ℕ} (cmd : isTransaction (IoBuffer.wordAt bytes pos) = false)
      (args : arguments (IoBuffer.wordAt bytes pos) = some n) (fits : pos + 4 + 4 * n ≤ size)
      (rest : InlineMet bytes size (pos + 4 + 4 * n) d) : InlineMet bytes size pos d
  | afterUnknown {pos : ℤ} {d : ℕ} (cmd : isTransaction (IoBuffer.wordAt bytes pos) = false)
      (args : arguments (IoBuffer.wordAt bytes pos) = none) (fits : pos + 4 ≤ size)
      (rest : InlineMet bytes size (pos + 4) d) : InlineMet bytes size pos d

/-- A data size that leaves nothing negative to skip. -/
def Skippable (d : ℕ) : Prop := 8 ≤ d ∧ d < 2 ^ 31 + 8

/-- What is claimed of a call: it ends, its offsets are steady, and `*consumed` is between
what it was and the size. -/
def WriteTotal (acquired : ℕ → Bool) (c : WriteCall) : Prop :=
  ∃ fuel consumed w, binderThreadWrite fuel acquired c = some (consumed, w) ∧ w.io.Steady ∧
    c.consumed.toInt ≤ consumed ∧ consumed ≤ c.size.toInt

/-- What the condition on a call is. A call that is refused leaves `*consumed` as it was. -/
def WriteCall.Fits (c : WriteCall) : Prop :=
  if c.refused then c.consumed.toInt ≤ c.size.toInt
  else 0 ≤ c.consumed.toInt ∧ c.consumed.toInt ≤ c.size.toInt ∧ 0 ≤ c.mConsume.toInt ∧
    ∀ d, InlineMet c.bytes c.size.toInt (min (c.consumed.toInt + c.mConsume.toInt) c.size.toInt) d →
      Skippable d

namespace Writer

/-! ### The values of the offset are kept -/

theorem trace_readU32 {io io' : IoBuffer} {x : BitVec 32} (h : io.readU32 = some (x, io')) :
    io.trace <:+ io'.trace ∧ io'.size = io.size := by
  unfold IoBuffer.readU32 at h
  split at h
  · cases h
  · simp only [Option.some.injEq, Prod.mk.injEq] at h
    obtain ⟨-, rfl⟩ := h
    exact ⟨suffix_cons _ _, rfl⟩

theorem trace_readWords (n : ℕ) : ∀ io : IoBuffer,
    io.trace <:+ (IoBuffer.readWords n io).2.trace ∧ (IoBuffer.readWords n io).2.size = io.size := by
  induction n with
  | zero => intro io; exact ⟨suffix_refl _, rfl⟩
  | succ n ih =>
    intro io
    rw [IoBuffer.readWords]
    cases hr : io.readU32 with
    | none => exact ⟨suffix_refl _, rfl⟩
    | some r =>
      obtain ⟨x, io'⟩ := r
      obtain ⟨h1, h2⟩ := trace_readU32 hr
      obtain ⟨h3, h4⟩ := ih io'
      exact ⟨h1.trans h3, h4.trans h2⟩

theorem trace_skip (w : Writer) : w.io.trace <:+ w.skip.io.trace ∧ w.skip.io.size = w.io.size := by
  unfold skip
  split
  · exact ⟨suffix_cons _ _, rfl⟩
  · exact ⟨suffix_refl _, rfl⟩

theorem trace_command (acquired : Bool) (w : Writer) :
    w.io.trace <:+ (w.command acquired).2.io.trace ∧
      (w.command acquired).2.io.size = w.io.size := by
  unfold command
  cases hr : w.io.readU32 with
  | none => exact ⟨suffix_refl _, rfl⟩
  | some r =>
    obtain ⟨cmd, io⟩ := r
    obtain ⟨h1, h2⟩ := trace_readU32 hr
    simp only
    split
    · unfold IoBuffer.readRaw
      split
      · rename_i h
        split at h
        · exact ⟨h1, h2⟩
        · cases h
      · rename_i tr io' h
        split at h
        · cases h
        · simp only [Option.some.injEq, Prod.mk.injEq] at h
          obtain ⟨-, rfl⟩ := h
          have hs : w.io.trace <:+ (io.moveTo (ssize (io.offs + transactionDataSize))).trace :=
            h1.trans (suffix_cons _ _)
          split
          · exact ⟨hs, h2⟩
          · split
            · exact ⟨hs, h2⟩
            · exact ⟨hs, h2⟩
    · split
      · exact ⟨h1, h2⟩
      · rename_i n _
        obtain ⟨h3, h4⟩ := trace_readWords n io
        split
        · exact ⟨h1.trans h3, h4.trans h2⟩
        · exact ⟨h1.trans h3, h4.trans h2⟩

theorem trace_loop : ∀ (fuel : ℕ) (acquired : ℕ → Bool) (w w' : Writer),
    loop fuel acquired w = some w' → w.io.trace <:+ w'.io.trace ∧ w'.io.size = w.io.size := by
  intro fuel
  induction fuel with
  | zero => intro acquired w w' h; cases h
  | succ fuel ih =>
    intro acquired w w' h
    obtain ⟨h1, h2⟩ := w.trace_skip
    obtain ⟨h3, h4⟩ := w.skip.trace_command (acquired 0)
    rw [loop] at h
    split at h
    · rename_i w₁ hc
      rw [hc] at h3 h4
      cases h
      exact ⟨h1.trans h3, h4.trans h2⟩
    · rename_i w₁ hc
      rw [hc] at h3 h4
      obtain ⟨h5, h6⟩ := ih _ _ _ h
      exact ⟨(h1.trans h3).trans h5, h6.trans (h4.trans h2)⟩

/-! ### One turn of the loop -/

/-- A thread in the loop, with nothing negative to skip. -/
structure Ready (w : Writer) : Prop where
  good : w.io.Good
  nonneg : 0 ≤ w.mConsume
  lt : w.mConsume < 2 ^ 31
  consumed_le : w.io.consumed ≤ w.io.offs

/-- Where the next command is read. -/
def next (w : Writer) : ℤ := min (w.io.offs + w.mConsume) w.io.size

/-- **Skipping** goes to the next command; what is then left to skip is past the end. -/
theorem Ready.skip {w : Writer} (h : w.Ready) :
    w.skip.Ready ∧ w.skip.io.offs = w.next ∧ w.skip.io.bytes = w.io.bytes ∧
      w.skip.io.size = w.io.size ∧ w.io.consumed ≤ w.skip.io.consumed ∧
      (w.next < w.io.size → w.skip.mConsume = 0) := by
  have hr := h.good.range
  have h0 := h.nonneg
  have hlt := h.lt
  have hc := h.consumed_le
  unfold Writer.skip next
  by_cases hm : w.mConsume = 0
  · rw [if_neg (by simpa using hm)]
    refine ⟨h, ?_, rfl, rfl, le_rfl, fun _ => hm⟩
    rw [hm, min_eq_left (by omega)]
    omega
  · rw [if_pos hm, h.good.drain h0]
    have hto : w.io.offs ≤ min (w.io.offs + w.mConsume) w.io.size := le_min (by omega) hr.2
    simp only
    rw [ssize_of_lt (by omega) (by omega)]
    refine ⟨⟨(h.good.moveTo _ hto (min_le_right _ _)).markConsumed, by simp only; omega,
      by simp only; omega, le_rfl⟩, rfl, rfl, rfl, by simp only [IoBuffer.markConsumed, IoBuffer.moveTo]; omega,
      fun hnext => ?_⟩
    rw [min_eq_left (by omega)]
    omega

/-- What one command comes to, with `pos` where it is read: the loop ends, or goes on
further down the buffer, or is about to go back. -/
inductive Turn (w : Writer) (pos : ℤ) : Bool × Writer → Prop where
  | stop {w' : Writer} (good : w'.io.Good) (consumed : w.io.consumed ≤ w'.io.consumed)
      (consumed_le : w'.io.consumed ≤ w.io.size) (size : w'.io.size = w.io.size)
      (none : ∀ d, ¬ InlineMet w.io.bytes w.io.size pos d) : Turn w pos (false, w')
  | forward {w' : Writer} (ready : w'.Ready) (bytes : w'.io.bytes = w.io.bytes)
      (size : w'.io.size = w.io.size) (consumed : w.io.consumed ≤ w'.io.consumed)
      (next : pos + 4 ≤ w'.next)
      (met : ∀ d, InlineMet w.io.bytes w.io.size pos d →
        Skippable d ∨ InlineMet w.io.bytes w.io.size w'.next d)
      (later : ∀ d, InlineMet w.io.bytes w.io.size w'.next d → InlineMet w.io.bytes w.io.size pos d) :
      Turn w pos (true, w')
  | back {w' : Writer} {d : ℕ} (good : w'.io.Good) (neg : w'.mConsume < 0)
      (gt : -2 ^ 31 ≤ w'.mConsume) (met : InlineMet w.io.bytes w.io.size pos d)
      (bad : ¬ Skippable d) : Turn w pos (true, w')

/-- An `int` made of a data size is not negative for those that can be skipped only. -/
theorem mConsume_of (d : BitVec 32) :
    -2 ^ 31 ≤ ssize ((d.toNat : ℤ) - 8) ∧ ssize ((d.toNat : ℤ) - 8) < 2 ^ 31 ∧
      (Skippable d.toNat → ssize ((d.toNat : ℤ) - 8) = d.toNat - 8) ∧
      (¬ Skippable d.toNat → ssize ((d.toNat : ℤ) - 8) < 0) := by
  unfold Skippable
  by_cases h8 : 8 ≤ d.toNat
  · by_cases hlt : d.toNat < 2 ^ 31 + 8
    · rw [ssize_of_lt (by omega) (by omega)]
      omega
    · have hw : ((d.toNat : ℤ) - 8) = ((d.toNat : ℤ) - 8 - 2 ^ 32) + 2 ^ 32 := by omega
      rw [hw, (ssize_add_eq_self (m := (d.toNat : ℤ) - 8 - 2 ^ 32) (by omega) (by omega)).2
        (dvd_refl _)]
      omega
  · rw [ssize_of_lt (by omega) (by omega)]
    omega

variable {w : Writer}

theorem next_of_zero (h : w.io.Good) (hm : w.mConsume = 0) : w.next = w.io.offs := by
  have := h.range
  unfold next
  rw [hm, min_eq_left (by omega)]
  omega

/-- **One command**, where nothing inside of the buffer is left to skip. -/
theorem Ready.command (h : w.Ready) (hm : w.io.offs < w.io.size → w.mConsume = 0) (acquired : Bool)
    : Turn w w.io.offs (w.command acquired) := by
  have hr := h.good.range
  have hc := h.consumed_le
  unfold Writer.command
  rw [h.good.readU32]
  by_cases hshort : w.io.offs + 4 ≤ w.io.size
  swap
  · rw [if_neg hshort]
    refine .stop h.good le_rfl (by omega) rfl fun d hd => ?_
    cases hd <;> omega
  rw [if_pos hshort]
  have hm0 := hm (by omega)
  have hg := h.good.moveTo (w.io.offs + 4) (by omega) hshort
  simp only
  by_cases hcmd : isTransaction (IoBuffer.wordAt w.io.bytes w.io.offs) = true
  · rw [if_pos hcmd, hg.readRaw]
    by_cases hfits : w.io.offs + 4 + (transactionDataSize : ℕ) ≤ w.io.size
    swap
    · have hfits' : ¬ (w.io.moveTo (w.io.offs + 4)).offs + (transactionDataSize : ℕ) ≤
          (w.io.moveTo (w.io.offs + 4)).size := hfits
      rw [if_neg hfits']
      unfold transactionDataSize at hfits
      refine .stop hg le_rfl (by simp only [IoBuffer.moveTo]; omega) rfl fun d hd => ?_
      cases hd with
      | here _ fits _ => omega
      | afterInline _ fits _ _ => omega
      | afterTransaction _ fits _ _ => omega
      | afterCommand cmd _ _ _ => rw [hcmd] at cmd; cases cmd
      | afterUnknown cmd _ _ _ => rw [hcmd] at cmd; cases cmd
    have hfits' : (w.io.moveTo (w.io.offs + 4)).offs + (transactionDataSize : ℕ) ≤
        (w.io.moveTo (w.io.offs + 4)).size := hfits
    rw [if_pos hfits']
    have hg' := hg.moveTo _ (by simp only [IoBuffer.moveTo, transactionDataSize]; omega) hfits'
    have hoffs : (w.io.moveTo (w.io.offs + 4)).offs + ((transactionDataSize : ℕ) : ℤ) =
        w.io.offs + 40 := by
      simp only [IoBuffer.moveTo, transactionDataSize]
      ring
    rw [hoffs] at hg' ⊢
    have hfits40 : w.io.offs + 40 ≤ w.io.size := hg'.range.2
    have hbytes : IoBuffer.bytesAt (w.io.moveTo (w.io.offs + 4)).bytes
        (w.io.moveTo (w.io.offs + 4)).offs transactionDataSize =
        IoBuffer.bytesAt w.io.bytes (w.io.offs + 4) 36 := rfl
    simp only [hbytes]
    by_cases hflags : trFlags (IoBuffer.bytesAt w.io.bytes (w.io.offs + 4) 36) &&& tfInline ≠ 0
    · rw [if_pos hflags]
      obtain ⟨h1, h2, h3, h4⟩ := mConsume_of (trDataSize (IoBuffer.bytesAt w.io.bytes (w.io.offs + 4) 36))
      by_cases hd : Skippable (trDataSize (IoBuffer.bytesAt w.io.bytes (w.io.offs + 4) 36)).toNat
      · rw [h3 hd]
        obtain ⟨h8, h9⟩ := id hd
        refine .forward ⟨hg'.markConsumed, by simp only; omega, by simp only; omega, le_rfl⟩ rfl rfl
          (by simp only [IoBuffer.markConsumed, IoBuffer.moveTo]; omega)
          (le_min (by simp only [IoBuffer.markConsumed, IoBuffer.moveTo]; omega)
            (by simp only [IoBuffer.markConsumed, IoBuffer.moveTo]; omega)) (fun d hmet => ?_)
          (fun d hmet => .afterInline hcmd hfits40 hflags hmet)
        cases hmet with
        | here _ _ _ => exact .inl hd
        | afterInline _ _ _ rest => exact .inr rest
        | afterTransaction _ _ flags _ => exact absurd flags hflags
        | afterCommand cmd _ _ _ => rw [hcmd] at cmd; cases cmd
        | afterUnknown cmd _ _ _ => rw [hcmd] at cmd; cases cmd
      · exact .back hg'.markConsumed (h4 hd) h1 (.here hcmd hfits40 hflags) hd
    · rw [if_neg hflags]
      have hflags0 : trFlags (IoBuffer.bytesAt w.io.bytes (w.io.offs + 4) 36) &&& tfInline = 0 := by
        simpa using hflags
      have hmark : ∀ io : IoBuffer, (io = (w.io.moveTo (w.io.offs + 4)).moveTo (w.io.offs + 40) ∨
          io = ((w.io.moveTo (w.io.offs + 4)).moveTo (w.io.offs + 40)).markConsumed) →
          Turn w w.io.offs (true, { w with io := io }) := by
        intro io hio
        have hgio : io.Good := by
          rcases hio with rfl | rfl
          · exact hg'
          · exact hg'.markConsumed
        have hoffs' : io.offs = w.io.offs + 40 := by rcases hio with rfl | rfl <;> rfl
        have hsize' : io.size = w.io.size := by rcases hio with rfl | rfl <;> rfl
        have hbytes' : io.bytes = w.io.bytes := by rcases hio with rfl | rfl <;> rfl
        have hcons : w.io.consumed ≤ io.consumed ∧ io.consumed ≤ io.offs := by
          rcases hio with rfl | rfl
          · exact ⟨le_rfl, by simp only [IoBuffer.moveTo]; omega⟩
          · exact ⟨by simp only [IoBuffer.markConsumed, IoBuffer.moveTo]; omega, le_rfl⟩
        have hnext : Writer.next { w with io := io } = w.io.offs + 40 := by
          rw [next_of_zero (w := { w with io := io }) hgio hm0, hoffs']
        refine .forward ⟨hgio, h.nonneg, h.lt, hcons.2⟩ hbytes' hsize' hcons.1 (by rw [hnext]; omega)
          (fun d hmet => ?_) (fun d hmet => .afterTransaction hcmd hfits40 hflags0 (by rwa [hnext] at hmet))
        rw [hnext]
        cases hmet with
        | here _ _ flags => exact absurd hflags0 flags
        | afterInline _ _ flags _ => exact absurd hflags0 flags
        | afterTransaction _ _ _ rest => exact .inr rest
        | afterCommand cmd _ _ _ => rw [hcmd] at cmd; cases cmd
        | afterUnknown cmd _ _ _ => rw [hcmd] at cmd; cases cmd
      cases acquired with
      | true => exact hmark _ (.inr rfl)
      | false => exact hmark _ (.inl rfl)
  · rw [if_neg hcmd]
    have hcmd' : isTransaction (IoBuffer.wordAt w.io.bytes w.io.offs) = false := by simpa using hcmd
    cases hargs : arguments (IoBuffer.wordAt w.io.bytes w.io.offs) with
    | none =>
      have hnext : Writer.next { w with io := w.io.moveTo (w.io.offs + 4) } = w.io.offs + 4 := by
        rw [next_of_zero (w := { w with io := w.io.moveTo (w.io.offs + 4) }) hg hm0]
        rfl
      refine .forward ⟨hg, h.nonneg, h.lt, by simp only [IoBuffer.moveTo]; omega⟩ rfl rfl le_rfl
        (by rw [hnext]) (fun d hmet => ?_)
        (fun d hmet => .afterUnknown hcmd' hargs hshort (by rwa [hnext] at hmet))
      rw [hnext]
      cases hmet with
      | here cmd _ _ | afterInline cmd _ _ _ | afterTransaction cmd _ _ _ =>
        rw [hcmd'] at cmd; cases cmd
      | afterCommand _ args _ _ => rw [hargs] at args; cases args
      | afterUnknown _ _ _ rest => exact .inr rest
    | some n =>
      simp only
      obtain ⟨g1, g2, g3, g4, g5, g6, g7⟩ := hg.readWords n
      generalize IoBuffer.readWords n (w.io.moveTo (w.io.offs + 4)) = r at g1 g2 g3 g4 g5 g6 g7
      obtain ⟨ok, io⟩ := r
      simp only [IoBuffer.moveTo] at g1 g2 g3 g4 g5 g6 g7
      by_cases hle : w.io.offs + 4 + 4 * (n : ℤ) ≤ w.io.size
      · obtain ⟨rfl, hoffs⟩ := g6 hle
        have hnext : Writer.next ⟨io.markConsumed, w.mConsume⟩ = w.io.offs + 4 + 4 * n := by
          rw [next_of_zero (w := ⟨io.markConsumed, w.mConsume⟩) g1.markConsumed hm0]
          exact hoffs
        refine .forward ⟨g1.markConsumed, h.nonneg, h.lt, le_rfl⟩ g3 g2
          (by simp only [IoBuffer.markConsumed, if_true]; omega) (by simp only [if_true]; rw [hnext]; omega)
          (fun d hmet => ?_)
          (fun d hmet => .afterCommand hcmd' hargs hle (by simp only [if_true] at hmet; rwa [hnext] at hmet))
        simp only [if_true]
        rw [hnext]
        cases hmet with
        | here cmd _ _ | afterInline cmd _ _ _ | afterTransaction cmd _ _ _ =>
          rw [hcmd'] at cmd; cases cmd
        | afterCommand _ args _ rest =>
          rw [hargs, Option.some.injEq] at args
          obtain rfl := args
          exact .inr rest
        | afterUnknown _ args _ _ => rw [hargs] at args; cases args
      · obtain rfl := g7 hle
        refine .stop g1 (by simp [g4]) (by simp only [Bool.false_eq_true, if_false]; omega) g2
          fun d hmet => ?_
        cases hmet with
        | here cmd _ _ | afterInline cmd _ _ _ | afterTransaction cmd _ _ _ =>
          rw [hcmd'] at cmd; cases cmd
        | afterCommand _ args fits _ =>
          rw [hargs, Option.some.injEq] at args
          obtain rfl := args
          exact hle fits
        | afterUnknown _ args _ _ => rw [hargs] at args; cases args

theorem Ready.turn (h : w.Ready) (acquired : Bool) :
    Turn w w.next (w.skip.command acquired) := by
  obtain ⟨hs, hoffs, hbytes, hsize, hcons, hm⟩ := h.skip
  have ht := hs.command (by rw [hoffs, hsize]; exact hm) acquired
  rw [hoffs] at ht
  generalize w.skip.command acquired = r at ht
  cases ht with
  | stop good consumed consumed_le size none =>
    rw [hsize] at consumed_le size none
    rw [hbytes] at none
    exact .stop good (hcons.trans consumed) consumed_le size none
  | forward ready bytes size consumed next met later =>
    rw [hsize] at size met later
    rw [hbytes] at bytes met later
    exact .forward ready bytes size (hcons.trans consumed) next met later
  | back good neg gt met bad =>
    rw [hsize, hbytes] at met
    exact .back good neg gt met bad

theorem loop_ends : ∀ (n : ℕ) (w : Writer), w.Ready → (w.io.size - w.next).toNat < n →
    (∀ d, InlineMet w.io.bytes w.io.size w.next d → Skippable d) → ∀ acquired,
    ∃ w', loop n acquired w = some w' ∧ w'.io.Steady ∧ w.io.consumed ≤ w'.io.consumed ∧
      w'.io.consumed ≤ w.io.size := by
  intro n
  induction n with
  | zero => intro w _ h; omega
  | succ n ih =>
    intro w h hlt hall acquired
    have ht := h.turn (acquired 0)
    rw [loop]
    generalize w.skip.command (acquired 0) = r at ht
    cases ht with
    | @stop w' good consumed consumed_le size none => exact ⟨w', rfl, good.steady, consumed, consumed_le⟩
    | @forward w' ready bytes size consumed next met later =>
      have hle' : w'.next ≤ w'.io.size := min_le_right _ _
      obtain ⟨w'', h1, h2, h3, h4⟩ := ih w' ready (by rw [size] at hle' ⊢; omega)
        (by rw [bytes, size]; exact fun d hd => hall d (later d hd)) fun i => acquired (i + 1)
      exact ⟨w'', h1, h2, consumed.trans h3, by rwa [size] at h4⟩
    | back good neg gt met bad => exact absurd (hall _ met) bad

/-- **A cursor that is about to go back does**, and then it is not steady. -/
theorem loop_back (fuel : ℕ) (acquired : ℕ → Bool) {w' : Writer} (hg : w.io.Good)
    (hneg : w.mConsume < 0) (hgt : -2 ^ 31 ≤ w.mConsume) (h : loop fuel acquired w = some w') :
    ¬ w'.io.Steady := by
  have hr := hg.range
  have hs := hg.size_lt
  intro hsteady
  cases fuel with
  | zero => cases h
  | succ fuel =>
    have hskip : w.skip.io.trace = (w.io.offs + w.mConsume) :: w.io.trace := by
      unfold Writer.skip IoBuffer.drain
      rw [if_pos (by omega), hg.remaining_eq]
      simp only
      rw [if_neg (by omega), ssize_of_lt (by omega) (by omega)]
      rfl
    have hsuffix : w.skip.io.trace <:+ w'.io.trace := by
      have h3 := (w.skip.trace_command (acquired 0)).1
      rw [loop] at h
      split at h
      · rename_i w₁ hc
        rw [hc] at h3
        cases h
        exact h3
      · rename_i w₁ hc
        rw [hc] at h3
        exact h3.trans (trace_loop _ _ _ _ h).1
    have hp := hsteady.1.sublist hsuffix.sublist
    rw [hskip] at hp
    have := (pairwise_cons.1 hp).1 w.io.offs (mem_of_mem_head? hg.head)
    omega

theorem loop_met : ∀ (fuel : ℕ) (acquired : ℕ → Bool) (w w' : Writer), w.Ready →
    loop fuel acquired w = some w' → w'.io.Steady →
    ∀ d, InlineMet w.io.bytes w.io.size w.next d → Skippable d := by
  intro fuel
  induction fuel with
  | zero => intro acquired w w' _ h; cases h
  | succ fuel ih =>
    intro acquired w w' hw h hs d hd
    have ht := hw.turn (acquired 0)
    rw [loop] at h
    generalize w.skip.command (acquired 0) = r at ht h
    cases ht with
    | stop good consumed consumed_le size none => exact absurd hd (none d)
    | @forward w₁ ready bytes size consumed next met later =>
      rcases met d hd with hsk | hnext
      · exact hsk
      · exact ih _ w₁ w' ready h hs d (by rwa [bytes, size])
    | @back w₁ d' good neg gt met bad => exact absurd hs (loop_back fuel _ good neg gt h)

end Writer

open Writer

/-- **`binder_thread_Write` ends with a steady offset** exactly when it starts inside of the
buffer and the inline transactions it meets leave nothing negative to skip. -/
theorem write_total_iff (acquired : ℕ → Bool) (c : WriteCall) :
    WriteTotal acquired c ↔ c.Fits := by
  unfold WriteTotal WriteCall.Fits binderThreadWrite
  cases hrefused : c.refused with
  | true =>
    simp only [if_true]
    constructor
    · rintro ⟨fuel, consumed, w, h, -, h1, h2⟩
      exact h1.trans h2
    · intro h
      exact ⟨0, _, _, rfl, ⟨List.Pairwise.nil, by simp⟩, le_rfl, h⟩
  | false =>
    simp only [Bool.false_eq_true, if_false, Option.map_eq_some_iff, Prod.mk.injEq]
    have hgood : 0 ≤ c.consumed.toInt → c.consumed.toInt ≤ c.size.toInt →
        (IoBuffer.init c.bytes c.size.toInt c.consumed.toInt).Good := by
      intro h0 h1
      refine ⟨⟨pairwise_singleton _ _, fun x hx => ?_⟩, rfl, BitVec.toInt_lt⟩
      obtain rfl : x = c.consumed.toInt := by simpa [IoBuffer.init] using hx
      exact ⟨h0, h1⟩
    have hready : 0 ≤ c.consumed.toInt → c.consumed.toInt ≤ c.size.toInt → 0 ≤ c.mConsume.toInt →
        Ready ⟨IoBuffer.init c.bytes c.size.toInt c.consumed.toInt, c.mConsume.toInt⟩ :=
      fun h0 h1 h2 => ⟨hgood h0 h1, h2, BitVec.toInt_lt, le_rfl⟩
    constructor
    · rintro ⟨fuel, consumed, w, ⟨w', h, rfl, rfl⟩, hs, -, -⟩
      obtain ⟨hsuffix, hsize⟩ := trace_loop _ _ _ _ h
      obtain ⟨h0, h1⟩ : 0 ≤ c.consumed.toInt ∧ c.consumed.toInt ≤ c.size.toInt := by
        have := hs.2 c.consumed.toInt (hsuffix.subset (by simp [IoBuffer.init]))
        rwa [hsize] at this
      have h2 : 0 ≤ c.mConsume.toInt := by
        by_contra hneg
        exact loop_back fuel acquired (w := ⟨IoBuffer.init c.bytes c.size.toInt c.consumed.toInt,
          c.mConsume.toInt⟩) (hgood h0 h1) (by simp only; omega) (BitVec.le_toInt c.mConsume) h hs
      exact ⟨h0, h1, h2, loop_met _ _ _ _ (hready h0 h1 h2) h hs⟩
    · rintro ⟨h0, h1, h2, hall⟩
      obtain ⟨w', hl, hs, hc, hle⟩ := loop_ends _ _ (hready h0 h1 h2) (Nat.lt_succ_self _) hall acquired
      exact ⟨_, _, _, ⟨w', hl, rfl, rfl⟩, hs, hc, hle⟩

/-- The bytes of words from offset zero on, and zeros. -/
def userWords (words : List (BitVec 32)) (offs : ℤ) : Byte :=
  if 0 ≤ offs then (words.flatMap wordBytes).getD offs.toNat 0 else 0

/-- A whole `bcTRANSACTION` with `tfInline` and a `data_size` of `2 ^ 32 - 32`. -/
def backward : WriteCall :=
  ⟨userWords [1, 0, 0, 0, tfInline, 0, BitVec.ofInt 32 (-32), 0, 0, 0], 40, 0, 0, false⟩

/-- Where the loop is before each turn with that buffer: at its start, or with all of it to go
back. -/
def AtStart (w : Writer) : Prop :=
  w.io.bytes = backward.bytes ∧ w.io.size = 40 ∧
    (w.io.offs = 0 ∧ w.mConsume = 0 ∨ w.io.offs = 40 ∧ w.mConsume = -40)

theorem AtStart.skip {w : Writer} (h : AtStart w) :
    w.skip.io.bytes = backward.bytes ∧ w.skip.io.size = 40 ∧ w.skip.io.offs = 0 := by
  obtain ⟨hb, hs, ⟨ho, hm⟩ | ⟨ho, hm⟩⟩ := h
  · unfold Writer.skip
    rw [if_neg (by omega)]
    exact ⟨hb, hs, ho⟩
  · unfold Writer.skip IoBuffer.drain IoBuffer.remaining
    rw [if_pos (by omega), ho, hm, hs]
    exact ⟨hb, hs, show ssize (40 + if -40 > ssize (40 - 40) then ssize (40 - 40) else -40) = 0 by
      decide⟩

theorem AtStart.command {w : Writer} (hb : w.io.bytes = backward.bytes) (hs : w.io.size = 40)
    (ho : w.io.offs = 0) (acquired : Bool) :
    (w.command acquired).1 = true ∧ AtStart (w.command acquired).2 := by
  obtain ⟨⟨bytes, size, offs, consumed, trace⟩, mConsume⟩ := w
  subst hb hs ho
  have hcmd : IoBuffer.wordAt backward.bytes 0 = 1 := by decide
  have hflags : trFlags (IoBuffer.bytesAt backward.bytes 4 36) &&& tfInline ≠ 0 := by decide
  have hsize : trDataSize (IoBuffer.bytesAt backward.bytes 4 36) = BitVec.ofInt 32 (-32) := by decide
  have hroom : ¬ Lib.size (ssize 40) < 4 := by decide
  have hrest : ¬ ssize (40 - 4) < 36 := by decide
  have hoffs : ssize 4 = 4 := by decide
  unfold Writer.command IoBuffer.readU32 IoBuffer.readRaw IoBuffer.remaining
  simp only [IoBuffer.moveTo, sub_zero, zero_add, hroom, if_false, hoffs, hcmd, transactionDataSize,
    Nat.cast_ofNat, hrest]
  rw [if_pos (by decide)]
  rw [if_pos hflags, hsize]
  exact ⟨rfl, rfl, rfl, .inr ⟨show ssize (4 + 36) = 40 by decide,
    show ssize ((BitVec.ofInt 32 (-32)).toNat - 8) = -40 by decide⟩⟩

/-- After that command the cursor is back at its start, so the loop does not end. -/
theorem write_backward :
    ¬ WriteTotal (fun _ => true) backward := by
  have hloop : ∀ (fuel : ℕ) (w : Writer), AtStart w →
      Writer.loop fuel (fun _ => true) w = none := by
    intro fuel
    induction fuel with
    | zero => intro w _; rfl
    | succ fuel ih =>
      intro w hw
      obtain ⟨hb, hs, ho⟩ := hw.skip
      obtain ⟨h1, h2⟩ := AtStart.command hb hs ho true
      rw [Writer.loop]
      generalize w.skip.command true = r at h1 h2
      obtain ⟨b, w'⟩ := r
      obtain rfl : b = true := h1
      exact ih w' h2
  rintro ⟨fuel, consumed, w, h, -⟩
  unfold binderThreadWrite at h
  rw [if_neg (by decide), hloop fuel _ ⟨rfl, by decide, Or.inl ⟨by decide, by decide⟩⟩] at h
  cases h

end OpenBinder
