import OpenBinder.Lib.Run
import OpenBinder.Parcel.Parcel

/-!
# Commands to the driver

A looper appends its commands to `m_out`. `_TransactWithDriver` hands all of `m_out` to the driver,
again and again while it is interrupted, and then takes away what the driver took.

* `control`, `ioctls`: what the stages of `BINDER_WRITE_READ` do is given from outside, as an
  `Outcome`. The driver takes a prefix of what is left and comes back with what it took in all.
* `transactWithDriver` takes nothing away when the call ends in an error, and the *end* of `m_out`
  when the driver did not take all of it.
* `inOrder_iff`: the driver gets the commands once and in order exactly in runs without such calls.
-/

namespace OpenBinder

open Lib List

def eintr : ℤ := 4

/-- `SParcel::SetLength`, for a length that there is room for. Bytes that were not written are shown
as zeros. -/
def SParcel.setLength (p : SParcel) (len : ℤ) : SParcel :=
  let len := if len < 0 then 0 else len
  { p with
    data := p.data.take len.toNat ++ List.replicate (len.toNat - p.data.length) 0
    pos := if p.pos > len then len else p.pos }

/-- The fields of `binder_write_read`, with the bytes that `write_buffer` points to. -/
structure WriteRead where
  writeSize : ℕ
  writeConsumed : ℕ
  writeBuffer : List Byte
  readSize : ℤ
  readConsumed : ℤ

/-- How far the two stages of one call in the driver get, and their results. -/
structure Outcome where
  wrote : ℕ
  writeResult : ℤ
  read : ℤ
  readResult : ℤ

/-- `binder_thread_Control` for `BINDER_WRITE_READ`: the result, what is copied back, and the bytes
that were taken. -/
def control (bwr : WriteRead) (o : Outcome) : ℤ × WriteRead × List Byte :=
  let taken := if 0 < bwr.writeSize then min o.wrote (bwr.writeSize - bwr.writeConsumed) else 0
  let bytes := (bwr.writeBuffer.drop bwr.writeConsumed).take taken
  let bwr := { bwr with writeConsumed := bwr.writeConsumed + taken }
  if 0 < bwr.writeSize ∧ o.writeResult < 0 then
    (o.writeResult, { bwr with readConsumed := 0 }, bytes)
  else if 0 < bwr.readSize then
    let bwr := { bwr with readConsumed := o.read }
    if o.readResult < 0 then (o.readResult, bwr, bytes) else (0, bwr, bytes)
  else (0, bwr, bytes)

/-- The loop of `_TransactWithDriver`. `m_signaled` is set when there are no more outcomes. -/
def ioctls (bwr : WriteRead) : List Outcome → ℤ × WriteRead × List Byte
  | [] => (-eintr, bwr, [])
  | o :: outcomes =>
    let (result, bwr, bytes) := control bwr o
    let err := if result ≥ 0 then 0 else result
    if err = -eintr then
      let (err, bwr, more) := ioctls bwr outcomes
      (err, bwr, bytes ++ more)
    else (err, bwr, bytes)

/-- An `SLooper`: whether the driver is open, `m_out`, and where `m_in` is. -/
structure SLooper where
  opened : Bool
  out : SParcel
  inPos : ℤ
  inLength : ℤ
  inAvail : ℤ

namespace SLooper

/-- `B_UNSUPPORTED`, `-ENOTSUP`. -/
def unsupported : ℤ := -95

/-- A command is appended to `m_out`. -/
def append (looper : SLooper) (command : List Byte) : SLooper :=
  let need := looper.out.pos + command.length
  { looper with
    out := looper.out.put command
      (if need ≤ looper.out.avail then looper.out.avail else looper.out.grown need) }

/-- What `_TransactWithDriver` hands to the driver. -/
def request (looper : SLooper) (doRead : Bool) : WriteRead :=
  let needRead := decide (looper.inPos ≥ looper.inLength)
  { writeSize := if !doRead || needRead then looper.out.data.length else 0
    writeConsumed := 0
    writeBuffer := looper.out.data
    readSize := if doRead && needRead then looper.inAvail else 0
    readConsumed := 0 }

/-- `SLooper::_TransactWithDriver`: the result, the looper, and the bytes that the driver took. -/
def transactWithDriver (looper : SLooper) (doRead : Bool) (outcomes : List Outcome) :
    ℤ × SLooper × List Byte :=
  if !looper.opened then (unsupported, looper, [])
  else
    let bwr := looper.request doRead
    let outAvail := bwr.writeSize
    if bwr.writeSize = 0 ∧ bwr.readSize = 0 then (0, looper, [])
    else
      let (err, bwr, bytes) := ioctls bwr outcomes
      if err ≥ 0 then
        let out := if 0 < bwr.writeConsumed then looper.out.setLength (outAvail - bwr.writeConsumed)
          else looper.out
        (0, { looper with out := out, inPos := 0, inLength := bwr.readConsumed }, bytes)
      else (err, looper, bytes)

/-- What a looper does: a command, a call of the driver, or reading from `m_in`. -/
inductive Action where
  | append (command : List Byte)
  | transact (doRead : Bool) (outcomes : List Outcome)
  | read (amount : ℤ)

/-- A looper with all that was appended to `m_out` and all that the driver took. -/
structure Session where
  looper : SLooper
  appended : List Byte
  consumed : List Byte

/-- One step of a session. -/
def Session.step (s : Session) : Action → Option Session
  | .append command =>
    some { s with looper := s.looper.append command, appended := s.appended ++ command }
  | .transact doRead outcomes =>
    let (_, looper, bytes) := s.looper.transactWithDriver doRead outcomes
    some { s with looper := looper, consumed := s.consumed ++ bytes }
  | .read amount =>
    let looper := { s.looper with inPos := min (s.looper.inPos + amount) s.looper.inLength }
    some { s with looper := looper }

/-- A new looper. -/
def Session.init (opened : Bool) : Session := ⟨⟨opened, ⟨[], 0, 0, []⟩, 0, 0, 128⟩, [], []⟩

/-- **Once and in order**: what was appended is what the driver took and then what is pending. -/
def Session.InOrder (s : Session) : Prop := s.appended = s.consumed ++ s.looper.out.data

/-- A call in which the driver takes nothing, or after which `SetLength` leaves what it did not
take. -/
def Clean (looper : SLooper) (doRead : Bool) (outcomes : List Outcome) : Prop :=
  let (err, bwr, _) := ioctls (looper.request doRead) outcomes
  looper.opened = false ∨ bwr.writeConsumed = 0 ∨ 0 ≤ err ∧
    looper.out.data.take (looper.out.data.length - bwr.writeConsumed) =
      looper.out.data.drop bwr.writeConsumed

/-- The calls of a run that the driver's answers are clean for. -/
def Session.Observes (s : Session) : Action → Prop
  | .transact doRead outcomes => s.looper.Clean doRead outcomes
  | _ => True

/-! ### The calls -/

theorem control_spec (bwr : WriteRead) (o : Outcome) :
    (control bwr o).2.1.writeSize = bwr.writeSize ∧ (control bwr o).2.1.writeBuffer = bwr.writeBuffer ∧
      ∃ n, (control bwr o).2.1.writeConsumed = bwr.writeConsumed + n ∧
        n ≤ bwr.writeSize - bwr.writeConsumed ∧
        (control bwr o).2.2 = (bwr.writeBuffer.drop bwr.writeConsumed).take n := by
  have htaken : (if 0 < bwr.writeSize then min o.wrote (bwr.writeSize - bwr.writeConsumed) else 0) ≤
      bwr.writeSize - bwr.writeConsumed := by
    split
    · exact min_le_right _ _
    · exact Nat.zero_le _
  unfold control
  dsimp only
  generalize (if 0 < bwr.writeSize then min o.wrote (bwr.writeSize - bwr.writeConsumed) else 0) = n
    at htaken
  split
  · exact ⟨rfl, rfl, n, rfl, htaken, rfl⟩
  · split
    · split
      · exact ⟨rfl, rfl, n, rfl, htaken, rfl⟩
      · exact ⟨rfl, rfl, n, rfl, htaken, rfl⟩
    · exact ⟨rfl, rfl, n, rfl, htaken, rfl⟩

/-- **What all calls take** is what the last one counts, however often they were interrupted. -/
theorem ioctls_spec : ∀ (outcomes : List Outcome) (bwr : WriteRead),
    ∃ n, (ioctls bwr outcomes).2.1.writeConsumed = bwr.writeConsumed + n ∧
      n ≤ bwr.writeSize - bwr.writeConsumed ∧
      (ioctls bwr outcomes).2.2 = (bwr.writeBuffer.drop bwr.writeConsumed).take n := by
  intro outcomes
  induction outcomes with
  | nil =>
    intro bwr
    exact ⟨0, rfl, Nat.zero_le _, by rw [take_zero]; rfl⟩
  | cons o outcomes ih =>
    intro bwr
    obtain ⟨hsize, hbuffer, n, hn, hle, hbytes⟩ := control_spec bwr o
    rw [ioctls]
    rcases hc : control bwr o with ⟨result, bwr₁, bytes⟩
    rw [hc] at hsize hbuffer hn hbytes
    dsimp only at hsize hbuffer hn hbytes ⊢
    by_cases herr : (if result ≥ 0 then 0 else result) = -eintr
    · -- interrupted: the next call goes on where this one stopped
      obtain ⟨m, hm, hmle, hmore⟩ := ih bwr₁
      rw [if_pos herr]
      refine ⟨n + m, by rw [hm, hn, Nat.add_assoc], by omega, ?_⟩
      rw [hmore, hbytes, hbuffer, hn, ← drop_drop, take_add]
    · rw [if_neg herr]
      exact ⟨n, hn, hle, hbytes⟩

namespace Session

/-- A session whose commands are in order, with the position of `m_out` at its end. -/
structure Kept (s : Session) : Prop where
  pos : s.looper.out.pos = s.looper.out.data.length
  inOrder : s.InOrder

variable {s : Session}

theorem Kept.append (h : s.Kept) (command : List Byte) :
    (s.looper.append command).out.data = s.looper.out.data ++ command ∧
      (s.looper.append command).out.pos = (s.looper.out.data ++ command).length := by
  have hpos : s.looper.out.pos.toNat = s.looper.out.data.length := by
    rw [h.pos]
    rfl
  constructor
  · show s.looper.out.data.take s.looper.out.pos.toNat ++ command ++
      s.looper.out.data.drop (s.looper.out.pos.toNat + command.length) = _
    rw [hpos, take_length, drop_of_length_le (by omega), append_nil]
  · show s.looper.out.pos + (command.length : ℤ) = _
    rw [h.pos, length_append]
    rfl

theorem setLength_data {p : SParcel} {n : ℕ} (hle : n ≤ p.data.length) (hpos : p.pos = p.data.length) :
    (p.setLength (p.data.length - n : ℤ)).data = p.data.take (p.data.length - n) ∧
      (p.setLength (p.data.length - n : ℤ)).pos = (p.data.take (p.data.length - n)).length := by
  have hneg : ¬ ((p.data.length : ℤ) - n < 0) := by omega
  have htake : (p.data.take (p.data.length - n)).length = p.data.length - n := by
    rw [length_take]
    omega
  have hnat : ((p.data.length : ℤ) - n).toNat = p.data.length - n := by omega
  unfold SParcel.setLength
  dsimp only
  rw [if_neg hneg, hnat]
  constructor
  · rw [show p.data.length - n - p.data.length = 0 by omega, replicate_zero, append_nil]
  · rw [htake]
    split <;> omega

/-- **A call of the driver**: what is taken, what is left, and that a clean call leaves what was
not taken. -/
theorem Kept.transact (h : s.Kept) (doRead : Bool) (outcomes : List Outcome) :
    let after := s.looper.transactWithDriver doRead outcomes
    after.2.1.out.pos = after.2.1.out.data.length ∧
      (s.looper.out.data = after.2.2 ++ after.2.1.out.data ↔ s.looper.Clean doRead outcomes) := by
  obtain ⟨n, hn, hle, hbytes⟩ := ioctls_spec outcomes (s.looper.request doRead)
  have hsize : (s.looper.request doRead).writeSize ≤ s.looper.out.data.length := by
    unfold request
    dsimp only
    split
    · exact le_refl _
    · exact Nat.zero_le _
  have hn0 : (ioctls (s.looper.request doRead) outcomes).2.1.writeConsumed = n := by
    rw [hn]
    exact Nat.zero_add n
  have hb0 : (ioctls (s.looper.request doRead) outcomes).2.2 = s.looper.out.data.take n := hbytes
  -- what is pending is what was taken and the rest
  have hsplit : ∀ rest : List Byte, s.looper.out.data = s.looper.out.data.take n ++ rest ↔
      rest = s.looper.out.data.drop n := by
    intro rest
    constructor
    · intro he
      have := congrArg (List.drop n) he
      rw [drop_left' (by rw [length_take]; omega)] at this
      exact this.symm
    · rintro rfl
      exact (take_append_drop n _).symm
  unfold transactWithDriver Clean
  dsimp only
  generalize ioctls (s.looper.request doRead) outcomes = after at hn0 hb0 ⊢
  obtain ⟨err, bwr, bytes⟩ := after
  dsimp only at hn0 hb0 ⊢
  rw [hn0]
  by_cases hopened : s.looper.opened = false
  · rw [hopened]
    exact ⟨h.pos, iff_of_true rfl (.inl rfl)⟩
  rw [if_neg (by simpa using hopened)]
  by_cases hnone : (s.looper.request doRead).writeSize = 0 ∧ (s.looper.request doRead).readSize = 0
  · rw [if_pos hnone]
    exact ⟨h.pos, iff_of_true rfl (.inr (.inl (by omega)))⟩
  rw [if_neg hnone]
  by_cases herr : err ≥ 0
  · rw [if_pos herr]
    by_cases hpos : 0 < n
    · -- the driver took something: all of `m_out` was handed to it
      have hall : (s.looper.request doRead).writeSize = s.looper.out.data.length := by
        have h0 : 0 < (s.looper.request doRead).writeSize := by omega
        unfold request at h0 ⊢
        dsimp only at h0 ⊢
        split at h0
        · rename_i hc
          rw [if_pos hc]
        · exact absurd h0 (lt_irrefl 0)
      rw [if_pos hpos, hall, hb0]
      obtain ⟨hdata, hp⟩ := setLength_data (p := s.looper.out) (n := n) (by omega) h.pos
      refine ⟨by rw [hp, hdata], ?_⟩
      rw [hdata, hsplit]
      exact ⟨fun he => .inr (.inr ⟨herr, he⟩), fun hc => (hc.resolve_left hopened).elim
        (fun h0 => by omega) (fun hc => hc.2)⟩
    · rw [if_neg hpos]
      have h0 : n = 0 := by omega
      refine ⟨h.pos, iff_of_true ?_ (.inr (.inl h0))⟩
      rw [hb0, h0]
      rfl
  · rw [if_neg herr]
    dsimp only
    refine ⟨h.pos, ?_⟩
    rw [hb0, hsplit]
    constructor
    · intro he
      -- nothing is taken away
      have hlen := congrArg List.length he
      rw [length_drop] at hlen
      exact .inr (.inl (by omega))
    · intro hc
      have h0 : n = 0 := (hc.resolve_left hopened).resolve_right (fun hc => herr hc.1)
      rw [h0, drop_zero]

/-- **One step** of a session whose commands are in order. -/
theorem Kept.step {s' : Session} {a : Action} (h : s.Kept) (hs : s.step a = some s') :
    (s.Observes a → s'.Kept) ∧ (s'.InOrder → s.Observes a) := by
  have ho : s.appended = s.consumed ++ s.looper.out.data := h.inOrder
  cases a with
  | append command =>
    obtain ⟨hdata, hpos⟩ := h.append command
    obtain ⟨⟩ := hs
    refine ⟨fun _ => ⟨by show _ = ((s.looper.append command).out.data.length : ℤ); rw [hdata]; exact hpos,
      ?_⟩, fun _ => trivial⟩
    show s.appended ++ command = s.consumed ++ (s.looper.append command).out.data
    rw [hdata, ho, append_assoc]
  | transact doRead outcomes =>
    obtain ⟨hpos, hiff⟩ := h.transact doRead outcomes
    obtain ⟨⟩ := hs
    have horder : s.appended = s.consumed ++ (s.looper.transactWithDriver doRead outcomes).2.2 ++
        (s.looper.transactWithDriver doRead outcomes).2.1.out.data ↔
        s.looper.Clean doRead outcomes := by
      rw [← hiff, ho, append_assoc, append_cancel_left_eq]
    exact ⟨fun hc => ⟨hpos, horder.2 hc⟩, fun hi => horder.1 hi⟩
  | read amount =>
    obtain ⟨⟩ := hs
    exact ⟨fun _ => ⟨h.pos, ho⟩, fun _ => trivial⟩

theorem kept_init (opened : Bool) : (init opened).Kept := ⟨rfl, rfl⟩

/-- **The driver gets the commands once and in order** in every state of a run exactly when every
call of the driver is clean: it takes nothing, or all that is pending in a call that succeeds. -/
theorem inOrder_iff (opened : Bool) (actions : List Action) :
    AllStates step InOrder (init opened) actions ↔ AllSteps step Observes (init opened) actions :=
  allStates_iff_allSteps (I := Kept) (fun _ h => h.inOrder) (fun _ _ _ h hs => (h.step hs).1)
    (fun _ _ _ h hs => (h.step hs).2) actions (init opened) (kept_init opened)

/-- `bcINCREFS` of the descriptor 1 and `bcACQUIRE` of the descriptor 2. -/
def someCommands : List Action :=
  [.append [6, 0, 0, 0, 1, 0, 0, 0], .append [7, 0, 0, 0, 2, 0, 0, 0]]

/-- The driver takes both commands and is interrupted while it waits, and the looper is signaled;
or it takes the first of them only. Both times the first command is pending, though it was taken. -/
theorem not_inOrder :
    (∃ s, run step (init true) (someCommands ++ [.transact true [⟨16, 0, 0, -4⟩]]) = some s ∧
        ¬ s.InOrder) ∧
      ∃ s, run step (init true) (someCommands ++ [.transact false [⟨8, 0, 0, 0⟩]]) = some s ∧
        ¬ s.InOrder := by
  refine ⟨⟨_, rfl, ?_⟩, ⟨_, rfl, ?_⟩⟩
  · unfold InOrder
    decide +kernel
  · unfold InOrder
    decide +kernel

end Session

end SLooper

end OpenBinder
