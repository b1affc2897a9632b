import OpenBinder.Parcel.Input
import OpenBinder.Parcel.StorageLaw

/-!
# What is read from a stream

What a reader sees is a flat string of bytes to come and the position in front of them. `FlatBytes`
has these, and the calls on it say what each is for.

* `Supply` has the numbers that decide where bytes come from, and says what each call needs of
  the deliveries to come.
* `InParcel.refines`: a call on a parcel in order, that is near enough and supplied, does what it
  does on the flat string.
* `reading_sound`: a parcel with an input looks like one with the bytes in memory in every state
  of a run whose calls all fit. A call does not when the input delivers less than it wants after
  the buffer, or when `Drain` ends within a later buffer, whose middle it takes for the end.
-/

namespace OpenBinder

open Lib List Nat
open Storage (roundUp8 valueDataAlign_eq)

/-! ### A flat string -/

/-- The bytes to come, and the position. -/
@[ext]
structure FlatBytes where
  coming : List Byte
  position : ℤ

namespace FlatBytes

/-- Past the next bytes, as far as there are any. -/
def skip (amount : ℕ) (f : FlatBytes) : FlatBytes :=
  ⟨f.coming.drop amount, f.position + (min amount f.coming.length : ℕ)⟩

/-- Reads what there is. -/
def read (amount : ℕ) (f : FlatBytes) : Answer × FlatBytes :=
  (((min amount f.coming.length : ℕ), f.coming.take amount), f.skip amount)

/-- Skips what there is. -/
def drain (amount : ℕ) (f : FlatBytes) : Answer × FlatBytes :=
  (((min amount f.coming.length : ℕ), []), f.skip amount)

/-- Reads bytes with their padding. -/
def readPadded (amount : ℕ) (f : FlatBytes) : Answer × FlatBytes :=
  ((if roundUp8 amount ≤ f.coming.length then (roundUp8 amount : ℤ) else badData,
    f.coming.take amount), f.skip (roundUp8 amount))

/-- Skips a header, and what it says comes after it. -/
def skipValue (f : FlatBytes) : Answer × FlatBytes :=
  if 8 ≤ f.coming.length then
    match InParcel.valueLength (f.coming.take 8) with
    | none => ((0, []), f.skip 8)
    | some length => (f.skip 8).drain length
  else ((-1, []), f.skip 8)

/-- Reads the bytes of a number. -/
def readFixed (size : ℕ) (f : FlatBytes) : Answer × FlatBytes := ((0, f.coming.take size), f.skip size)

/-- Reads a byte as a truth value. -/
def readBool (f : FlatBytes) : Answer × FlatBytes :=
  ((0, (f.coming.take 1).map fun it => if it ≠ 0 then 1 else 0), f.skip 1)

/-- A call on a flat string. -/
def result (f : FlatBytes) : InCall → Answer × FlatBytes
  | .read amount => f.read amount.toNat
  | .readPadded amount => f.readPadded amount.toNat
  | .drain amount => f.drain amount.toNat
  | .readSmallData => f.read 8
  | .skipValue => f.skipValue
  | .readBool => f.readBool
  | .readInt8 => f.readFixed 1
  | .readInt16 => f.readFixed 2
  | .readInt32 | .readFloat => f.readFixed 4
  | .readInt64 | .readDouble => f.readFixed 8

theorem skip_skip (f : FlatBytes) (m n : ℕ) : (f.skip m).skip n = f.skip (m + n) := by
  unfold skip
  apply FlatBytes.ext
  · exact drop_drop
  · dsimp only
    rw [length_drop]
    push_cast
    omega

theorem skip_of_le {f : FlatBytes} {m n : ℕ} (hm : f.coming.length ≤ m) (hn : f.coming.length ≤ n) :
    f.skip m = f.skip n := by
  unfold skip
  rw [drop_eq_nil_of_le hm, drop_eq_nil_of_le hn, min_eq_right hm, min_eq_right hn]

end FlatBytes

/-! ### Deliveries -/

/-- How many bytes of the buffer are not read yet, how large it is, how many the input has left,
and the deliveries to come. -/
structure Supply where
  buffered : ℕ
  avail : ℕ
  left : ℕ
  delivers : ℕ → ℕ

namespace Supply

/-- How many bytes are delivered when `len` are asked for. -/
def delivered (len : ℕ) (u : Supply) : ℕ := min (max 1 (u.delivers 0)) (min len u.left)

/-- What there is after that. -/
def next (len : ℕ) (u : Supply) : Supply :=
  { u with left := u.left - u.delivered len, delivers := fun k => u.delivers (k + 1) }

/-- How many bytes come with the next deliveries to the buffer. -/
def received : ℕ → Supply → ℕ
  | 0, _ => 0
  | j + 1, u => u.delivered u.avail + received j (u.next u.avail)

/-- **A `Read` gets what there is**: the one delivery it asks for has what it wants after the
buffer. -/
def Reads (n : ℕ) (u : Supply) : Prop :=
  n ≤ u.buffered ∨ min (n - u.buffered) u.left ≤ u.delivered (max (n - u.buffered) u.avail)

/-- What there is after a `Read`. -/
def read (n : ℕ) (u : Supply) : Supply :=
  if n ≤ u.buffered then { u with buffered := u.buffered - n }
  else if u.avail ≤ n - u.buffered then { u.next (n - u.buffered) with buffered := 0 }
  else { u.next u.avail with buffered := u.delivered u.avail - (n - u.buffered) }

/-- **A `Drain` ends at the right place**: in the bytes of the buffer, or past the last byte, or in
the middle of a later delivery. Without a buffer it gets nowhere. -/
def Drains (n : ℕ) (u : Supply) : Prop :=
  n ≤ u.buffered ∨ (u.avail = 0 → u.left = 0) ∧
    ∀ j, u.received j < n - u.buffered → n - u.buffered ≤ u.received (j + 1) →
      2 * (u.received (j + 1) - (n - u.buffered)) = u.received (j + 1) - u.received j

/-- **A `ReadPadded`** is a `Read`, and a `Drain` of the padding if that is not in the buffer. -/
def Pads (n : ℕ) (u : Supply) : Prop :=
  roundUp8 n ≤ u.buffered ∨ u.Reads n ∧
    (roundUp8 n ≠ n → n ≤ u.buffered + u.left → (u.read n).Drains (roundUp8 n - n))

variable {u : Supply}

theorem delivered_le_left (len : ℕ) (u : Supply) : u.delivered len ≤ u.left := by
  unfold delivered
  omega

theorem delivered_le (len : ℕ) (u : Supply) : u.delivered len ≤ len := by
  unfold delivered
  omega

theorem delivered_pos {len : ℕ} (hlen : 0 < len) (hleft : 0 < u.left) : 0 < u.delivered len := by
  unfold delivered
  omega

theorem received_le_left : ∀ (j : ℕ) (u : Supply), u.received j ≤ u.left := by
  intro j
  induction j with
  | zero => intro u; exact zero_le _
  | succ j ih =>
    intro u
    have h1 := ih (u.next u.avail)
    have h2 := u.delivered_le_left u.avail
    unfold received
    unfold next at h1 ⊢
    dsimp only at h1 ⊢
    omega

theorem received_buffered : ∀ (j : ℕ) (u : Supply) (b : ℕ),
    received j { u with buffered := b } = u.received j := by
  intro j
  induction j with
  | zero => intro u b; rfl
  | succ j ih =>
    intro u b
    exact congrArg (u.delivered u.avail + ·) (ih (u.next u.avail) b)

theorem reads_of_left (h : u.left = 0) (n : ℕ) : u.Reads n := by
  right
  rw [h]
  omega

theorem reads_one (u : Supply) : u.Reads 1 := by
  unfold Reads delivered
  omega

theorem drains_of_left (h : u.left = 0) (n : ℕ) : u.Drains n := by
  by_cases hn : n ≤ u.buffered
  · exact .inl hn
  · refine .inr ⟨fun _ => h, fun j _ hj => ?_⟩
    have := received_le_left (j + 1) u
    omega

theorem left_read (h : u.left = 0) (n : ℕ) : (u.read n).left = 0 := by
  unfold read next
  split
  · exact h
  · split
    · dsimp only
      omega
    · dsimp only
      omega

end Supply

namespace InParcel

variable {s : InParcel}

/-- What a reader sees of a parcel. -/
def flat (s : InParcel) : FlatBytes := ⟨s.bytes.drop s.pos.toNat ++ s.rest, s.position⟩

/-- What decides where bytes come from. -/
def supply (s : InParcel) : Supply :=
  ⟨(s.bytes.length - s.pos).toNat, s.avail.toNat, s.rest.length, s.delivers⟩

/-- **A parcel in order.** -/
structure Ok (s : InParcel) : Prop where
  pos_nonneg : 0 ≤ s.pos
  pos_le : s.pos ≤ s.bytes.length
  le_avail : s.bytes.length ≤ s.avail
  avail_lt : s.avail < 2 ^ 31
  fault : s.fault = false

/-- **A call does what it does on the flat string**, and does not find more behind the parcel. -/
structure Refines (s : InParcel) (r : Answer × InParcel) (t : Answer × FlatBytes) : Prop where
  answer : r.1 = t.1
  ok : r.2.Ok
  flat : r.2.flat = t.2
  rest : s.rest = [] → r.2.rest = []

/-- The end of a call is near enough for its position to be a signed word. -/
def Near (s : InParcel) : InCall → Prop
  | .read n | .drain n => s.pos + n.toNat < 2 ^ 31
  | .readPadded n => s.pos + roundUp8 n.toNat < 2 ^ 31
  | .skipValue => s.pos + 8 < 2 ^ 31 ∧ ∀ length, 8 ≤ s.flat.coming.length →
      valueLength (s.flat.coming.take 8) = some length → s.pos + 8 + length < 2 ^ 31
  | .readBool | .readInt8 => s.pos + 1 < 2 ^ 31
  | .readInt16 => s.pos + 2 < 2 ^ 31
  | .readInt32 | .readFloat => s.pos + 4 < 2 ^ 31
  | .readInt64 | .readDouble | .readSmallData => s.pos + 8 < 2 ^ 31

/-- The input delivers what a call needs. A `ReadBool` that has to ask for its byte needs one that
is a truth value. -/
def Supplied (s : InParcel) : InCall → Prop
  | .read n => s.supply.Reads n.toNat
  | .readPadded n => s.supply.Pads n.toNat
  | .drain n => s.supply.Drains n.toNat
  | .readSmallData | .readInt64 | .readDouble => s.supply.Reads 8
  | .skipValue => s.supply.Reads 8 ∧ ∀ length, 8 ≤ s.flat.coming.length →
      valueLength (s.flat.coming.take 8) = some length → (s.supply.read 8).Drains length
  | .readBool => s.supply.buffered = 0 → ∀ it ∈ s.flat.coming.take 1, it = 0 ∨ it = 1
  | .readInt8 => True
  | .readInt16 => s.supply.Reads 2
  | .readInt32 | .readFloat => s.supply.Reads 4

@[simp] theorem supply_left (s : InParcel) : s.supply.left = s.rest.length := rfl

@[simp] theorem supply_avail (s : InParcel) : s.supply.avail = s.avail.toNat := rfl

theorem Ok.buffered (h : s.Ok) : (s.supply.buffered : ℤ) = s.bytes.length - s.pos := by
  have := h.pos_le
  show ((s.bytes.length - s.pos).toNat : ℤ) = _
  omega

theorem Ok.coming_length (h : s.Ok) :
    s.flat.coming.length = s.supply.buffered + s.supply.left := by
  have h0 := h.pos_nonneg
  unfold flat supply
  dsimp only
  rw [length_append, length_drop]
  omega

theorem delivered_eq (len : ℕ) (s : InParcel) : s.delivered len = s.supply.delivered len := rfl

theorem Ok.sum (h : s.Ok) {n : ℕ} (hn : s.pos + n < 2 ^ 31) : ssize (s.pos + n) = s.pos + n := by
  have := h.pos_nonneg
  exact ssize_of_lt (by omega) hn

theorem Ok.skip (h : s.Ok) {n : ℕ} (hn : s.pos + n ≤ s.bytes.length) :
    Ok { s with pos := s.pos + n } ∧ flat { s with pos := s.pos + n } = s.flat.skip n := by
  have h0 := h.pos_nonneg
  refine ⟨⟨by dsimp only; omega, hn, h.le_avail, h.avail_lt, h.fault⟩, ?_⟩
  unfold flat FlatBytes.skip position
  apply FlatBytes.ext
  · dsimp only
    rw [drop_append_of_le_length (by rw [length_drop]; omega), drop_drop]
    congr 2
    omega
  · dsimp only
    rw [length_append, length_drop]
    omega

theorem Ok.look (h : s.Ok) {n : ℕ} (hn : s.pos + n ≤ s.bytes.length) :
    s.look n = s ∧ s.peek n = s.flat.coming.take n := by
  have h0 := h.pos_nonneg
  constructor
  · unfold InParcel.look
    rw [decide_eq_false (by omega), Bool.or_false]
  · unfold peek flat
    rw [take_append_of_le_length (by rw [length_drop]; omega)]

/-- **The end of a `Read`**, from a parcel whose buffer is read. -/
theorem Ok.readMore (h : s.Ok) (hpos : s.pos = s.bytes.length) {k : ℕ} (hk : k < 2 ^ 31)
    (total : List Byte) (hs : min k s.rest.length ≤ s.delivered (max k s.avail.toNat)) :
    (readMore total k s).1 = (((total.length + min k s.rest.length : ℕ) : ℤ), total ++ s.rest.take k) ∧
      (readMore total k s).2.Ok ∧
      (readMore total k s).2.flat = ⟨s.rest.drop k, s.position + (min k s.rest.length : ℕ)⟩ := by
  have hle := h.le_avail
  have hlt := h.avail_lt
  have hdl := s.supply.delivered_le_left
  unfold InParcel.readMore
  rw [ssize_of_lt (show -2 ^ 31 ≤ (k : ℤ) by omega) (by omega)]
  by_cases hd : (k : ℤ) ≥ s.avail
  · -- straight to the caller
    have hmax : max k s.avail.toNat = k := by omega
    have heq : s.delivered k = min k s.rest.length := by
      have h1 := s.supply.delivered_le k
      have h2 := hdl k
      rw [hmax] at hs
      rw [delivered_eq] at hs ⊢
      unfold supply at h1 h2 hs ⊢
      dsimp only at h2
      omega
    have htake : s.rest.take (min k s.rest.length) = s.rest.take k := take_eq_take_min.symm
    have hdrop : s.rest.drop (min k s.rest.length) = s.rest.drop k := by
      rcases le_total k s.rest.length with hkl | hkl
      · rw [min_eq_left hkl]
      · rw [min_eq_right hkl, drop_length, drop_eq_nil_of_le hkl]
    rw [if_pos hd]
    unfold readBuffer
    dsimp only
    rw [heq, htake, hdrop, length_take]
    refine ⟨rfl, ⟨h.pos_nonneg, h.pos_le, hle, hlt, h.fault⟩, ?_⟩
    unfold InParcel.flat position
    apply FlatBytes.ext
    · dsimp only
      rw [hpos, Int.toNat_natCast, drop_length, nil_append]
    · dsimp only
      omega
  · -- the buffer is filled again
    have hmax : max k s.avail.toNat = s.avail.toNat := by omega
    rw [hmax] at hs
    rw [if_neg hd]
    unfold readBuffer
    dsimp only
    have hc : (s.rest.take (s.delivered s.avail.toNat)).length = s.delivered s.avail.toNat := by
      rw [length_take]
      exact min_eq_left (hdl _)
    have hca : s.delivered s.avail.toNat ≤ s.avail.toNat := s.supply.delivered_le _
    have hcl : s.delivered s.avail.toNat ≤ s.rest.length := hdl _
    rw [hc]
    generalize s.delivered s.avail.toNat = c at hs hc hca hcl ⊢
    have hamount : (if (c : ℤ) < k then c else k) = min k s.rest.length := by
      split <;> omega
    rw [hamount]
    refine ⟨?_, ⟨by dsimp only; omega, by dsimp only; omega, by dsimp only; omega, hlt, ?_⟩, ?_⟩
    · rw [take_take, min_eq_left hs, ← take_eq_take_min]
    · dsimp only
      rw [h.fault, Bool.false_or, decide_eq_false (by omega)]
    · unfold InParcel.flat position
      apply FlatBytes.ext
      · dsimp only
        rw [Int.toNat_natCast]
        rcases le_total k s.rest.length with hkl | hkl
        · rw [min_eq_left hkl, ← drop_append_of_le_length (by rw [hc]; omega),
            take_append_drop]
        · rw [min_eq_right hkl, drop_eq_nil_of_le (by rw [hc]; omega),
            drop_eq_nil_of_le (show s.rest.length ≤ c by omega), drop_eq_nil_of_le hkl]
          rfl
      · rfl

theorem Ok.read_eq (h : s.Ok) {n : ℕ} (hn : s.pos + n < 2 ^ 31) (hfit : ¬ s.pos + n ≤ s.bytes.length) :
    s.read n = InParcel.readMore (s.bytes.drop s.pos.toNat) (n - s.supply.buffered)
      { s with pos := s.bytes.length } := by
  have h0 := h.pos_nonneg
  have hb := h.buffered
  have hlen : (s.bytes.drop s.pos.toNat).length = s.supply.buffered := by
    rw [length_drop]
    omega
  unfold InParcel.read
  rw [h.sum hn, if_neg hfit]
  by_cases hpos : s.pos < s.bytes.length
  · rw [if_pos hpos]
    dsimp only
    rw [hlen, decide_eq_false (by omega), Bool.or_false]
  · have heq : s.pos = s.bytes.length := by omega
    have hz : s.supply.buffered = 0 := by omega
    rw [if_neg hpos, hz, drop_eq_nil_of_le (by omega), ← heq]
    rfl

theorem Ok.at_end (h : s.Ok) : Ok { s with pos := s.bytes.length } := by
  exact ⟨by dsimp only; omega, le_refl _, h.le_avail, h.avail_lt, h.fault⟩

theorem Ok.read (h : s.Ok) {n : ℕ} (hn : s.pos + n < 2 ^ 31) (hs : s.supply.Reads n) :
    s.Refines (s.read n) (s.flat.read n) := by
  have h0 := h.pos_nonneg
  have hb := h.buffered
  have hcoming := h.coming_length
  unfold FlatBytes.read
  by_cases hfit : s.pos + n ≤ s.bytes.length
  · obtain ⟨hlook, hpeek⟩ := h.look hfit
    obtain ⟨hok, hflat⟩ := h.skip hfit
    have hmin : min n s.flat.coming.length = n := by
      rw [hcoming]
      omega
    have hsize : ssize (n : ℤ) = n := ssize_of_lt (by omega) (by omega)
    have heq : s.read n = (((n : ℤ), s.flat.coming.take n), { s with pos := s.pos + n }) := by
      unfold InParcel.read
      rw [h.sum hn, if_pos hfit, hlook, hpeek, hsize]
    rw [heq, hmin]
    exact ⟨rfl, hok, hflat, id⟩
  · have hreads : min (n - s.supply.buffered) s.rest.length ≤
        s.delivered (max (n - s.supply.buffered) s.avail.toNat) :=
      hs.resolve_left (by omega)
    have hlen : (s.bytes.drop s.pos.toNat).length = s.supply.buffered := by
      rw [length_drop]
      omega
    obtain ⟨h1, h2, h3⟩ := @Ok.readMore _ h.at_end rfl (n - s.supply.buffered) (by omega)
      (s.bytes.drop s.pos.toNat) hreads
    rw [h.read_eq hn hfit]
    refine ⟨?_, h2, ?_, ?_⟩
    · rw [h1, hlen, hcoming]
      unfold InParcel.flat
      rw [take_append, hlen, @List.take_of_length_le _ _ (s.bytes.drop _) (by rw [hlen]; omega),
        supply_left, show s.supply.buffered + min (n - s.supply.buffered) s.rest.length =
          min n (s.supply.buffered + s.rest.length) by omega]
    · rw [h3]
      unfold FlatBytes.skip
      apply FlatBytes.ext
      · unfold InParcel.flat
        rw [drop_append, hlen, @List.drop_eq_nil_of_le _ (s.bytes.drop _) _ (by rw [hlen]; omega),
          nil_append]
      · rw [hcoming]
        unfold InParcel.flat position
        dsimp only
        show s.base + s.bytes.length + ((min _ s.supply.left : ℕ) : ℤ) = _
        omega
    · intro hrest
      unfold InParcel.readMore readBuffer
      split
      · dsimp only
        rw [hrest, drop_nil]
      · dsimp only
        rw [hrest, drop_nil]

theorem Ok.read_supply (h : s.Ok) {n : ℕ} (hn : s.pos + n < 2 ^ 31) :
    (s.read n).2.supply = s.supply.read n := by
  have hb := h.buffered
  unfold Supply.read
  by_cases hfit : s.pos + n ≤ s.bytes.length
  · rw [if_pos (by omega)]
    unfold InParcel.read
    rw [h.sum hn, if_pos hfit]
    unfold supply InParcel.look
    dsimp only
    congr 1
    omega
  · rw [h.read_eq hn hfit, if_neg (by omega)]
    generalize hk : n - s.supply.buffered = k
    unfold InParcel.readMore
    rw [ssize_of_lt (show -2 ^ 31 ≤ (k : ℤ) by omega) (by omega)]
    have hc := s.supply.delivered_le_left s.avail.toNat
    by_cases hd : (k : ℤ) ≥ s.avail
    · rw [if_pos hd, if_pos (show s.supply.avail ≤ k by rw [supply_avail]; omega)]
      unfold readBuffer supply Supply.next
      dsimp only
      rw [length_drop]
      congr 1
      omega
    · rw [if_neg hd, if_neg (show ¬ s.supply.avail ≤ k by rw [supply_avail]; omega)]
      have hlen : (s.rest.take (s.supply.delivered s.avail.toNat)).length =
          s.supply.delivered s.avail.toNat := by
        rw [length_take]
        exact min_eq_left hc
      show supply ⟨s.avail, _, ((if ((s.rest.take (s.supply.delivered s.avail.toNat)).length : ℤ) < k
        then (s.rest.take (s.supply.delivered s.avail.toNat)).length else k : ℕ) : ℤ),
        s.rest.take (s.supply.delivered s.avail.toNat),
        s.rest.drop (s.supply.delivered s.avail.toNat), _, _⟩ = _
      rw [hlen]
      unfold Supply.next
      dsimp only [supply_avail, supply_left]
      generalize s.supply.delivered s.avail.toNat = d at hc hlen ⊢
      unfold supply
      dsimp only
      rw [hlen, length_drop]
      congr 1
      split <;> omega

/-- A turn of the loop of `Drain`: the bytes of the buffer give way to the next. -/
def refill (s : InParcel) : InParcel :=
  { s with
    base := s.base + s.bytes.length
    bytes := s.rest.take (s.supply.delivered s.supply.avail)
    rest := s.rest.drop (s.supply.delivered s.supply.avail)
    delivers := fun k => s.delivers (k + 1) }

theorem refill_bytes_length (s : InParcel) :
    s.refill.bytes.length = s.supply.delivered s.supply.avail := by
  have h := s.supply.delivered_le_left s.supply.avail
  unfold refill
  rw [length_take]
  exact min_eq_left h

theorem refill_received (s : InParcel) (j : ℕ) :
    s.supply.received (j + 1) =
      s.supply.delivered s.supply.avail + s.refill.supply.received j := by
  have heq : s.refill.supply =
      { s.supply.next s.supply.avail with buffered := s.refill.supply.buffered } := by
    unfold refill supply Supply.next
    dsimp only
    rw [length_drop]
  have hrec : s.refill.supply.received j = (s.supply.next s.supply.avail).received j :=
    (congrArg (Supply.received j) heq).trans (Supply.received_buffered j _ _)
  rw [hrec]
  rfl

theorem drainLoop_succ (amount : ℤ) (fuel : ℕ) (sofar : ℤ) (s : InParcel) (h : sofar < amount) :
    drainLoop amount (fuel + 1) sofar s = if s.supply.delivered s.supply.avail = 0 then (sofar, s.refill)
      else drainLoop amount fuel (sofar + s.supply.delivered s.supply.avail) s.refill := by
  have hlen := s.refill_bytes_length
  rw [drainLoop, if_pos h, ← hlen]
  rfl

theorem drainLoop_done (amount : ℤ) (fuel : ℕ) (sofar : ℤ) (s : InParcel) (h : amount ≤ sofar) :
    drainLoop amount fuel sofar s = (sofar, s) := by
  cases fuel with
  | zero => rfl
  | succ fuel => rw [drainLoop, if_neg (not_lt.2 h)]

/-- What the loop of `Drain` leaves that has `k` bytes to go after the buffer. -/
structure Drained (s : InParcel) (amount sofar : ℤ) (k : ℕ) (r : ℤ × InParcel) : Prop where
  avail : r.2.avail = s.avail
  le_avail : r.2.bytes.length ≤ s.avail
  fault : r.2.fault = s.fault
  rest : s.rest = [] → r.2.rest = []
  /-- It ends within a delivery, at the place that the source computes. -/
  inside : k ≤ s.rest.length → amount ≤ r.1 ∧ r.1 - amount ≤ r.2.bytes.length ∧
    r.2.bytes.drop (r.1 - amount).toNat ++ r.2.rest = s.rest.drop k ∧
    r.2.base + (r.1 - amount) = s.base + s.bytes.length + k
  /-- It ends with the input. -/
  outside : s.rest.length < k → r.1 = sofar + s.rest.length ∧ r.2.bytes = [] ∧ r.2.rest = [] ∧
    r.2.base = s.base + s.bytes.length + s.rest.length

/-- **The loop of `Drain`** ends at the right place if that is in the middle of a delivery. -/
theorem drainLoop_spec (amount : ℤ) : ∀ (fuel : ℕ) (s : InParcel) (sofar : ℤ) (k : ℕ), 0 < k →
    amount = sofar + k → s.rest.length < fuel → 0 ≤ s.avail → (s.avail.toNat = 0 → s.rest.length = 0) →
    (∀ j, s.supply.received j < k → k ≤ s.supply.received (j + 1) →
      2 * (s.supply.received (j + 1) - k) = s.supply.received (j + 1) - s.supply.received j) →
    s.Drained amount sofar k (drainLoop amount fuel sofar s) := by
  intro fuel
  induction fuel with
  | zero => intro s sofar k _ _ hfuel; omega
  | succ fuel ih =>
    intro s sofar k hk hamount hfuel havail hnone hmid
    have hlen := s.refill_bytes_length
    have hle : s.supply.delivered s.supply.avail ≤ s.avail.toNat := s.supply.delivered_le _
    have hleft := s.supply.delivered_le_left s.supply.avail
    have hrest : s.refill.rest = s.rest.drop (s.supply.delivered s.supply.avail) := rfl
    have hbase : s.refill.base = s.base + s.bytes.length := rfl
    have hrec := s.refill_received
    have hpos := @Supply.delivered_pos s.supply s.supply.avail
    rw [supply_left] at hleft hpos
    rw [drainLoop_succ _ _ _ _ (by omega)]
    generalize hc : s.supply.delivered s.supply.avail = c at hlen hle hleft hrest hrec hpos ⊢
    by_cases hzero : c = 0
    · -- nothing is left
      have hempty : s.rest = [] := by
        rw [← length_eq_zero_iff]
        by_contra hne
        have := hpos (by rw [supply_avail]; omega) (by omega)
        omega
      have hr : s.refill.rest = [] := by rw [hrest, hempty, drop_nil]
      rw [if_pos hzero]
      refine ⟨rfl, by rw [hlen]; omega, rfl, fun _ => hr, fun hin => ?_, fun _ => ⟨?_, ?_, hr, ?_⟩⟩
      · rw [hempty, length_nil] at hin
        omega
      · rw [hempty, length_nil, cast_zero, add_zero]
      · rw [← length_eq_zero_iff, hlen]
        exact hzero
      · rw [hbase, hempty, length_nil, cast_zero, add_zero]
    rw [if_neg hzero]
    by_cases hlast : k ≤ c
    · -- the last delivery, whose first half is wanted
      have h0 := hmid 0 hk (by rw [hrec]; exact le_add_right hlast)
      rw [hrec] at h0
      unfold Supply.received at h0
      rw [drainLoop_done _ _ _ _ (by omega)]
      refine ⟨rfl, by rw [hlen]; omega, rfl, ?_, fun _ => ⟨show amount ≤ sofar + c by omega, ?_, ?_, ?_⟩,
        fun hout => ?_⟩
      · intro hempty
        rw [hrest, hempty, drop_nil]
      · rw [hlen]
        omega
      · have hsub : (sofar + (c : ℤ) - amount).toNat = k := by omega
        have htake : s.refill.bytes = s.rest.take c := by rw [← hc]; rfl
        rw [hsub, hrest, htake, ← drop_append_of_le_length (by rw [← htake, hlen]; exact hlast),
          take_append_drop]
      · dsimp only
        rw [hbase]
        omega
      · omega
    · have hnext := ih s.refill (sofar + c) (k - c) (by omega) (by omega)
        (by rw [hrest, length_drop]; omega) havail (fun h => by
          have : s.avail.toNat = 0 := h
          omega) (fun j h1 h2 => by
          have := hmid (j + 1) (by rw [hrec]; omega) (by rw [hrec]; omega)
          rw [hrec, hrec] at this
          omega)
      have hrl : s.refill.rest.length = s.rest.length - c := by rw [hrest, length_drop]
      refine ⟨hnext.avail, hnext.le_avail, hnext.fault, fun hempty => hnext.rest ?_, fun hin => ?_,
        fun hout => ?_⟩
      · rw [hrest, hempty, drop_nil]
      · obtain ⟨k1, k2, k3, k4⟩ := hnext.inside (by omega)
        refine ⟨k1, k2, ?_, ?_⟩
        · rw [k3, hrest, drop_drop]
          congr 1
          omega
        · rw [k4, hbase, hlen]
          omega
      · obtain ⟨k1, k2, k3, k4⟩ := hnext.outside (by omega)
        refine ⟨by omega, k2, k3, ?_⟩
        rw [k4, hbase, hlen]
        omega

theorem Ok.drain (h : s.Ok) {n : ℕ} (hn : s.pos + n < 2 ^ 31) (hs : s.supply.Drains n) :
    s.Refines (s.drain n) (s.flat.drain n) := by
  have h0 := h.pos_nonneg
  have hla := h.le_avail
  have hb := h.buffered
  have hcoming := h.coming_length
  have hsize : ssize (n : ℤ) = n := ssize_of_lt (by omega) (by omega)
  rw [supply_left] at hcoming
  unfold InParcel.drain FlatBytes.drain
  rw [h.sum hn, hsize, hcoming]
  by_cases hfit : s.pos + n ≤ s.bytes.length
  · obtain ⟨hok, hflat⟩ := h.skip hfit
    rw [if_pos hfit, min_eq_left (by omega)]
    exact ⟨rfl, hok, hflat, id⟩
  rw [if_neg hfit]
  obtain ⟨hnone, hmid⟩ := hs.resolve_left (by omega)
  have hd := drainLoop_spec n (s.rest.length + 1) s (s.bytes.length - s.pos)
    (n - s.supply.buffered) (by omega) (by omega) (lt_succ_self _) (by omega) hnone hmid
  have hfault : (drainLoop n (s.rest.length + 1) (s.bytes.length - s.pos) s).2.fault = false :=
    hd.fault.trans h.fault
  have hlt := h.avail_lt
  have hdrop : s.flat.coming.drop n = s.rest.drop (n - s.supply.buffered) := by
    have hlen : (s.bytes.drop s.pos.toNat).length = s.supply.buffered := by
      rw [length_drop]
      omega
    unfold InParcel.flat
    rw [drop_append, hlen, @List.drop_eq_nil_of_le _ (s.bytes.drop _) _ (by rw [hlen]; omega),
      nil_append]
  have hposition : s.flat.position = s.base + s.pos := rfl
  generalize drainLoop n (s.rest.length + 1) (s.bytes.length - s.pos) s = r at hd hfault ⊢
  obtain ⟨sofar, r⟩ := r
  have havail : r.avail = s.avail := hd.avail
  have hle : (r.bytes.length : ℤ) ≤ s.avail := hd.le_avail
  dsimp only at hfault ⊢
  by_cases hin : n - s.supply.buffered ≤ s.rest.length
  · obtain ⟨k1, k2, k3, k4⟩ := hd.inside hin
    rw [if_pos k1, min_eq_left (by omega)]
    dsimp only at k1 k2 k3 k4
    refine ⟨rfl, ⟨by dsimp only; omega, k2, by rw [havail]; exact hle, by rw [havail]; exact hlt,
      hfault⟩, ?_, hd.rest⟩
    unfold FlatBytes.skip
    apply FlatBytes.ext
    · rw [hdrop, ← k3]
      rfl
    · rw [hcoming, hposition, min_eq_left (by omega)]
      show r.base + (sofar - n) = s.base + s.pos + (n : ℤ)
      omega
  · obtain ⟨k1, k2, k3, k4⟩ := hd.outside (by omega)
    dsimp only at k1 k2 k3 k4
    rw [if_neg (by omega), min_eq_right (by omega), k2]
    refine ⟨?_, ⟨le_refl _, le_refl _, ?_, by rw [havail]; exact hlt, hfault⟩, ?_, fun _ => k3⟩
    · rw [k1, show s.bytes.length - s.pos + (s.rest.length : ℤ) =
        ((s.supply.buffered + s.rest.length : ℕ) : ℤ) by omega]
    · show (0 : ℤ) ≤ r.avail
      omega
    · unfold FlatBytes.skip
      apply FlatBytes.ext
      · rw [hdrop, drop_eq_nil_of_le (by omega)]
        dsimp only
        rw [k3]
        rfl
      · rw [hcoming, hposition, min_eq_right (by omega)]
        show r.base + (([] : List Byte).length : ℤ) =
          s.base + s.pos + ((s.supply.buffered + s.rest.length : ℕ) : ℤ)
        rw [k4, length_nil]
        omega

/-- A `Read` does not move the position in the buffer further than it reads. -/
theorem Ok.read_pos (h : s.Ok) {n : ℕ} (hn : s.pos + n < 2 ^ 31) : (s.read n).2.pos ≤ s.pos + n := by
  have h0 := h.pos_nonneg
  by_cases hfit : s.pos + n ≤ s.bytes.length
  · unfold InParcel.read
    rw [h.sum hn, if_pos hfit]
  · rw [h.read_eq hn hfit]
    generalize hk : n - s.supply.buffered = k
    unfold InParcel.readMore
    split
    · show (s.bytes.length : ℤ) ≤ _
      omega
    · rw [ssize_of_lt (show -2 ^ 31 ≤ (k : ℤ) by omega) (by omega)]
      dsimp only
      split <;> omega

theorem Ok.readPadded (h : s.Ok) {n : ℕ} (hn : s.pos + roundUp8 n < 2 ^ 31) (hs : s.supply.Pads n) :
    s.Refines (s.readPadded n) (s.flat.readPadded n) := by
  have h0 := h.pos_nonneg
  have hb := h.buffered
  have hcoming := h.coming_length
  have hge : n ≤ roundUp8 n := by unfold roundUp8; omega
  have hsize : ssize (n : ℤ) = n := ssize_of_lt (by omega) (by omega)
  have hpadded : ssize (roundUp8 n : ℤ) = roundUp8 n := ssize_of_lt (by omega) (by omega)
  unfold InParcel.readPadded FlatBytes.readPadded
  rw [valueDataAlign_eq (by omega) (by omega)]
  dsimp only
  rw [h.sum hn, hsize, hpadded]
  by_cases hfit : s.pos + roundUp8 n ≤ s.bytes.length
  · obtain ⟨hlook, hpeek⟩ := @Ok.look s h n (by omega)
    obtain ⟨hok, hflat⟩ := h.skip hfit
    rw [if_pos hfit, if_pos (by omega), hlook, hpeek]
    exact ⟨rfl, hok, hflat, id⟩
  rw [if_neg hfit]
  obtain ⟨hreads, hdrains⟩ := hs.resolve_left (by omega)
  have hread := h.read (by omega) hreads
  have hsupply := @Ok.read_supply s h n (by omega)
  have hpos := @Ok.read_pos s h n (by omega)
  unfold FlatBytes.read at hread
  generalize s.read n = r at hread hsupply hpos ⊢
  obtain ⟨⟨amt, bytes⟩, r⟩ := r
  obtain ⟨hanswer, hok, hflat, hrest⟩ := hread
  obtain ⟨⟩ := hanswer
  dsimp only at hok hflat hrest hsupply hpos ⊢
  by_cases hall : n ≤ s.flat.coming.length
  · rw [min_eq_left hall, if_pos rfl]
    by_cases hexact : roundUp8 n = n
    · rw [if_neg (fun hne => hne hexact.symm), hexact, if_pos hall]
      exact ⟨rfl, hok, hflat, hrest⟩
    · rw [if_pos (fun heq => hexact heq.symm)]
      have hdrain := @Ok.drain r hok (roundUp8 n - n) (by omega)
        (by rw [hsupply]; exact hdrains hexact (by omega))
      unfold FlatBytes.drain at hdrain
      generalize r.drain (roundUp8 n - n) = q at hdrain ⊢
      obtain ⟨⟨amt, none⟩, q⟩ := q
      obtain ⟨hanswer', hok', hflat', hrest'⟩ := hdrain
      obtain ⟨rfl, -⟩ := Prod.mk.inj hanswer'
      have hlen : r.flat.coming.length = s.flat.coming.length - n := by
        rw [hflat]
        exact length_drop
      dsimp only at hok' hflat' hrest' ⊢
      refine ⟨?_, hok', ?_, fun he => hrest' (hrest he)⟩
      · rw [hlen]
        by_cases hpad : roundUp8 n ≤ s.flat.coming.length
        · rw [if_pos hpad, if_pos (by omega)]
        · rw [if_neg hpad, if_neg (by omega), if_neg (by omega)]
      · rw [hflat', hflat, FlatBytes.skip_skip, Nat.add_sub_cancel' hge]
  · have hlen : min n s.flat.coming.length = s.flat.coming.length := by omega
    rw [hlen, if_neg (by omega), if_neg (by omega), if_neg (by omega)]
    refine ⟨rfl, hok, ?_, hrest⟩
    rw [hflat]
    exact FlatBytes.skip_of_le (by omega) (by omega)

theorem Ok.skipData (h : s.Ok) (header : List Byte)
    (hn : ∀ length, valueLength header = some length → s.pos + length < 2 ^ 31)
    (hs : ∀ length, valueLength header = some length → s.supply.Drains length) :
    s.Refines (s.skipData header) (match valueLength header with
      | none => ((0, []), s.flat)
      | some length => s.flat.drain length) := by
  unfold InParcel.skipData
  cases hl : valueLength header with
  | none => exact ⟨rfl, h, rfl, id⟩
  | some length => exact h.drain (hn length hl) (hs length hl)

/-- **`SkipValue`** skips a header and what comes after it. -/
theorem Ok.skipValue (h : s.Ok) (hn : s.Near .skipValue) (hs : s.Supplied .skipValue) :
    s.Refines s.skipValue s.flat.skipValue := by
  obtain ⟨hn8, hnear⟩ := hn
  obtain ⟨hs8, hdrains⟩ := hs
  have hb := h.buffered
  have hcoming := h.coming_length
  have hread := @Ok.read s h 8 hn8 hs8
  have hsupply := @Ok.read_supply s h 8 hn8
  have hpos := @Ok.read_pos s h 8 hn8
  have hskip : ∀ r : InParcel, r.Ok → r.flat = s.flat.skip 8 → r.supply = s.supply.read 8 →
      r.pos ≤ s.pos + 8 → (s.rest = [] → r.rest = []) → 8 ≤ s.flat.coming.length →
      s.Refines (r.skipData (s.flat.coming.take 8)) s.flat.skipValue := by
    intro r hok hflat hsup hle hrest hlen
    have hd := hok.skipData (s.flat.coming.take 8)
      (fun length hl => by have := hnear length hlen hl; omega)
      (fun length hl => by rw [hsup]; exact hdrains length hlen hl)
    rw [hflat] at hd
    unfold FlatBytes.skipValue
    rw [if_pos hlen]
    exact ⟨hd.answer, hd.ok, hd.flat, fun he => hd.rest (hrest he)⟩
  have hsum : ssize (s.pos + 8) = s.pos + 8 := @Ok.sum s h 8 hn8
  unfold InParcel.skipValue
  rw [hsum]
  by_cases hfit : s.pos + 8 ≤ s.bytes.length
  · obtain ⟨hlook, hpeek⟩ := @Ok.look s h 8 hfit
    obtain ⟨hok, hflat⟩ := @Ok.skip s h 8 hfit
    rw [if_pos hfit, hlook, hpeek]
    refine hskip _ hok hflat ?_ (le_refl _) id (by omega)
    unfold supply Supply.read
    dsimp only
    rw [if_pos (by omega)]
    congr 1
    omega
  · rw [if_neg hfit]
    generalize s.read 8 = r at hread hsupply hpos ⊢
    obtain ⟨⟨amt, bytes⟩, r⟩ := r
    obtain ⟨hanswer, hok, hflat, hrest⟩ := hread
    obtain ⟨⟩ := hanswer
    dsimp only at hok hflat hrest hsupply hpos ⊢
    by_cases hall : 8 ≤ s.flat.coming.length
    · rw [if_pos (by omega)]
      exact hskip r hok hflat hsupply hpos hrest hall
    · rw [if_neg (by omega), if_neg (by omega)]
      unfold FlatBytes.skipValue
      rw [if_neg hall]
      exact ⟨rfl, hok, hflat, hrest⟩

theorem Ok.readFixed (h : s.Ok) {n : ℕ} (hn : s.pos + n < 2 ^ 31) (hs : s.supply.Reads n) :
    s.Refines (s.readFixed n) (s.flat.readFixed n) := by
  have hread := h.read hn hs
  unfold InParcel.readFixed FlatBytes.readFixed
  by_cases hfit : s.pos + n ≤ s.bytes.length
  · obtain ⟨hlook, hpeek⟩ := h.look hfit
    obtain ⟨hok, hflat⟩ := h.skip hfit
    rw [h.sum hn, if_pos hfit, hlook, hpeek]
    exact ⟨rfl, hok, hflat, id⟩
  · rw [h.sum hn, if_neg hfit]
    exact ⟨congrArg (fun a => ((0 : ℤ), a.2)) hread.answer, hread.ok, hread.flat, hread.rest⟩

theorem Ok.readBool (h : s.Ok) (hn : s.pos + 1 < 2 ^ 31) (hs : s.Supplied .readBool) :
    s.Refines s.readBool s.flat.readBool := by
  have hb := h.buffered
  have hread := @Ok.read s h 1 hn (Supply.reads_one _)
  have hsum : ssize (s.pos + 1) = s.pos + 1 := @Ok.sum s h 1 hn
  unfold InParcel.readBool FlatBytes.readBool
  rw [hsum]
  by_cases hfit : s.pos + 1 ≤ s.bytes.length
  · obtain ⟨hlook, hpeek⟩ := @Ok.look s h 1 hfit
    obtain ⟨hok, hflat⟩ := @Ok.skip s h 1 hfit
    rw [if_pos hfit, hlook, hpeek]
    exact ⟨rfl, hok, hflat, id⟩
  · rw [if_neg hfit]
    have hraw := hs (by omega)
    refine ⟨?_, hread.ok, hread.flat, hread.rest⟩
    have hbytes : (s.read 1).1.2 = s.flat.coming.take 1 := congrArg Prod.snd hread.answer
    have hmap : (s.flat.coming.take 1).map (fun it => if it ≠ 0 then 1 else 0) =
        s.flat.coming.take 1 := by
      refine (map_congr_left fun it hit => ?_).trans (map_id _)
      rcases hraw it hit with rfl | rfl <;> rfl
    rw [hmap, ← hbytes]

/-- **A call** on a parcel in order, that is near enough and supplied, does what it does on the
flat string. -/
theorem Ok.refines (h : s.Ok) {c : InCall} (hn : s.Near c) (hs : s.Supplied c) :
    s.Refines (s.result c) (s.flat.result c) := by
  cases c with
  | read n => exact @Ok.read s h n.toNat hn hs
  | readPadded n => exact @Ok.readPadded s h n.toNat hn hs
  | drain n => exact @Ok.drain s h n.toNat hn hs
  | readSmallData => exact @Ok.read s h 8 (show s.pos + 8 < 2 ^ 31 from hn) hs
  | skipValue => exact h.skipValue hn hs
  | readBool => exact h.readBool (show s.pos + 1 < 2 ^ 31 from hn) hs
  | readInt8 => exact @Ok.readFixed s h 1 (show s.pos + 1 < 2 ^ 31 from hn) (Supply.reads_one _)
  | readInt16 => exact @Ok.readFixed s h 2 (show s.pos + 2 < 2 ^ 31 from hn) hs
  | readInt32 => exact @Ok.readFixed s h 4 (show s.pos + 4 < 2 ^ 31 from hn) hs
  | readInt64 => exact @Ok.readFixed s h 8 (show s.pos + 8 < 2 ^ 31 from hn) hs
  | readFloat => exact @Ok.readFixed s h 4 (show s.pos + 4 < 2 ^ 31 from hn) hs
  | readDouble => exact @Ok.readFixed s h 8 (show s.pos + 8 < 2 ^ 31 from hn) hs

theorem supplied_of_rest (h : s.rest = []) (hs : s.Ok) (c : InCall) : s.Supplied c := by
  have hleft : s.supply.left = 0 := by rw [supply_left, h]; rfl
  cases c with
  | read n => exact Supply.reads_of_left hleft _
  | readPadded n =>
    exact .inr ⟨Supply.reads_of_left hleft _, fun _ _ =>
      Supply.drains_of_left (Supply.left_read hleft _) _⟩
  | drain n => exact Supply.drains_of_left hleft _
  | readSmallData => exact Supply.reads_of_left hleft _
  | skipValue =>
    exact ⟨Supply.reads_of_left hleft _, fun _ _ _ =>
      Supply.drains_of_left (Supply.left_read hleft _) _⟩
  | readBool =>
    intro hz it hit
    have hlen := hs.coming_length
    rw [hz, hleft] at hlen
    rw [length_eq_zero_iff.1 hlen] at hit
    exact absurd hit not_mem_nil
  | readInt8 => trivial
  | readInt16 | readInt32 | readInt64 | readFloat | readDouble => exact Supply.reads_of_left hleft _

end InParcel

namespace Reading

variable {s : Reading}

/-- **What a call needs**: it ends near enough in both parcels, and the input delivers what it
wants. -/
def Fits (s : Reading) (c : InCall) : Prop :=
  s.buffered.Near c ∧ s.memory.Near c ∧ s.buffered.Supplied c

/-- **What calls keep**: both parcels are in order and show the same flat string, of which one has
all in memory. -/
structure Kept (s : Reading) : Prop where
  buffered : s.buffered.Ok
  memory : s.memory.Ok
  flat : s.buffered.flat = s.memory.flat
  rest : s.memory.rest = []
  answers : s.answers.1 = s.answers.2

theorem Kept.sound (h : s.Kept) : s.Sound :=
  ⟨h.answers, congrArg FlatBytes.position h.flat, h.buffered.fault, h.memory.fault⟩

theorem Kept.step (h : s.Kept) {c : InCall} {s' : Reading} (hs : s.step c = some s')
    (hfits : s.Fits c) : s'.Kept := by
  obtain ⟨⟩ := hs
  obtain ⟨hb, hm, hsupplied⟩ := hfits
  have h1 := h.buffered.refines hb hsupplied
  have h2 := h.memory.refines hm (InParcel.supplied_of_rest h.rest h.memory c)
  rw [h.flat] at h1
  exact ⟨h1.ok, h2.ok, h1.flat.trans h2.flat.symm, h2.rest h.rest, h1.answer.trans h2.answer.symm⟩

theorem start_kept (bufferSize : BitVec 32) (content : Content) (delivers : ℕ → ℕ) :
    Kept (start bufferSize content delivers) := by
  have hlt := bufferSize.toInt_lt
  refine ⟨⟨le_refl _, le_refl _, ?_, ?_, rfl⟩, ⟨le_refl _, ?_, le_refl _, ?_, rfl⟩, ?_, rfl, rfl⟩
  · show (0 : ℤ) ≤ if bufferSize.toInt < 0 then 32 else bufferSize.toInt
    split <;> omega
  · show (if bufferSize.toInt < 0 then 32 else bufferSize.toInt) < 2 ^ 31
    split <;> omega
  · exact Int.natCast_nonneg _
  · show (content.1.length : ℤ) < 2 ^ 31
    omega
  · exact FlatBytes.ext (append_nil _).symm rfl

/-- **A parcel with an input looks like one with the bytes in memory** in every state of a run
whose calls all fit. -/
theorem reading_sound (bufferSize : BitVec 32) (content : Content) (delivers : ℕ → ℕ)
    (cs : List InCall) (hfits : AllSteps step Fits (start bufferSize content delivers) cs) :
    AllStates step Sound (start bufferSize content delivers) cs :=
  AllStates.imp (fun _ h => Kept.sound h) cs _
    (AllSteps.states (fun _ _ _ h hs hf => Kept.step h hs hf) cs _
      (start_kept bufferSize content delivers) hfits)

/-- A `Read` over the end of a buffer, and a `Drain` in the next. -/
theorem reading_sound_read_drain :
    AllStates step Sound (start 4 ⟨[1, 2, 3, 4, 5, 6, 7, 8], by decide⟩ fun _ => 4)
      [.read 3, .read 3, .drain 2] := by
  apply reading_sound
  intro s₁ h1
  obtain ⟨⟩ := h1
  refine ⟨⟨show _ + _ < (2 : ℤ) ^ 31 by decide, show _ + _ < (2 : ℤ) ^ 31 by decide,
    Or.inr (by decide)⟩, fun s₂ h2 => ?_⟩
  obtain ⟨⟩ := h2
  refine ⟨⟨show _ + _ < (2 : ℤ) ^ 31 by decide, show _ + _ < (2 : ℤ) ^ 31 by decide,
    Or.inr (by decide)⟩, fun s₃ h3 => ?_⟩
  obtain ⟨⟩ := h3
  exact ⟨⟨show _ + _ < (2 : ℤ) ^ 31 by decide, show _ + _ < (2 : ℤ) ^ 31 by decide,
    Or.inl (by decide)⟩, trivial⟩

/-- A `Drain` that ends within the second buffer is at the wrong place, and a `Read` has less than
there is when the input delivers less. -/
theorem reading_unsound :
    ¬ AllStates step Sound (start 4 ⟨[1, 2, 3, 4, 5, 6, 7, 8], by decide⟩ fun _ => 4) [.drain 5] ∧
    ¬ AllStates step Sound (start 4 ⟨[1, 2, 3, 4, 5, 6, 7, 8], by decide⟩ fun _ => 1) [.read 3] := by
  refine ⟨fun h => ?_, fun h => ?_⟩
  · exact absurd (h.last rfl).position (by decide)
  · exact absurd (h.last rfl).answers (by decide)

end Reading

end OpenBinder
