import OpenBinder.Parcel.Output
import OpenBinder.Parcel.StorageLaw

/-!
# What is written to a stream

Where the bytes of a `Write` go is decided by four things: how many bytes are in the buffer, how
large it is, and the answers to come. `Shape` has these, and its operations say whether bytes go
into the buffer whole, and if not, how many of them are taken.

* `Ok`: the block is what the numbers say, and the position is behind the bytes by `lag`. Bytes
  that bypass the buffer add to it, because `m_base` does not count them.
* `writing_sound_iff`: nothing is lost or reordered and the position is right in every state of
  a run exactly when every call of it fits: no byte bypasses the buffer, and what `WritePadded`
  and `WriteLargeData` write in several steps goes into the buffer whole or not at all.
-/

namespace OpenBinder

open Lib List
open Storage (roundUp8 valueDataAlign_eq)

/-- How many bytes are in the buffer, how large it is, and the answers to come. -/
structure Shape where
  length : ℕ
  avail : ℤ
  accepts : ℕ → ℕ
  mallocs : ℕ → Bool

namespace Shape

/-- What a `Flush` leaves. -/
def flush (sh : Shape) : Shape :=
  { sh with length := sh.length - sh.accepts 0, accepts := fun k => sh.accepts (k + 1) }

/-- The bytes bypass the buffer, which is empty and not larger than they are. -/
def Direct (sh : Shape) (n : ℕ) : Prop :=
  sh.avail < sh.length + n ∧ sh.flush.length = 0 ∧ sh.avail ≤ n

instance (sh : Shape) (n : ℕ) : Decidable (sh.Direct n) := by unfold Direct; infer_instance

/-- The buffer with bytes added to it, if it can be made large enough. -/
def add (sh : Shape) (n : ℕ) : Option Shape :=
  if sh.length + n ≤ sh.avail then some { sh with length := sh.length + n }
  else
    let len := OutParcel.grown sh.avail (sh.length + n)
    if len ≤ 32 then some { sh with length := sh.length + n, avail := len }
    else if sh.mallocs 0 then
      some ⟨sh.length + n, len, sh.accepts, fun k => sh.mallocs (k + 1)⟩
    else none

/-- The buffer after bytes that all go into it. -/
def write (sh : Shape) (n : ℕ) : Option Shape :=
  if 2 ^ 31 ≤ sh.length + n then none
  else if sh.length + n ≤ sh.avail then some { sh with length := sh.length + n }
  else if sh.Direct n then none
  else sh.flush.add n

/-- How many of the bytes are taken that do not all go into it. -/
def taken (sh : Shape) (n : ℕ) : ℕ :=
  if sh.Direct n then min (sh.flush.accepts 0) n else (sh.avail - sh.flush.length).toNat

/-- The buffer after bytes with padding that all go into it. -/
def padded (sh : Shape) (n : ℕ) : Option Shape :=
  if 2 ^ 31 ≤ sh.length + roundUp8 n then none
  else if sh.length + roundUp8 n ≤ sh.avail then some { sh with length := sh.length + roundUp8 n }
  else if roundUp8 n = n then sh.write n
  else (sh.write n).bind (·.write (roundUp8 n - n))

end Shape

namespace OutParcel

variable {s : OutParcel} {lag : ℕ}

/-- What decides where bytes go. -/
def shape (s : OutParcel) : Shape := ⟨s.bytes.length, s.avail, s.accepts, s.mallocs⟩

/-- The bytes that the output and the buffer have. -/
def content (s : OutParcel) : List Byte := s.sent ++ s.bytes

/-- **A parcel in order**, whose position is behind its bytes by `lag`. -/
structure Ok (s : OutParcel) (lag : ℕ) : Prop where
  base : s.base + lag = s.sent.length
  pos : s.pos = s.bytes.length
  le_avail : s.bytes.length ≤ s.avail
  avail_le : s.avail ≤ s.data.size
  null : s.data = .null → s.avail = 0
  outside : ∀ n, s.data = .outside n → s.avail = n ∧ 32 < n ∧ n < 2 ^ 31
  fault : s.fault = false

theorem Ok.size_lt (h : s.Ok lag) : s.data.size < 2 ^ 31 := by
  cases hd : s.data with
  | null => decide
  | inline => decide
  | outside n => exact (h.outside n hd).2.2

theorem Ok.position (h : s.Ok lag) : s.position + lag = s.content.length := by
  have hb := h.base
  have hp := h.pos
  unfold OutParcel.position content
  rw [length_append]
  omega

theorem Ok.put (h : s.Ok lag) {buffer : List Byte}
    (hle : (s.bytes.length + buffer.length : ℤ) ≤ s.avail) :
    (s.put buffer).Ok lag ∧ (s.put buffer).content = s.content ++ buffer ∧
      (s.put buffer).bytes = s.bytes ++ buffer := by
  have hpos := h.pos
  have hbytes : (s.put buffer).bytes = s.bytes ++ buffer := by
    unfold OutParcel.put
    rw [hpos, Int.toNat_natCast, take_length, drop_eq_nil_of_le (Nat.le_add_right _ _),
      append_nil]
  refine ⟨⟨h.base, ?_, ?_, h.avail_le, h.null, h.outside, ?_⟩, ?_, hbytes⟩
  · rw [hbytes, length_append, Nat.cast_add, ← hpos]
    rfl
  · rw [hbytes, length_append, Nat.cast_add]
    exact hle
  · unfold OutParcel.put
    rw [h.fault, Bool.false_or, decide_eq_false_iff_not]
    have := h.avail_le
    omega
  · unfold content
    rw [hbytes, ← append_assoc]
    rfl

theorem Ok.flush (h : s.Ok lag) : s.flush.2.Ok lag ∧ s.flush.2.content = s.content ∧
    s.flush.2.shape = s.shape.flush := by
  unfold OutParcel.flush writeBuffer
  dsimp only
  have hb := h.base
  have hle := h.le_avail
  by_cases hpart : min (s.accepts 0) s.bytes.length < s.bytes.length
  · have hmin : min (s.accepts 0) s.bytes.length = s.accepts 0 := by omega
    rw [if_pos hpart, hmin]
    refine ⟨⟨?_, rfl, ?_, h.avail_le, h.null, h.outside, h.fault⟩, ?_, ?_⟩
    · simp only [length_append, length_take]
      omega
    · simp only [length_drop]
      omega
    · simp only [content, append_assoc, take_append_drop]
    · simp only [shape, Shape.flush, length_drop]
  · have hmin : min (s.accepts 0) s.bytes.length = s.bytes.length := by omega
    rw [if_neg hpart, hmin]
    refine ⟨⟨?_, rfl, ?_, h.avail_le, h.null, h.outside, h.fault⟩, ?_, ?_⟩
    · simp only [take_length, length_append]
      omega
    · simp only [length_nil]
      omega
    · simp only [content, take_length, append_nil]
    · simp only [shape, Shape.flush, length_nil]
      congr 1
      omega

theorem grown_ge (avail need : ℤ) : need ≤ grown avail need := by
  unfold grown
  split <;> omega

theorem grown_lt (avail : ℤ) {need : ℤ} (h : need < 2 ^ 31) : grown avail need < 2 ^ 31 := by
  have hlt := ssize_lt (avail * 3)
  have hdiv : (ssize (avail * 3)).tdiv 2 < 2 ^ 31 := by
    rw [Int.tdiv_eq_ediv, show Int.sign 2 = 1 from rfl]
    split <;> omega
  unfold grown
  split
  · exact h
  · exact hdiv

variable {buffer : List Byte} {sh : Shape} {n : ℕ}

/-- **The rest of a `Write`** goes into the buffer if that can be made large enough. -/
theorem Ok.writeRest_whole (h : s.Ok lag) (hlt : s.bytes.length + buffer.length < 2 ^ 31)
    (hnull : s.data ≠ .null ∨
      (s.bytes.length + buffer.length : ℤ) ≤ s.avail) (ha : s.shape.add buffer.length = some sh) :
    (s.writeRest 0 buffer).1 = buffer.length ∧ (s.writeRest 0 buffer).2.Ok lag ∧
      (s.writeRest 0 buffer).2.content = s.content ++ buffer ∧
      (s.writeRest 0 buffer).2.shape = sh := by
  have hneed : ssize ((buffer.length : ℤ) + s.pos) = s.bytes.length + buffer.length := by
    rw [h.pos, add_comm]
    exact ssize_of_lt (by omega) (by omega)
  unfold writeRest
  unfold Shape.add shape at ha
  rw [hneed]
  dsimp only
  by_cases hfit : (s.bytes.length + buffer.length : ℤ) ≤ s.avail
  · rw [if_pos hfit] at ha
    obtain ⟨⟩ := ha
    obtain ⟨hok, hc, hb⟩ := h.put hfit
    rw [if_neg (not_lt.2 hfit)]
    refine ⟨by simp, hok, hc, ?_⟩
    show Shape.mk (s.put buffer).bytes.length _ _ _ = _
    rw [hb, length_append]
    rfl
  · rw [if_neg hfit] at ha
    rw [if_pos (not_le.1 hfit)]
    have hge := grown_ge s.avail (s.bytes.length + buffer.length)
    have hgl := @grown_lt s.avail (s.bytes.length + buffer.length) (by omega)
    have hd := hnull.resolve_right hfit
    unfold reAlloc
    by_cases h32 : grown s.avail (s.bytes.length + buffer.length) ≤ 32
    · rw [if_pos h32] at ha ⊢
      obtain ⟨⟩ := ha
      have hin : s.data = .inline := by
        cases hdata : s.data with
        | null => exact absurd hdata hd
        | inline => rfl
        | outside n =>
          have := h.outside n hdata
          omega
      have hok : Ok { s with avail := grown s.avail (s.bytes.length + buffer.length) } lag := by
        refine ⟨h.base, h.pos, by dsimp only; omega, ?_, fun hn => absurd hn hd, ?_, h.fault⟩
        · show _ ≤ s.data.size
          rw [hin]
          exact h32
        · intro n hn
          rw [show s.data = _ from hn] at hin
          cases hin
      obtain ⟨hok', hc, hb⟩ := @Ok.put _ lag hok buffer hge
      simp only [decide_eq_true hd, Bool.not_true, Bool.false_and, Bool.false_eq_true, if_false,
        if_true, zero_add]
      refine ⟨trivial, hok', hc, ?_⟩
      show Shape.mk (OutParcel.put _ buffer).bytes.length _ _ _ = _
      rw [hb, length_append]
      rfl
    · rw [if_neg h32] at ha ⊢
      by_cases hm : s.mallocs 0 = true
      · rw [if_pos hm] at ha ⊢
        obtain ⟨⟩ := ha
        have hok : Ok { s with
            data := .outside (grown s.avail (s.bytes.length + buffer.length))
            avail := grown s.avail (s.bytes.length + buffer.length)
            mallocs := fun k => s.mallocs (k + 1) } lag := by
          refine ⟨h.base, h.pos, by dsimp only; omega, le_refl _, fun hn => (by cases hn), ?_, h.fault⟩
          intro n hn
          cases hn
          exact ⟨rfl, not_le.1 h32, hgl⟩
        obtain ⟨hok', hc, hb⟩ := @Ok.put _ lag hok buffer hge
        simp only [Bool.not_true, Bool.false_and, Bool.false_eq_true, if_false, if_true, zero_add]
        refine ⟨trivial, hok', hc, ?_⟩
        show Shape.mk (OutParcel.put _ buffer).bytes.length _ _ _ = _
        rw [hb, length_append]
        rfl
      · rw [if_neg hm] at ha
        cases ha

/-- **The rest of a `Write`** fills the buffer if that cannot be made larger. -/
theorem Ok.writeRest_part (h : s.Ok lag) (hlt : s.bytes.length + buffer.length < 2 ^ 31)
    (ha : s.shape.add buffer.length = none) :
    (s.avail - s.bytes.length).toNat < buffer.length ∧ (s.writeRest 0 buffer).2.Ok lag ∧
      (s.writeRest 0 buffer).2.content = s.content ++ buffer.take (s.avail - s.bytes.length).toNat ∧
      ((s.writeRest 0 buffer).1 = (s.avail - s.bytes.length).toNat ∨
        (s.writeRest 0 buffer).1 < 0 ∧ (s.avail - s.bytes.length).toNat = 0) := by
  have hneed : ssize ((buffer.length : ℤ) + s.pos) = s.bytes.length + buffer.length := by
    rw [h.pos, add_comm]
    exact ssize_of_lt (by omega) (by omega)
  have hle := h.le_avail
  unfold writeRest
  unfold Shape.add shape at ha
  rw [hneed]
  dsimp only
  by_cases hfit : (s.bytes.length + buffer.length : ℤ) ≤ s.avail
  · rw [if_pos hfit] at ha
    cases ha
  rw [if_neg hfit] at ha
  rw [if_pos (not_le.1 hfit)]
  unfold reAlloc
  by_cases h32 : grown s.avail (s.bytes.length + buffer.length) ≤ 32
  · rw [if_pos h32] at ha
    cases ha
  rw [if_neg h32] at ha ⊢
  by_cases hm : s.mallocs 0 = true
  · rw [if_pos hm] at ha
    cases ha
  · rw [if_neg hm]
    have hless : (s.avail - s.bytes.length).toNat < buffer.length := by omega
    have hlen : (buffer.take (s.avail - s.bytes.length).toNat).length =
        (s.avail - s.bytes.length).toNat := by
      rw [length_take]
      omega
    have hok : Ok { s with mallocs := fun k => s.mallocs (k + 1) } lag :=
      ⟨h.base, h.pos, h.le_avail, h.avail_le, h.null, h.outside, h.fault⟩
    have hrest : (s.avail - s.pos).toNat = (s.avail - s.bytes.length).toNat := by rw [h.pos]
    simp only [Bool.not_false, Bool.true_and, Bool.false_eq_true, if_false, hrest, zero_add]
    refine ⟨hless, ?_⟩
    by_cases hzero : (s.avail - s.bytes.length).toNat = 0
    · rw [hzero, if_pos (by simp)]
      refine ⟨hok, ?_, .inr ⟨(by decide : noMemory < 0), rfl⟩⟩
      rw [take_zero, append_nil]
      rfl
    · have hne : (buffer.take (s.avail - s.bytes.length).toNat).isEmpty = false := by
        rw [isEmpty_eq_false_iff, ← length_pos_iff]
        omega
      rw [hne, if_neg (by decide)]
      obtain ⟨hok', hc, -⟩ := @Ok.put _ lag hok (buffer.take (s.avail - s.bytes.length).toNat) (by
        show (s.bytes.length : ℤ) + _ ≤ s.avail
        rw [hlen]
        omega)
      exact ⟨hok', hc, .inl (by rw [hlen])⟩

theorem Ok.sum (h : s.Ok lag) {n : ℕ} (hlt : s.bytes.length + n < 2 ^ 31) :
    ssize (s.pos + n) = s.bytes.length + n := by
  rw [h.pos]
  exact ssize_of_lt (by omega) (by omega)

theorem Ok.write_eq (h : s.Ok lag) (hlt : s.bytes.length + buffer.length < 2 ^ 31)
    (hfit : ¬ (s.bytes.length + buffer.length : ℤ) ≤ s.avail) :
    s.write buffer = if s.shape.Direct buffer.length then
      (((s.flush.2.writeBuffer buffer).1 : ℤ), (s.flush.2.writeBuffer buffer).2)
      else s.flush.2.writeRest 0 buffer := by
  obtain ⟨hok, -, hshape⟩ := h.flush
  have hold : ¬ s.pos < s.bytes.length := by
    rw [h.pos]
    exact lt_irrefl _
  have hlen : s.flush.2.bytes.length = s.shape.flush.length := congrArg Shape.length hshape
  have havail : s.flush.2.avail = s.avail := congrArg Shape.avail hshape
  unfold write
  rw [h.sum hlt, if_neg hfit]
  simp only [if_neg hold, drop_zero]
  rw [hok.pos, havail, ssize_of_lt (show -2 ^ 31 ≤ (buffer.length : ℤ) by omega) (by omega), hlen]
  by_cases hd : s.shape.Direct buffer.length
  · rw [if_pos hd, if_pos ⟨by rw [hd.2.1]; rfl, hd.2.2⟩]
    simp only [zero_add]
  · rw [if_neg hd, if_neg]
    rintro ⟨h1, h2⟩
    exact hd ⟨not_le.1 hfit, by exact_mod_cast h1, h2⟩

theorem Ok.not_null (h : s.Ok lag) (hfit : ¬ (s.bytes.length + n : ℤ) ≤ s.avail)
    (hd : ¬ s.shape.Direct n) : s.data ≠ .null := by
  intro hnull
  have havail := h.null hnull
  have hle := h.le_avail
  refine hd ⟨not_le.1 hfit, ?_, ?_⟩
  · show s.bytes.length - _ = 0
    omega
  · show s.avail ≤ n
    omega

theorem Ok.write_whole (h : s.Ok lag) {buffer : List Byte} {sh : Shape}
    (hw : s.shape.write buffer.length = some sh) :
    (s.write buffer).1 = buffer.length ∧ (s.write buffer).2.Ok lag ∧
      (s.write buffer).2.content = s.content ++ buffer ∧ (s.write buffer).2.shape = sh := by
  unfold Shape.write at hw
  by_cases hwrap : 2 ^ 31 ≤ s.shape.length + buffer.length
  · rw [if_pos hwrap] at hw
    cases hw
  have hlt : s.bytes.length + buffer.length < 2 ^ 31 := not_le.1 hwrap
  rw [if_neg hwrap] at hw
  by_cases hfit : (s.bytes.length + buffer.length : ℤ) ≤ s.avail
  · rw [if_pos (by exact hfit)] at hw
    obtain ⟨⟩ := hw
    obtain ⟨hok, hc, hb⟩ := h.put hfit
    unfold write
    rw [h.sum hlt, if_pos hfit]
    refine ⟨rfl, hok, hc, ?_⟩
    show Shape.mk (s.put buffer).bytes.length _ _ _ = _
    rw [hb, length_append]
    rfl
  · rw [if_neg (by exact hfit)] at hw
    by_cases hd : s.shape.Direct buffer.length
    · rw [if_pos hd] at hw
      cases hw
    · rw [if_neg hd] at hw
      obtain ⟨hok, hc, hshape⟩ := h.flush
      have hlen : s.flush.2.bytes.length ≤ s.bytes.length := by
        have : s.flush.2.bytes.length = s.shape.flush.length := congrArg Shape.length hshape
        rw [this]
        exact Nat.sub_le _ _
      have hnull : s.flush.2.data ≠ .null := by
        have : s.flush.2.data = s.data := by
          unfold OutParcel.flush writeBuffer
          dsimp only
          split <;> rfl
        rw [this]
        exact h.not_null hfit hd
      rw [h.write_eq hlt hfit, if_neg hd]
      rw [← hshape] at hw
      have := hok.writeRest_whole (by omega) (.inl hnull) hw
      rw [hc] at this
      exact this

/-- **Bytes that do not all go into the buffer**, or none of which does. -/
theorem Ok.write_part (h : s.Ok lag) (hlt : s.bytes.length + buffer.length < 2 ^ 31)
    (hw : s.shape.write buffer.length = none) :
    (s.write buffer).2.content = s.content ++ buffer.take (s.shape.taken buffer.length) ∧
      ((s.write buffer).1 = s.shape.taken buffer.length ∨
        (s.write buffer).1 < 0 ∧ s.shape.taken buffer.length = 0) ∧
      (s.shape.Direct buffer.length → (s.write buffer).2.Ok (lag + s.shape.taken buffer.length) ∧
        (s.write buffer).2.bytes = []) ∧
      (¬ s.shape.Direct buffer.length → (s.write buffer).2.Ok lag ∧
        s.shape.taken buffer.length < buffer.length) := by
  unfold Shape.write at hw
  rw [if_neg (show ¬ 2 ^ 31 ≤ s.shape.length + buffer.length from not_le.2 hlt)] at hw
  by_cases hfit : (s.bytes.length + buffer.length : ℤ) ≤ s.avail
  · rw [if_pos (by exact hfit)] at hw
    cases hw
  rw [if_neg (by exact hfit)] at hw
  obtain ⟨hok, hc, hshape⟩ := h.flush
  have hlen : s.flush.2.bytes.length = s.shape.flush.length := congrArg Shape.length hshape
  have havail : s.flush.2.avail = s.avail := congrArg Shape.avail hshape
  have haccepts : s.flush.2.accepts = s.shape.flush.accepts := congrArg Shape.accepts hshape
  rw [h.write_eq hlt hfit]
  unfold Shape.taken
  by_cases hd : s.shape.Direct buffer.length
  · rw [if_pos hd, if_pos hd]
    have hempty : s.flush.2.bytes = [] := eq_nil_of_length_eq_zero (hlen.trans hd.2.1)
    unfold writeBuffer
    rw [haccepts]
    refine ⟨?_, .inl rfl, fun _ => ?_, fun hn => absurd hd hn⟩
    · rw [← hc]
      simp only [content, hempty, append_nil]
    · have hb := hok.base
      refine ⟨⟨?_, hok.pos, hok.le_avail, hok.avail_le, hok.null, hok.outside, hok.fault⟩, hempty⟩
      dsimp only
      rw [length_append, length_take]
      omega
  · rw [if_neg hd] at hw
    rw [if_neg hd, if_neg hd]
    rw [← hshape] at hw
    have hle : s.flush.2.bytes.length ≤ s.bytes.length := by
      rw [hlen]
      exact Nat.sub_le _ _
    obtain ⟨h1, h2, h3, h4⟩ := hok.writeRest_part (by omega) hw
    rw [hlen, havail] at h1 h3 h4
    rw [hc] at h3
    exact ⟨h3, h4, fun hn => absurd hn hd, fun _ => ⟨h2, h1⟩⟩

theorem Ok.pos_of_none (h : s.Ok lag) (hlt : s.bytes.length + n < 2 ^ 31)
    (hw : s.shape.write n = none) : 0 < n := by
  have hle := h.le_avail
  by_contra hn
  obtain rfl : n = 0 := by omega
  unfold Shape.write at hw
  rw [if_neg (show ¬ 2 ^ 31 ≤ s.shape.length + 0 from not_le.2 hlt), if_pos] at hw
  · cases hw
  · show ((s.bytes.length : ℕ) : ℤ) + ((0 : ℕ) : ℤ) ≤ s.avail
    omega

theorem Ok.write_any (h : s.Ok lag) {buffer : List Byte}
    (hlt : s.bytes.length + buffer.length < 2 ^ 31) :
    ∃ m lag', m ≤ buffer.length ∧ lag ≤ lag' ∧ (s.write buffer).2.Ok lag' ∧
      (s.write buffer).2.content = s.content ++ buffer.take m ∧
      ((s.write buffer).1 = m ∨ (s.write buffer).1 < 0 ∧ m = 0) ∧
      (s.shape.write buffer.length = none → m = s.shape.taken buffer.length ∧
        (m = 0 → lag' = lag) ∧
        (m = buffer.length → lag < lag' ∧ (s.write buffer).2.bytes = [])) := by
  cases hw : s.shape.write buffer.length with
  | some sh =>
    obtain ⟨h1, h2, h3, -⟩ := h.write_whole hw
    refine ⟨buffer.length, lag, le_refl _, le_refl _, h2, ?_, .inl h1, fun hn => (by cases hn)⟩
    rw [h3, take_length]
  | none =>
    have hpos := h.pos_of_none hlt hw
    obtain ⟨h1, h2, h3, h4⟩ := h.write_part hlt hw
    by_cases hd : s.shape.Direct buffer.length
    · obtain ⟨h5, h6⟩ := h3 hd
      refine ⟨_, _, ?_, Nat.le_add_right _ _, h5, h1, h2, fun _ => ⟨rfl, ?_, ?_⟩⟩
      · unfold Shape.taken
        rw [if_pos hd]
        exact Nat.min_le_right _ _
      · intro hz
        rw [hz, Nat.add_zero]
      · intro hall
        exact ⟨by omega, h6⟩
    · obtain ⟨h5, h6⟩ := h4 hd
      exact ⟨_, lag, le_of_lt h6, le_refl _, h5, h1, h2, fun _ => ⟨rfl, fun _ => rfl,
        fun hall => absurd hall (ne_of_lt h6)⟩⟩

theorem Shape.write_length_le {sh' : Shape} (hw : sh.write n = some sh') :
    sh'.length ≤ sh.length + n ∧ sh.length + n < 2 ^ 31 := by
  unfold Shape.write Shape.add at hw
  by_cases hwrap : 2 ^ 31 ≤ sh.length + n
  · rw [if_pos hwrap] at hw
    cases hw
  refine ⟨?_, not_le.1 hwrap⟩
  have hf : sh.flush.length ≤ sh.length := Nat.sub_le _ _
  rw [if_neg hwrap] at hw
  dsimp only at hw
  split at hw
  · cases hw
    exact le_refl _
  split at hw
  · cases hw
  split at hw
  · cases hw
    exact Nat.add_le_add_right hf n
  split at hw
  · cases hw
    exact Nat.add_le_add_right hf n
  split at hw
  · cases hw
    exact Nat.add_le_add_right hf n
  · cases hw

theorem padding_length (h : roundUp8 n < 2 ^ 32) (hn : n < 2 ^ 32) :
    (padding n).length = roundUp8 n - n := by
  unfold padding
  rw [length_replicate, valueDataAlign_eq h hn]

theorem le_roundUp8 (n : ℕ) : n ≤ roundUp8 n := by
  unfold roundUp8
  omega

/-- **Bytes with padding that all go into the buffer.** -/
theorem Ok.writePadded_whole (h : s.Ok lag) {buffer : Buffer}
    (hw : s.shape.padded buffer.1.length = some sh) :
    (s.writePadded buffer.1).1 = roundUp8 buffer.1.length ∧ (s.writePadded buffer.1).2.Ok lag ∧
      (s.writePadded buffer.1).2.content = s.content ++ (buffer.1 ++ padding buffer.1.length) ∧
      (s.writePadded buffer.1).2.shape = sh := by
  unfold Shape.padded at hw
  by_cases hwrap : 2 ^ 31 ≤ s.shape.length + roundUp8 buffer.1.length
  · rw [if_pos hwrap] at hw
    cases hw
  have hlt : s.bytes.length + roundUp8 buffer.1.length < 2 ^ 31 := not_le.1 hwrap
  have hge := le_roundUp8 buffer.1.length
  have hpad := padding_length (by omega) buffer.2
  rw [if_neg hwrap] at hw
  unfold writePadded
  rw [valueDataAlign_eq (by omega) buffer.2]
  dsimp only
  rw [h.sum hlt]
  by_cases hfit : (s.bytes.length + roundUp8 buffer.1.length : ℤ) ≤ s.avail
  · rw [if_pos (by exact hfit)] at hw
    obtain ⟨⟩ := hw
    rw [if_pos hfit]
    have hlen : (buffer.1 ++ padding buffer.1.length).length = roundUp8 buffer.1.length := by
      rw [length_append, hpad]
      omega
    obtain ⟨hok, hc, hb⟩ := @Ok.put s lag h (buffer.1 ++ padding buffer.1.length)
      (by rw [hlen]; exact hfit)
    refine ⟨rfl, hok, hc, ?_⟩
    show Shape.mk (s.put _).bytes.length _ _ _ = _
    rw [hb, length_append, hlen]
    rfl
  · rw [if_neg (by exact hfit)] at hw
    rw [if_neg hfit, ssize_of_lt (show -2 ^ 31 ≤ (buffer.1.length : ℤ) by omega) (by omega)]
    by_cases heq : roundUp8 buffer.1.length = buffer.1.length
    · rw [if_pos heq] at hw
      obtain ⟨h1, h2, h3, h4⟩ := h.write_whole hw
      have hnil : padding buffer.1.length = [] := eq_nil_of_length_eq_zero (by rw [hpad]; omega)
      rw [if_pos h1, if_neg (not_not.2 heq), hnil, append_nil]
      refine ⟨by rw [h1, heq], h2, h3, h4⟩
    · rw [if_neg heq] at hw
      obtain ⟨sh1, hw1, hw2⟩ := Option.bind_eq_some_iff.1 hw
      obtain ⟨h1, h2, h3, h4⟩ := h.write_whole hw1
      rw [← h4, ← hpad] at hw2
      obtain ⟨k1, k2, k3, k4⟩ := h2.write_whole hw2
      rw [if_pos h1, if_pos heq]
      rw [if_pos k1]
      refine ⟨rfl, k2, ?_, k4⟩
      rw [k3, h3, append_assoc]

/-- **The padding**, after bytes that did not all go into the buffer or before such. -/
theorem Ok.write_padding {lag₁ : ℕ} (h : s.Ok lag₁) {pad front bytes : List Byte} (padded : ℕ)
    (hc : s.content = front ++ bytes) (hlag : lag ≤ lag₁)
    (hlt : s.bytes.length + pad.length < 2 ^ 31)
    (hwhy : lag < lag₁ ∨ s.shape.write pad.length = none) :
    ∃ m lag', (s.write pad).2.Ok lag' ∧ lag ≤ lag' ∧ m ≤ pad.length ∧
      (s.write pad).2.content = front ++ (bytes ++ pad.take m) ∧
      ((if (s.write pad).1 = pad.length then (padded : ℤ)
        else if (s.write pad).1 < 0 then (s.write pad).1 else -1) < 0 ∨
      0 ≤ (if (s.write pad).1 = pad.length then (padded : ℤ)
        else if (s.write pad).1 < 0 then (s.write pad).1 else -1) ∧ lag < lag') := by
  obtain ⟨m, lag', hm, hl, hok, hc', hr, hnone⟩ := h.write_any hlt
  refine ⟨m, lag', hok, hlag.trans hl, hm, ?_, ?_⟩
  · rw [hc', hc, append_assoc]
  · by_cases hk : (s.write pad).1 = pad.length
    · right
      rw [if_pos hk]
      refine ⟨Int.natCast_nonneg _, ?_⟩
      rcases hwhy with hlt' | hnone'
      · exact lt_of_lt_of_le hlt' hl
      · have hpos := h.pos_of_none hlt hnone'
        have hall : m = pad.length := by
          rcases hr with hr | ⟨hr, -⟩ <;> omega
        exact lt_of_le_of_lt hlag ((hnone hnone').2.2 hall).1
    · left
      rw [if_neg hk]
      split <;> omega

/-- **Bytes with padding that do not all go into the buffer**: none were taken and the result is
an error, or some were and it is an error, or the position stays behind. -/
theorem Ok.writePadded_part (h : s.Ok lag) {buffer : Buffer}
    (hlt : s.bytes.length + roundUp8 buffer.1.length < 2 ^ 31)
    (hw : s.shape.padded buffer.1.length = none) :
    ∃ m lag', (s.writePadded buffer.1).2.Ok lag' ∧ lag ≤ lag' ∧
      m ≤ (buffer.1 ++ padding buffer.1.length).length ∧
      (s.writePadded buffer.1).2.content =
        s.content ++ (buffer.1 ++ padding buffer.1.length).take m ∧
      (m = 0 → lag' = lag) ∧
      (m = 0 ↔ s.shape.write buffer.1.length = none ∧ s.shape.taken buffer.1.length = 0) ∧
      ((s.writePadded buffer.1).1 < 0 ∨ 0 ≤ (s.writePadded buffer.1).1 ∧ lag < lag') := by
  have hge := le_roundUp8 buffer.1.length
  have hpad := padding_length (n := buffer.1.length) (by omega) buffer.2
  have hlt' : s.bytes.length + buffer.1.length < 2 ^ 31 := by omega
  have hlong : ∀ m, (buffer.1 ++ padding buffer.1.length).take (buffer.1.length + m) =
      buffer.1 ++ (padding buffer.1.length).take m := fun m => take_length_add_append m
  unfold Shape.padded at hw
  rw [if_neg (show ¬ 2 ^ 31 ≤ s.shape.length + roundUp8 buffer.1.length from not_le.2 hlt)] at hw
  unfold writePadded
  rw [valueDataAlign_eq (by omega) buffer.2]
  dsimp only
  rw [h.sum hlt]
  by_cases hfit : (s.bytes.length + roundUp8 buffer.1.length : ℤ) ≤ s.avail
  · rw [if_pos (by exact hfit)] at hw
    cases hw
  rw [if_neg (by exact hfit)] at hw
  rw [if_neg hfit, ssize_of_lt (show -2 ^ 31 ≤ (buffer.1.length : ℤ) by omega) (by omega)]
  obtain ⟨m, lag₁, hm, hl, hok, hc, hr, hnone⟩ := h.write_any hlt'
  by_cases hall : (s.write buffer.1).1 = buffer.1.length
  · have hm' : m = buffer.1.length := by
      rcases hr with hr | ⟨hr, -⟩ <;> omega
    have hc' : (s.write buffer.1).2.content = s.content ++ buffer.1 := by
      rw [hc, hm', take_length]
    rw [if_pos hall]
    -- there is something to write, and the first write or the second one bypasses the buffer
    have hpos : 0 < buffer.1.length := by
      cases hw1 : s.shape.write buffer.1.length with
      | none => exact h.pos_of_none hlt' hw1
      | some sh₁ =>
        by_contra hn
        have hz : buffer.1.length = 0 := by omega
        rw [hw1, hz, if_pos (show roundUp8 0 = 0 from rfl)] at hw
        cases hw
    by_cases heq : roundUp8 buffer.1.length = buffer.1.length
    · rw [if_pos heq] at hw
      rw [if_neg (not_not.2 heq)]
      obtain ⟨htaken, hzero, hlag⟩ := hnone hw
      refine ⟨m, lag₁, hok, hl, ?_, ?_, hzero, ?_, .inr ⟨?_, (hlag hm').1⟩⟩
      · rw [length_append]
        omega
      · rw [take_append_of_le_length hm]
        exact hc
      · rw [← htaken]
        exact ⟨fun hz => ⟨hw, hz⟩, And.right⟩
      · rw [hall]
        exact Int.natCast_nonneg _
    · rw [if_neg heq] at hw
      rw [if_pos heq]
      have hbytes : (s.write buffer.1).2.bytes.length + (padding buffer.1.length).length < 2 ^ 31 ∧
          (lag < lag₁ ∨ (s.write buffer.1).2.shape.write (padding buffer.1.length).length = none) := by
        cases hw1 : s.shape.write buffer.1.length with
        | none =>
          obtain ⟨hlag, hnil⟩ := (hnone hw1).2.2 hm'
          rw [hnil, hpad, length_nil]
          exact ⟨by omega, .inl hlag⟩
        | some sh₁ =>
          rw [hw1, Option.bind_some] at hw
          obtain ⟨-, -, -, hshape⟩ := h.write_whole hw1
          have hle : sh₁.length ≤ s.bytes.length + buffer.1.length := (Shape.write_length_le hw1).1
          have hlen : (s.write buffer.1).2.bytes.length = sh₁.length := congrArg Shape.length hshape
          rw [hlen, hshape, hpad]
          exact ⟨by omega, .inr hw⟩
      obtain ⟨m₂, lag₂, hok₂, hl₂, hm₂, hc₂, hr₂⟩ := hok.write_padding
        (roundUp8 buffer.1.length) hc' hl hbytes.1 hbytes.2
      refine ⟨buffer.1.length + m₂, lag₂, hok₂, hl₂, ?_, ?_, fun hz => by omega,
        ⟨fun hz => by omega, fun hz => ?_⟩, hr₂⟩
      · rw [length_append]
        omega
      · rw [hlong]
        exact hc₂
      · have := (hnone hz.1).1
        omega
  · have hw1 : s.shape.write buffer.1.length = none := by
      cases hw1 : s.shape.write buffer.1.length with
      | none => rfl
      | some sh₁ => exact absurd (h.write_whole hw1).1 hall
    obtain ⟨htaken, hzero, -⟩ := hnone hw1
    rw [if_neg hall]
    refine ⟨m, lag₁, hok, hl, ?_, ?_, hzero, ?_, .inl ?_⟩
    · rw [length_append]
      omega
    · rw [take_append_of_le_length hm]
      exact hc
    · rw [← htaken]
      exact ⟨fun hz => ⟨hw1, hz⟩, And.right⟩
    · dsimp only
      split <;> omega

/-! ### Faults -/

theorem reAlloc_fault (s : OutParcel) (len : ℤ) : (s.reAlloc len).2.fault = s.fault := by
  unfold reAlloc
  split
  · rfl
  · split <;> rfl

theorem put_fault (s : OutParcel) (buffer : List Byte) (h : s.fault = true) :
    (s.put buffer).fault = true := by
  unfold put
  rw [h, Bool.true_or]

theorem flush_fault (s : OutParcel) : s.flush.2.fault = s.fault := by
  unfold flush writeBuffer
  dsimp only
  split <;> rfl

theorem writeRest_fault (s : OutParcel) (total : ℕ) (buffer : List Byte) (h : s.fault = true) :
    (s.writeRest total buffer).2.fault = true := by
  have hre : (if ssize (buffer.length + s.pos) > s.avail then
      s.reAlloc (grown s.avail (ssize (buffer.length + s.pos))) else (true, s)).2.fault = true := by
    split
    · rw [reAlloc_fault]
      exact h
    · exact h
  unfold writeRest
  dsimp only
  generalize (if ssize (buffer.length + s.pos) > s.avail then
      s.reAlloc (grown s.avail (ssize (buffer.length + s.pos))) else (true, s)) = a at hre ⊢
  generalize (if a.1 = true then buffer else buffer.take (a.2.avail - a.2.pos).toNat) = b
  split
  · exact hre
  · exact put_fault _ _ hre

theorem write_fault (s : OutParcel) (buffer : List Byte) (h : s.fault = true) :
    (s.write buffer).2.fault = true := by
  unfold write
  dsimp only
  split
  · exact put_fault _ _ h
  generalize (if s.pos < s.bytes.length then s.bytes.length - s.pos.toNat else 0) = total
  have hput : (if s.pos < s.bytes.length then s.put (buffer.take total) else s).flush.2.fault =
      true := by
    rw [flush_fault]
    split
    · exact put_fault _ _ h
    · exact h
  generalize (if s.pos < s.bytes.length then s.put (buffer.take total) else s) = q at hput ⊢
  split
  · exact hput
  · exact writeRest_fault _ _ _ hput

theorem writePadded_fault (s : OutParcel) (buffer : List Byte) (h : s.fault = true) :
    (s.writePadded buffer).2.fault = true := by
  have hw := write_fault s buffer h
  unfold writePadded
  dsimp only
  split
  · exact put_fault _ _ h
  split
  · split
    · exact write_fault _ _ hw
    · exact hw
  · exact hw

theorem Ok.put_outside (h : s.Ok lag) (hlt : 2 ^ 31 ≤ s.bytes.length + buffer.length) :
    (s.put buffer).fault = true := by
  have hsize := h.size_lt
  unfold OutParcel.put
  rw [h.pos, decide_eq_true (by omega), Bool.or_true]

theorem Ok.write_wraps (h : s.Ok lag) (h32 : buffer.length < 2 ^ 32)
    (hlt : 2 ^ 31 ≤ s.bytes.length + buffer.length) : (s.write buffer).2.fault = true := by
  have hle := h.le_avail
  have hfit : ssize (s.pos + buffer.length) ≤ s.avail := by
    rw [h.pos, ssize_eq]
    omega
  unfold write
  rw [if_pos hfit]
  exact h.put_outside hlt

theorem Ok.writePadded_wraps (h : s.Ok lag) {buffer : Buffer}
    (hlt : 2 ^ 31 ≤ s.bytes.length + roundUp8 buffer.1.length) :
    (s.writePadded buffer.1).2.fault = true := by
  have hle := h.le_avail
  have hfit : ssize (s.pos + (valueDataAlign buffer.1.length : ℤ)) ≤ s.avail := by
    rw [h.pos, ssize_eq]
    unfold roundUp8 at hlt
    unfold valueDataAlign
    omega
  unfold writePadded
  rw [if_pos hfit]
  refine h.put_outside ?_
  unfold padding
  rw [length_append, length_replicate]
  unfold roundUp8 at hlt
  unfold valueDataAlign
  omega

end OutParcel

namespace Shape

/-- None of the bytes is taken. -/
def Refuses (sh : Shape) (n : ℕ) : Prop :=
  sh.length + n < 2 ^ 31 ∧ sh.write n = none ∧ sh.taken n = 0

end Shape

namespace Writing

open OutParcel

/-- **What a call has to find**: its bytes do not wrap around and none of them bypasses the
buffer; and those of several steps go into it whole, or not even the first ones do. -/
def Fits (s : Writing) : OutCall → Prop
  | .write buffer => s.parcel.shape.length + buffer.1.length < 2 ^ 31 ∧
    (s.parcel.shape.Direct buffer.1.length → s.parcel.shape.taken buffer.1.length = 0)
  | .writeSmallData _ _ => s.parcel.shape.length + 8 < 2 ^ 31 ∧
    (s.parcel.shape.Direct 8 → s.parcel.shape.taken 8 = 0)
  | .writePadded buffer => (s.parcel.shape.padded buffer.1.length).isSome ∨
    s.parcel.shape.length + roundUp8 buffer.1.length < 2 ^ 31 ∧
      s.parcel.shape.Refuses buffer.1.length
  | .writeLargeData _ data =>
    ((s.parcel.shape.write 8).bind (·.padded data.1.length)).isSome ∨ s.parcel.shape.Refuses 8
  | .writeLargeHeader _ _ => (s.parcel.shape.write 8).isSome ∨ s.parcel.shape.Refuses 8
  | .flush => True

/-- **The whole invariant.** -/
structure Kept (s : Writing) : Prop where
  ok : s.parcel.Ok 0
  content : s.parcel.content = s.reported

theorem Kept.sound {s : Writing} (h : s.Kept) : s.Sound := by
  refine ⟨h.content, ?_, h.ok.fault⟩
  have := h.ok.position
  rw [h.content] at this
  simpa using this

/-- **What a call leaves** is sound if it reports the bytes that it took, and the position is not
behind. -/
theorem isSound_iff {s : OutParcel} {lag : ℕ} {reported : List Byte} (h : s.Ok lag) :
    Sound ⟨s, reported⟩ ↔ lag = 0 ∧ s.content = reported := by
  have hp := h.position
  constructor
  · intro hs
    have hc : s.content = reported := hs.bytes
    have hpos : s.position = reported.length := hs.position
    rw [hc] at hp
    exact ⟨by omega, hc⟩
  · rintro ⟨rfl, hc⟩
    exact Kept.sound ⟨h, hc⟩

theorem direct_write {sh : Shape} {n : ℕ} (hd : sh.Direct n) : sh.write n = none := by
  unfold Shape.write
  rw [if_neg (not_le.2 hd.1), if_pos hd]
  split <;> rfl

variable {s : Writing}

theorem Kept.write (h : s.Kept) {buffer : List Byte} (h32 : buffer.length < 2 ^ 32) :
    let cond := s.parcel.shape.length + buffer.length < 2 ^ 31 ∧
      (s.parcel.shape.Direct buffer.length → s.parcel.shape.taken buffer.length = 0)
    let s' := Writing.mk (s.parcel.write buffer).2
      (s.reported ++ buffer.take (s.parcel.write buffer).1.toNat)
    (cond → s'.Kept) ∧ (s'.Sound → cond) := by
  by_cases hlt : s.parcel.bytes.length + buffer.length < 2 ^ 31
  · cases hw : s.parcel.shape.write buffer.length with
    | some sh =>
      obtain ⟨h1, h2, h3, -⟩ := h.ok.write_whole hw
      refine ⟨fun _ => ⟨h2, ?_⟩, fun _ => ⟨hlt, fun hd => ?_⟩⟩
      · dsimp only
        rw [h3, h1, Int.toNat_natCast, take_length, h.content]
      · rw [direct_write hd] at hw
        cases hw
    | none =>
      obtain ⟨h1, h2, h3, h4⟩ := h.ok.write_part hlt hw
      have hreported : (s.parcel.write buffer).2.content =
          s.reported ++ buffer.take (s.parcel.write buffer).1.toNat := by
        rw [h1, h.content]
        rcases h2 with h2 | ⟨h2, hz⟩
        · rw [h2, Int.toNat_natCast]
        · rw [hz, Int.toNat_of_nonpos (le_of_lt h2)]
      by_cases hd : s.parcel.shape.Direct buffer.length
      · obtain ⟨hok, -⟩ := h3 hd
        refine ⟨fun hc => ⟨?_, hreported⟩, fun hs => ⟨hlt, fun _ => ?_⟩⟩
        · have hz := hc.2 hd
          rw [hz] at hok
          exact hok
        · have := ((isSound_iff hok).1 hs).1
          omega
      · exact ⟨fun _ => ⟨(h4 hd).1, hreported⟩, fun _ => ⟨hlt, fun hd' => absurd hd' hd⟩⟩
  · refine ⟨fun hc => absurd hc.1 hlt, fun hs => ?_⟩
    have hf := h.ok.write_wraps h32 (not_lt.1 hlt)
    have := hs.fault
    rw [show (s.parcel.write buffer).2.fault = false from this] at hf
    cases hf

theorem append_take_eq {α : Type} {front l : List α} {m : ℕ} (hm : m ≤ l.length) :
    front ++ l.take m = front ↔ m = 0 := by
  rw [append_right_eq_self, take_eq_nil_iff]
  constructor
  · rintro (hz | hz)
    · exact hz
    · rw [hz] at hm
      exact Nat.le_zero.1 hm
  · exact .inl

/-- **`WritePadded`** leaves a parcel sound exactly when it fits. -/
theorem Kept.writePadded (h : s.Kept) {buffer : Buffer} :
    let s' := Writing.mk (s.parcel.writePadded buffer.1).2 (s.reported ++
      (buffer.1 ++ padding buffer.1.length).take (s.parcel.writePadded buffer.1).1.toNat)
    (s.Fits (.writePadded buffer) → s'.Kept) ∧ (s'.Sound → s.Fits (.writePadded buffer)) := by
  by_cases hlt : s.parcel.bytes.length + roundUp8 buffer.1.length < 2 ^ 31
  · cases hw : s.parcel.shape.padded buffer.1.length with
    | some sh =>
      obtain ⟨h1, h2, h3, -⟩ := h.ok.writePadded_whole hw
      refine ⟨fun _ => ⟨h2, ?_⟩, fun _ => .inl (by rw [hw]; rfl)⟩
      have hge := le_roundUp8 buffer.1.length
      have hlen : (buffer.1 ++ padding buffer.1.length).length = roundUp8 buffer.1.length := by
        rw [length_append, padding_length (by omega) buffer.2]
        omega
      rw [h3, h1, Int.toNat_natCast, ← hlen, take_length, h.content]
    | none =>
      obtain ⟨m, lag, hok, hlag, hm, hc, hz, hiff, hr⟩ := h.ok.writePadded_part hlt hw
      constructor
      · rintro (hs | ⟨-, hrefuse⟩)
        · rw [hw] at hs
          cases hs
        · -- nothing was taken, and the result is an error
          have hm0 := hiff.2 hrefuse.2
          have hl0 := hz hm0
          have hneg := hr.resolve_right fun hr => by omega
          rw [hl0] at hok
          refine ⟨hok, ?_⟩
          rw [hc, hm0, Int.toNat_of_nonpos (le_of_lt hneg), take_zero, append_nil,
            append_nil, h.content]
      · intro hs
        obtain ⟨hl0, hc0⟩ := (isSound_iff hok).1 hs
        have hneg := hr.resolve_right fun hr => by omega
        rw [Int.toNat_of_nonpos (le_of_lt hneg), take_zero, append_nil, hc, h.content,
          append_take_eq hm] at hc0
        have hge := le_roundUp8 buffer.1.length
        refine .inr ⟨hlt, ?_, hiff.1 hc0⟩
        show s.parcel.bytes.length + buffer.1.length < 2 ^ 31
        omega
  · refine ⟨?_, fun hs => ?_⟩
    · rintro (hs | ⟨hlt', -⟩)
      · unfold Shape.padded at hs
        rw [if_pos (show 2 ^ 31 ≤ s.parcel.shape.length + _ from not_lt.1 hlt)] at hs
        cases hs
      · exact absurd hlt' hlt
    · have hf := h.ok.writePadded_wraps (not_lt.1 hlt)
      have := hs.fault
      rw [show (s.parcel.writePadded buffer.1).2.fault = false from this] at hf
      cases hf

theorem header_length (packedType packedData : BitVec 32) :
    (header packedType packedData).length = 8 := rfl

theorem badResult_toNat (r : ℤ) : (if r ≥ 0 then badData else r).toNat = 0 := by
  split
  · decide
  · omega

/-- **A header**: it goes into the buffer, or it is refused, or what comes after it is not
sound. -/
theorem Kept.header (h : s.Kept) (packedType packedData : BitVec 32) :
    let q := s.parcel.write (OutParcel.header packedType packedData)
    (∃ sh, s.parcel.shape.write 8 = some sh ∧ q.1 = 8 ∧ q.2.shape = sh ∧
      Kept ⟨q.2, s.reported ++ OutParcel.header packedType packedData⟩) ∨
    (s.parcel.shape.write 8 = none ∧ s.parcel.shape.Refuses 8 ∧ q.1 ≠ 8 ∧ Kept ⟨q.2, s.reported⟩) ∨
    (s.parcel.shape.write 8 = none ∧ ¬ s.parcel.shape.Refuses 8 ∧
      (q.2.fault = true ∨ (∃ lag, 0 < lag ∧ q.2.Ok lag) ∨
        (q.1 ≠ 8 ∧ ¬ Sound ⟨q.2, s.reported⟩))) := by
  by_cases hlt : s.parcel.bytes.length + 8 < 2 ^ 31
  · obtain ⟨m, lag, hm, -, hok, hc, hr, hnone⟩ :=
      @Ok.write_any _ _ h.ok (OutParcel.header packedType packedData) hlt
    rw [header_length] at hm hnone
    cases hw : s.parcel.shape.write 8 with
    | some sh =>
      obtain ⟨h1, h2, h3, h4⟩ := @Ok.write_whole _ _ h.ok (OutParcel.header packedType packedData) _ hw
      exact .inl ⟨sh, rfl, h1, h4, h2, by rw [h3, h.content]⟩
    | none =>
      obtain ⟨htaken, hzero, hall⟩ := hnone hw
      by_cases hz : m = 0
      · refine .inr (.inl ⟨rfl, ⟨hlt, hw, by rw [← htaken]; exact hz⟩, ?_, ?_⟩)
        · rcases hr with hr | ⟨hr, -⟩ <;> omega
        · rw [hzero hz] at hok
          refine ⟨hok, ?_⟩
          rw [hc, hz, take_zero, append_nil, h.content]
      · refine .inr (.inr ⟨rfl, fun hrefuse => hz (htaken.trans hrefuse.2.2), .inr ?_⟩)
        by_cases h8 : m = 8
        · exact .inl ⟨lag, (hall h8).1, hok⟩
        · refine .inr ⟨by rcases hr with hr | ⟨hr, -⟩ <;> omega, fun hs => ?_⟩
          have hc0 := ((isSound_iff hok).1 hs).2
          rw [hc, h.content, append_take_eq hm] at hc0
          exact hz hc0
  · refine .inr (.inr ⟨?_, fun hrefuse => hlt hrefuse.1, .inl ?_⟩)
    · unfold Shape.write
      rw [if_pos (show 2 ^ 31 ≤ s.parcel.shape.length + 8 from not_lt.1 hlt)]
    · exact h.ok.write_wraps (by rw [header_length]; decide) (not_lt.1 hlt)

variable {q : OutParcel} {s' : Writing}

theorem not_sound_of_lag {lag : ℕ} (h : q.Ok lag) (hlag : 0 < lag) (reported : List Byte) :
    ¬ Sound ⟨q, reported⟩ := by
  intro hs
  have := ((isSound_iff h).1 hs).1
  omega

theorem not_sound_of_fault (h : q.fault = true) (reported : List Byte) :
    ¬ Sound ⟨q, reported⟩ := by
  intro hs
  have := hs.fault
  rw [show q.fault = false from this] at h
  cases h

theorem not_sound_of_padded {lag : ℕ} (h : q.Ok lag) (hlag : 0 < lag) (buffer : Buffer)
    (reported : List Byte) : ¬ Sound ⟨(q.writePadded buffer.1).2, reported⟩ := by
  by_cases hlt : q.bytes.length + roundUp8 buffer.1.length < 2 ^ 31
  · cases hw : q.shape.padded buffer.1.length with
    | some sh =>
      obtain ⟨-, hok, -, -⟩ := h.writePadded_whole hw
      exact not_sound_of_lag hok hlag reported
    | none =>
      obtain ⟨m, lag', hok, hl, -⟩ := h.writePadded_part hlt hw
      exact not_sound_of_lag hok (lt_of_lt_of_le hlag hl) reported
  · exact not_sound_of_fault (h.writePadded_wraps (not_lt.1 hlt)) reported

theorem result_of_header {s q : OutParcel} {packedType length : BitVec 32} {data : Option (List Byte)}
    {r : ℤ} (hq : s.write (OutParcel.header packedType length) = (r, q)) :
    s.writeLargeData packedType length data = if r = 8 then
      match data with
      | none => (8, q)
      | some data => (if (q.writePadded data).1 ≥ 0 then (q.writePadded data).1 + 8
          else (q.writePadded data).1, (q.writePadded data).2)
    else (if r ≥ 0 then badData else r, q) := by
  unfold OutParcel.writeLargeData writeSmallData
  rw [hq]
  dsimp only
  by_cases hr : r = 8
  · rw [if_pos hr, if_pos hr, hr]
    cases data with
    | none => rfl
    | some data =>
      dsimp only
      split <;> rfl
  · rw [if_neg hr, if_neg hr]

/-- A header that does not go into the buffer, and is not refused, leaves nothing sound. -/
theorem not_sound_of_header {r : ℤ} {reported : List Byte} {bytes : List Byte}
    (hbad : q.fault = true ∨ (∃ lag, 0 < lag ∧ q.Ok lag) ∨ (r ≠ 8 ∧ ¬ Sound ⟨q, reported⟩))
    (hr : r = 8 ∨ bytes = []) : ¬ Sound ⟨q, reported ++ bytes⟩ := by
  rcases hbad with hf | ⟨lag, hlag, hok⟩ | ⟨hne, hns⟩
  · exact not_sound_of_fault hf _
  · exact not_sound_of_lag hok hlag _
  · rw [hr.resolve_left hne, append_nil]
    exact hns

/-- **`WriteLargeData`** without data leaves a parcel sound exactly when it fits. -/
theorem Kept.writeLargeHeader (h : s.Kept) {packedType length : BitVec 32}
    (hs : s.step (.writeLargeHeader packedType length) = some s') :
    (s.Fits (.writeLargeHeader packedType length) → s'.Kept) ∧
      (s'.Sound → s.Fits (.writeLargeHeader packedType length)) := by
  obtain ⟨⟩ := hs
  have hheader := h.header packedType length
  rcases hq : s.parcel.write (OutParcel.header packedType length) with ⟨r, q⟩
  have hres := @result_of_header _ q packedType length none r hq
  rw [hq] at hheader
  dsimp only [Writing.result, Writing.bytes] at hheader ⊢
  rw [hres]
  rcases hheader with ⟨sh, hw, hr, -, hk⟩ | ⟨hw, hrefuse, hr, hk⟩ | ⟨hw, hrefuse, hbad⟩
  · rw [if_pos hr]
    exact ⟨fun _ => hk, fun _ => .inl (by rw [hw]; rfl)⟩
  · rw [if_neg hr]
    rw [badResult_toNat, take_zero, append_nil]
    exact ⟨fun _ => hk, fun _ => .inr hrefuse⟩
  · constructor
    · rintro (hsome | hrefuse')
      · rw [hw] at hsome
        cases hsome
      · exact absurd hrefuse' hrefuse
    · intro hsound
      exfalso
      by_cases hr : r = 8
      · rw [if_pos hr] at hsound
        exact not_sound_of_header hbad (.inl hr) hsound
      · rw [if_neg hr] at hsound
        rw [badResult_toNat, take_zero] at hsound
        exact not_sound_of_header hbad (.inr rfl) hsound

/-- **`WriteLargeData`** leaves a parcel sound exactly when it fits. -/
theorem Kept.writeLargeData (h : s.Kept) {packedType : BitVec 32} {data : Buffer}
    (hs : s.step (.writeLargeData packedType data) = some s') :
    (s.Fits (.writeLargeData packedType data) → s'.Kept) ∧
      (s'.Sound → s.Fits (.writeLargeData packedType data)) := by
  obtain ⟨⟩ := hs
  have hheader := h.header packedType (BitVec.ofNat 32 data.1.length)
  have hlen8 := header_length packedType (BitVec.ofNat 32 data.1.length)
  rcases hq : s.parcel.write (OutParcel.header packedType (BitVec.ofNat 32 data.1.length)) with ⟨r, q⟩
  have hres := @result_of_header _ q packedType _ (some data.1) r hq
  rw [hq] at hheader
  dsimp only [Writing.result, Writing.bytes] at hheader ⊢
  rw [hres]
  generalize OutParcel.header packedType (BitVec.ofNat 32 data.1.length) = hdr at hheader hlen8 ⊢
  rcases hheader with ⟨sh, hw, hr, hshape, hk⟩ | ⟨hw, hrefuse, hr, hk⟩ | ⟨hw, hrefuse, hbad⟩
  · rw [if_pos hr]
    dsimp only
    have hok : q.Ok 0 := hk.ok
    have hcontent : q.content = s.reported ++ hdr := hk.content
    have hnot : ¬ s.parcel.shape.Refuses 8 := by
      intro hrefuse
      rw [hrefuse.2.1] at hw
      cases hw
    have hiff : s.Fits (.writeLargeData packedType data) ↔ (sh.padded data.1.length).isSome := by
      show _ ∨ _ ↔ _
      rw [hw, Option.bind_some]
      exact ⟨fun hf => hf.resolve_right hnot, .inl⟩
    rw [hiff, ← hshape]
    cases hp : q.shape.padded data.1.length with
    | some sh₂ =>
      obtain ⟨k1, k2, k3, -⟩ := hok.writePadded_whole hp
      refine ⟨fun _ => ⟨k2, ?_⟩, fun _ => rfl⟩
      have hge := le_roundUp8 data.1.length
      have hlt : roundUp8 data.1.length < 2 ^ 32 := by
        unfold Shape.padded at hp
        by_contra hn
        rw [if_pos (by omega)] at hp
        cases hp
      have hlen : (hdr ++ (data.1 ++ padding data.1.length)).length = roundUp8 data.1.length + 8 := by
        rw [length_append, length_append, hlen8, padding_length hlt data.2]
        omega
      rw [if_pos (by rw [k1]; exact Int.natCast_nonneg _), k1, k3, hcontent,
        show ((roundUp8 data.1.length : ℤ) + 8).toNat = roundUp8 data.1.length + 8 by omega,
        ← hlen, take_length, append_assoc]
    | none =>
      refine ⟨fun hf => (by cases hf), fun hsound => ?_⟩
      exfalso
      -- the header is in the buffer, and what comes after it is not reported
      by_cases hlt : q.bytes.length + roundUp8 data.1.length < 2 ^ 31
      · obtain ⟨m, lag, k1, -, k3, k4, -, -, k5⟩ := hok.writePadded_part hlt hp
        rcases k5 with hneg | ⟨-, hlag⟩
        · rw [if_neg (by omega), Int.toNat_of_nonpos (le_of_lt hneg), take_zero,
            append_nil] at hsound
          have hc0 := ((isSound_iff k1).1 hsound).2
          rw [k4, hcontent, append_assoc, append_right_eq_self] at hc0
          have := congrArg List.length hc0
          rw [length_append, hlen8, length_nil] at this
          omega
        · exact not_sound_of_lag k1 hlag _ hsound
      · exact not_sound_of_fault (hok.writePadded_wraps (not_lt.1 hlt)) _ hsound
  · rw [if_neg hr]
    rw [badResult_toNat, take_zero, append_nil]
    exact ⟨fun _ => hk, fun _ => .inr hrefuse⟩
  · constructor
    · rintro (hsome | hrefuse')
      · rw [hw] at hsome
        cases hsome
      · exact absurd hrefuse' hrefuse
    · intro hsound
      exfalso
      by_cases hr : r = 8
      · rw [if_pos hr] at hsound
        rcases hbad with hf | ⟨lag, hlag, hok⟩ | ⟨hne, -⟩
        · exact not_sound_of_fault (writePadded_fault _ _ hf) _ hsound
        · exact not_sound_of_padded hok hlag data _ hsound
        · exact hne hr
      · rw [if_neg hr] at hsound
        rw [badResult_toNat, take_zero] at hsound
        exact not_sound_of_header hbad (.inr rfl) hsound

/-- **A call** leaves a parcel sound exactly when it fits. -/
theorem Kept.step (h : s.Kept) {c : OutCall} (hs : s.step c = some s') :
    (s.Fits c → s'.Kept) ∧ (s'.Sound → s.Fits c) := by
  cases c with
  | write buffer =>
    obtain ⟨⟩ := hs
    exact h.write buffer.2
  | writePadded buffer =>
    obtain ⟨⟩ := hs
    exact h.writePadded
  | writeSmallData packedType packedData =>
    obtain ⟨⟩ := hs
    exact @Kept.write s h (OutParcel.header packedType packedData) (by rw [header_length]; decide)
  | writeLargeData packedType data => exact h.writeLargeData hs
  | writeLargeHeader packedType length => exact h.writeLargeHeader hs
  | flush =>
    obtain ⟨⟩ := hs
    obtain ⟨hok, hc, -⟩ := h.ok.flush
    refine ⟨fun _ => ⟨hok, ?_⟩, fun _ => trivial⟩
    dsimp only [Writing.result, Writing.bytes]
    rw [hc, h.content, take_nil, append_nil]

theorem start_kept (bufferSize : BitVec 32) (accepts : ℕ → ℕ) (mallocs : ℕ → Bool) :
    Kept ⟨OutParcel.start bufferSize accepts mallocs, []⟩ := by
  have hlt := bufferSize.toInt_lt
  unfold OutParcel.start
  generalize hn : (if bufferSize.toInt < 0 then 32 else bufferSize.toInt) = n
  have h0 : 0 ≤ n ∧ n < 2 ^ 31 := by
    rw [← hn]
    split <;> omega
  refine ⟨⟨rfl, rfl, h0.1, ?_, ?_, ?_, rfl⟩, rfl⟩
  · dsimp only
    split
    · rename_i hz
      exact le_of_eq hz
    split
    · rename_i h32
      exact h32
    · exact le_refl _
  · dsimp only
    split
    · exact fun _ => by assumption
    split
    · exact fun hd => (by cases hd)
    · exact fun hd => (by cases hd)
  · dsimp only
    intro m
    split
    · exact fun hd => (by cases hd)
    split
    · exact fun hd => (by cases hd)
    · rintro ⟨⟩
      exact ⟨rfl, by omega, h0.2⟩

end Writing

end OpenBinder
