import OpenBinder.Parcel.Storage

/-!
# Where a parcel reaches

A parcel is `Sound` if its three numbers are in order and within its block, or `malloc` failed
and it shows that; if the bytes that the last operation reached lie in the block; and if the
remembered objects do.

* `Storage.Fits` is what an operation has to find for that: sums that do not wrap around onto a
  number that is small enough, no block of up to 32 bytes made larger without being moved, no
  negative length.
* `parcels_sound_iff`: all parcels are sound in every state of a run exactly when every call of
  the run fits.
-/

namespace OpenBinder

open Lib List Int
open Function (update update_idem update_of_ne update_self)

namespace Storage

variable {p q : Storage}

/-- **The numbers are in order**, and the block is as large as they say. -/
structure Bounded (p : Storage) : Prop where
  pos : 0 ≤ p.pos
  pos_le : p.pos ≤ p.length
  length_le : p.length ≤ p.avail
  avail_le : p.avail ≤ p.data.size

/-- **The error of `malloc`** is in the place of the length. -/
structure Failed (p : Storage) : Prop where
  data : p.data = .null
  length : p.length = noMemory
  avail : p.avail = noMemory
  pos : p.pos = 0

structure Sound (p : Storage) : Prop where
  state : p.Bounded ∨ p.Failed
  ranges : ∀ r ∈ p.ranges, r.Inside
  binders : ∀ o ∈ p.binders, 0 ≤ o ∧ o + 16 ≤ p.data.size

/-- A block that has to be made larger is made larger than 32 bytes, or is `m_inline`. -/
def Room (p : Storage) (need : ℤ) : Prop :=
  p.avail < need → 0 ≤ p.length → p.grown need ≤ 32 → p.data = .inline

/-- A sum that does not show more than there is does not wrap around. -/
def Within (p : Storage) (amount limit : ℤ) : Prop :=
  ssize (p.pos + amount) ≤ limit → p.pos + amount ≤ limit

/-- A size rounded up to whole words of eight bytes. -/
def roundUp8 (n : ℕ) : ℕ := (n + 7) / 8 * 8

/-- **What a call has to find.** -/
def Fits (p : Storage) : StorageCall → Prop
  | .write amount _ | .writeInPlace amount _ =>
    p.Within amount.toNat p.avail ∧ p.Room (ssize (p.pos + amount.toNat))
  | .writePadded amount _ _ =>
    let padded : ℤ := valueDataAlign amount.toNat
    (ssize (p.pos + padded) ≤ p.avail → p.pos + roundUp8 amount.toNat ≤ p.avail) ∧
      (p.avail < ssize (p.pos + padded) → p.Within amount.toNat p.avail ∧
        p.Room (if p.pos + amount.toNat ≤ p.avail then p.pos + padded else p.pos + amount.toNat))
  | .writeBinder _ _ _ => p.Within 16 p.avail ∧ p.Room (ssize (p.pos + 16))
  | .setLength len _ => p.avail < len.toInt → 0 ≤ p.length → len.toInt ≤ 32 → p.data = .inline
  | .reAlloc len _ => 0 ≤ p.length →
    0 ≤ len.toInt ∧ (p.avail < len.toInt → len.toInt ≤ 32 → p.data = .inline)
  | .reserve len _ => p.data = .null → 0 ≤ len.toInt
  | .alloc len _ => 0 ≤ len.toInt
  | .setPosition _ => True
  | .read amount | .readInPlace amount => p.Within amount.toNat p.length
  | .drain amount => ssize (p.pos + amount.toNat) ≤ p.length → 0 ≤ ssize (p.pos + amount.toNat)

/-- **The whole invariant**: a block that is not the parcel's own is used to its end. -/
structure Kept (p : Storage) : Prop where
  sound : p.Sound
  outside : ∀ n, p.data = .outside n → p.avail = n ∧ n < 2 ^ 31

theorem Kept.size_lt (h : p.Kept) : p.data.size < 2 ^ 31 := by
  cases hd : p.data with
  | null => decide
  | inline => decide
  | outside n => exact (h.outside n hd).2

theorem noMemory_eq : noMemory = -2147482364 := by decide

theorem Failed.neg (h : p.Failed) : p.length < 0 := by
  rw [h.length]
  decide

theorem Sound.bounded (h : p.Sound) (hlen : 0 ≤ p.length) : p.Bounded :=
  h.state.resolve_right fun hf => absurd hf.neg (not_lt.2 hlen)

theorem Sound.failed (h : p.Sound) (hlen : p.length < 0) : p.Failed :=
  h.state.resolve_left fun hb => absurd hlen (not_lt.2 (hb.pos.trans hb.pos_le))

theorem Sound.avail_le (h : p.Sound) : p.avail ≤ p.data.size := by
  rcases h.state with hb | hf
  · exact hb.avail_le
  · rw [hf.data, hf.avail]
    decide

theorem Sound.state_of (h : p.Sound) (hdata : q.data = p.data) (hlength : q.length = p.length)
    (havail : q.avail = p.avail) (hpos : q.pos = p.pos) : q.Bounded ∨ q.Failed := by
  rcases h.state with hb | hf
  · refine .inl ⟨hpos ▸ hb.pos, ?_, ?_, ?_⟩
    · rw [hpos, hlength]
      exact hb.pos_le
    · rw [hlength, havail]
      exact hb.length_le
    · rw [havail, hdata]
      exact hb.avail_le
  · exact .inr ⟨hdata.trans hf.data, hlength.trans hf.length, havail.trans hf.avail,
      hpos.trans hf.pos⟩

theorem Sound.pos_nonneg (h : p.Sound) : 0 ≤ p.pos := by
  rcases h.state with hb | hf
  · exact hb.pos
  · exact le_of_eq hf.pos.symm

theorem Kept.touch (h : p.Kept) {offset length : ℤ}
    (hr : 0 < length → 0 ≤ offset ∧ offset + length ≤ p.data.size) :
    (p.touch offset length).Kept := by
  refine ⟨⟨h.sound.state_of rfl rfl rfl rfl, fun r hm => ?_, h.sound.binders⟩, h.outside⟩
  rcases mem_append.1 hm with hm | hm
  · exact h.sound.ranges r hm
  · rw [mem_singleton.1 hm]
    exact hr

theorem Kept.binderRanges (h : p.Kept) : p.binderRanges.Kept := by
  refine ⟨⟨h.sound.state_of rfl rfl rfl rfl, fun r hm => ?_, h.sound.binders⟩, h.outside⟩
  rcases mem_append.1 hm with hm | hm
  · exact h.sound.ranges r hm
  · obtain ⟨o, ho, rfl⟩ := mem_map.1 hm
    exact fun _ => h.sound.binders o ho

theorem Kept.ownBinders (h : p.Kept) : p.ownBinders.Kept ∧ p.ownBinders.data = p.data ∧
    p.ownBinders.pos = p.pos ∧ p.ownBinders.length = p.length ∧ p.ownBinders.avail = p.avail := by
  unfold Storage.ownBinders
  split
  · have hk := h.binderRanges
    exact ⟨⟨⟨h.sound.state_of rfl rfl rfl rfl, hk.sound.ranges, hk.sound.binders⟩, hk.outside⟩,
      rfl, rfl, rfl, rfl⟩
  · exact ⟨h, rfl, rfl, rfl, rfl⟩

theorem Kept.move (h : p.Kept) {pos length base : ℤ} {ownsBinders : Bool} (hpos : 0 ≤ pos)
    (hle : pos ≤ length) (hlen : length ≤ p.avail) :
    Kept { p with pos := pos, length := length, base := base, ownsBinders := ownsBinders } :=
  ⟨⟨.inl ⟨hpos, hle, hlen, h.sound.avail_le⟩, h.sound.ranges, h.sound.binders⟩, h.outside⟩

theorem Kept.addBinder (h : p.Kept) {o : ℤ} (ho : 0 ≤ o ∧ o + 16 ≤ p.data.size) :
    Kept { p with binders := p.binders ++ [o] } := by
  refine ⟨⟨h.sound.state_of rfl rfl rfl rfl, h.sound.ranges, fun o' hm => ?_⟩, h.outside⟩
  rcases mem_append.1 hm with hm | hm
  · exact h.sound.binders o' hm
  · rw [mem_singleton.1 hm]
    exact ho

theorem Kept.block (h : p.Kept) {data : Block} {free ownsBinders : Bool} {avail length pos base : ℤ}
    (hpos : 0 ≤ pos) (hle : pos ≤ length) (hlen : length ≤ avail) (ha : avail ≤ data.size)
    (hb : p.binders = [] ∨ p.data.size ≤ data.size)
    (ho : ∀ n, data = .outside n → avail = n ∧ n < 2 ^ 31) :
    Kept ⟨data, free, length, avail, base, pos, p.binders, ownsBinders, p.ranges⟩ := by
  refine ⟨⟨.inl ⟨hpos, hle, hlen, ha⟩, h.sound.ranges, fun o hm => ?_⟩, ho⟩
  have hin := h.sound.binders o hm
  rcases hb with hb | hb
  · rw [hb] at hm
    cases hm
  · exact ⟨hin.1, hin.2.trans hb⟩

/-! ### The block -/

theorem grown_ge (p : Storage) (need : ℤ) : need ≤ p.grown need := by
  unfold grown
  split <;> omega

theorem grown_lt (p : Storage) {need : ℤ} (h : need < 2 ^ 31) : p.grown need < 2 ^ 31 := by
  have hlt := ssize_lt (p.avail * 3)
  have hdiv : (ssize (p.avail * 3)).tdiv 2 < 2 ^ 31 := by
    rw [tdiv_eq_ediv, show Int.sign 2 = 1 from rfl]
    split <;> omega
  unfold grown
  split
  · exact h
  · exact hdiv

/-- **`ReAlloc` to more** than there is: the block stays, or a larger one is made. -/
theorem reAlloc_small (hlen : 0 ≤ p.length) {len : ℤ} (malloc : Bool) (hlt : p.avail < len)
    (h32 : len ≤ 32) : p.reAlloc len malloc = (decide (p.data ≠ .null),
      { p with avail := len, pos := if len < p.pos then len else p.pos, length := len }) := by
  unfold Storage.reAlloc
  rw [if_neg (not_lt.2 hlen), if_pos hlt, if_pos h32]

theorem reAlloc_large (hlen : 0 ≤ p.length) {len : ℤ} (malloc : Bool) (hlt : p.avail < len)
    (h32 : 32 < len) (hpos : p.pos ≤ len) : p.reAlloc len malloc = if malloc then
      let q := (p.touch 0 p.length).ownBinders
      (true, ⟨.outside len, true, len, len, q.base, q.pos, q.binders, q.ownsBinders,
        q.ranges ++ [⟨len, 0, p.length⟩]⟩) else (false, p) := by
  unfold Storage.reAlloc
  rw [if_neg (not_lt.2 hlen), if_pos hlt, if_neg (not_le.2 h32)]
  cases malloc with
  | false => rfl
  | true =>
    have hq : ¬ len < (p.touch 0 p.length).ownBinders.pos := by
      unfold Storage.ownBinders
      split <;> exact not_lt.2 hpos
    dsimp only [touch] at hq ⊢
    rw [if_pos rfl, if_pos rfl, if_neg hq]
    rfl

/-- **A block that can be made larger** is, or `malloc` fails. -/
theorem Kept.reAlloc (h : p.Kept) {len : ℤ} {malloc : Bool} (hlen : 0 ≤ p.length)
    (hlt : p.avail < len) (hmax : len < 2 ^ 31) (hin : len ≤ 32 → p.data = .inline) :
    ((p.reAlloc len malloc).1 = false ∧ (p.reAlloc len malloc).2 = p) ∨
      ((p.reAlloc len malloc).1 = true ∧ (p.reAlloc len malloc).2.Kept ∧
        (p.reAlloc len malloc).2.avail = len ∧ (p.reAlloc len malloc).2.length = len ∧
        (p.reAlloc len malloc).2.pos = p.pos ∧
        ((p.reAlloc len malloc).2.data = .inline ∨ 32 < len)) := by
  have hb := h.sound.bounded hlen
  have hpos : p.pos ≤ len := (hb.pos_le.trans hb.length_le).trans (le_of_lt hlt)
  by_cases h32 : len ≤ 32
  · have hdata := hin h32
    rw [reAlloc_small hlen malloc hlt h32, if_neg (not_lt.2 hpos)]
    refine .inr ⟨by simp [hdata], ?_, rfl, rfl, rfl, .inl hdata⟩
    refine h.block hb.pos hpos (le_refl _) ?_ (.inr (le_refl _)) (fun n hn => ?_)
    · rw [hdata]
      exact h32
    · rw [hdata] at hn
      cases hn
  · rw [reAlloc_large hlen malloc hlt (not_le.1 h32) hpos]
    cases malloc with
    | false => exact .inl ⟨rfl, rfl⟩
    | true =>
      have hsize : p.data.size ≤ len := by
        cases hd : p.data with
        | null => exact (show (0 : ℤ) ≤ len by omega)
        | inline => exact (show (32 : ℤ) ≤ len by omega)
        | outside n =>
          have := (h.outside n hd).1
          exact (show n ≤ len by omega)
      -- the old bytes are copied, and the objects acquired if they were not
      have h1 : (p.touch 0 p.length).Kept :=
        h.touch fun _ => ⟨le_refl _, by rw [zero_add]; exact hb.length_le.trans hb.avail_le⟩
      obtain ⟨h2, hd, hpos', -, -⟩ := h1.ownBinders
      generalize (p.touch 0 p.length).ownBinders = q at h2 hd hpos' ⊢
      refine .inr ⟨rfl, ?_, rfl, rfl, hpos', .inr (not_le.1 h32)⟩
      have h3 : Kept ⟨.outside len, true, len, len, q.base, q.pos, q.binders, q.ownsBinders,
          q.ranges⟩ := by
        refine h2.block ?_ ?_ (le_refl _) (le_refl _) (.inr ?_) (fun n hn => ?_)
        · rw [hpos']
          exact hb.pos
        · rw [hpos']
          exact hpos
        · rw [hd]
          exact hsize
        · cases hn
          exact ⟨rfl, hmax⟩
      exact h3.touch fun _ => ⟨le_refl _, by
        rw [zero_add]
        exact hb.length_le.trans (le_of_lt hlt)⟩

/-! ### The calls keep a parcel sound -/

theorem Kept.finishWrite (h : p.Kept) {amt : ℤ} (hlen : 0 ≤ p.length) (h0 : 0 ≤ amt)
    (hle : p.pos + amt ≤ p.avail) : (p.finishWrite amt).2.Kept := by
  have hb := h.sound.bounded hlen
  have hsize := h.size_lt
  have hpos := hb.pos
  have havail := hb.avail_le
  have heq : ssize (p.pos + amt) = p.pos + amt := ssize_of_lt (by omega) (by omega)
  unfold Storage.finishWrite
  rw [heq]
  refine h.move (by omega) ?_ ?_
  · split <;> omega
  · have := hb.length_le
    split <;> omega

theorem Kept.pos_nonneg (h : p.Kept) : 0 ≤ p.pos := h.sound.pos_nonneg

section

variable {amount : ℤ} (h : p.Kept) (h0 : 0 ≤ amount) (hle : p.pos + amount ≤ p.avail)
include h h0 hle

theorem Kept.bounded_of_within : p.Bounded := by
  refine h.sound.bounded ?_
  by_contra hneg
  have hf := h.sound.failed (not_le.1 hneg)
  have havail := hf.avail
  have hpos := h.pos_nonneg
  rw [noMemory_eq] at havail
  omega

theorem Kept.writeThere : ((p.touch p.pos amount).finishWrite amount).2.Kept := by
  have hb := h.bounded_of_within h0 hle
  have hpos := hb.pos
  have havail := hb.avail_le
  exact (h.touch fun _ => ⟨hpos, by omega⟩).finishWrite (hpos.trans hb.pos_le) h0 hle

end

/-- **What fits in a larger block** is written there, with the length as it was. -/
theorem Kept.finishGrown (hk : q.Kept) (hb : p.Bounded) (hpos : q.pos = p.pos) {amount : ℤ}
    (hle : p.pos + amount ≤ q.avail) (h0 : 0 ≤ amount) (hlen : p.length ≤ q.avail) :
    (({ q with length := p.length }.touch q.pos amount).finishWrite amount).2.Kept := by
  have hmove : Kept { q with length := p.length } := by
    refine hk.move hk.pos_nonneg ?_ hlen
    rw [hpos]
    exact hb.pos_le
  exact hmove.writeThere h0 (by show q.pos + amount ≤ q.avail; omega)

theorem Kept.toEnd (h : p.Kept) (hold : p.pos < p.length) :
    Kept { p.touch p.pos (p.length - p.pos) with pos := p.length } := by
  have hpos := h.pos_nonneg
  have hb := h.sound.bounded (hpos.trans hold.le)
  have hav := hb.length_le
  have hsize := hb.avail_le
  exact (h.touch fun _ => ⟨hpos, by omega⟩).move (by omega) (le_refl _) hav

theorem Bounded.no_wrap (hb : p.Bounded) (hsize : p.data.size < 2 ^ 31) {amount limit : ℤ}
    (h0 : 0 ≤ amount) (h32 : amount < 2 ^ 32) (hlim : p.pos ≤ limit)
    (hlt : limit < ssize (p.pos + amount)) :
    p.pos + amount < 2 ^ 31 ∧ ssize (p.pos + amount) = p.pos + amount := by
  have hpos := hb.pos
  rw [ssize_eq] at hlt ⊢
  omega

/-- **The rest is written**: in the block as it was, or in a larger one, which it is if all was. -/
theorem Kept.writeRest (h : p.Kept) {total amount : ℤ} {malloc : Bool} (heq : p.pos = p.length)
    (hlen : 0 ≤ p.length) (h0 : 0 ≤ amount) (hlt : p.pos + amount < 2 ^ 31)
    (hav : p.avail < p.pos + amount) (hroom : p.Room (p.pos + amount)) :
    (p.writeRest total amount malloc).2.Kept ∧ (0 ≤ total → total + amount < 2 ^ 31 →
      (p.writeRest total amount malloc).1 = total + amount →
        (p.writeRest total amount malloc).2.pos = p.pos + amount ∧
        0 ≤ (p.writeRest total amount malloc).2.length ∧
        ((p.writeRest total amount malloc).2.data = .inline ∨
          32 < (p.writeRest total amount malloc).2.avail)) := by
  have hb := h.sound.bounded hlen
  have hle := hb.length_le
  have hneed : ssize (amount + p.pos) = p.pos + amount := by
    rw [add_comm]
    exact ssize_of_lt (by omega) hlt
  have hgrown := p.grown_ge (p.pos + amount)
  have hre := @Kept.reAlloc p h _ malloc hlen (lt_of_lt_of_le hav hgrown) (p.grown_lt hlt)
    (hroom hav hlen)
  unfold Storage.writeRest
  rw [hneed]
  dsimp only
  rw [if_pos hav]
  rcases hre with ⟨hr1, hr2⟩ | ⟨hr1, hk, hr3, hr4, hr5, hr6⟩
  · -- less was written
    have hrest : size (p.avail - p.pos) = p.avail - p.pos := size_of_lt (by omega) (by omega)
    simp only [hr1, hr2, hrest, Bool.not_false, Bool.true_and, Bool.false_eq_true, if_false]
    by_cases hzero : p.avail - p.pos = 0
    · rw [if_pos (by simpa using hzero)]
      refine ⟨h, fun ht hsum hres => ?_⟩
      have hno : noMemory < 0 := by decide
      omega
    · rw [if_neg (by simpa using hzero)]
      refine ⟨h.writeThere (by omega) (by omega), fun ht hsum hres => ?_⟩
      rw [size_of_lt (by omega) (by omega), if_pos (by omega),
        ssize_of_lt (by omega) (by omega)] at hres
      omega
  · have hin := hk.sound.avail_le
    simp only [hr1, Bool.not_true, Bool.false_and, Bool.false_eq_true, if_false, if_true]
    refine ⟨hk.finishGrown hb hr5 (by omega) h0 (by omega), fun ht hsum hres => ⟨?_, ?_, ?_⟩⟩
    · rw [finishWrite_pos, touch_pos]
      rw [hr5]
      exact ssize_of_lt (by omega) (by omega)
    · refine le_trans ?_ (le_finishWrite_length _ _)
      exact hlen
    · rw [finishWrite_data, finishWrite_avail, touch_data, touch_avail]
      rw [hr3]
      exact hr6.imp id fun h32 => h32

theorem Kept.write (h : p.Kept) {amount : ℤ} {malloc : Bool} (h0 : 0 ≤ amount)
    (h32 : amount < 2 ^ 32) (hin : p.Within amount p.avail) (hroom : p.Room (ssize (p.pos + amount))) :
    (p.write amount malloc).2.Kept := by
  unfold Storage.write
  by_cases hfit : ssize (p.pos + amount) ≤ p.avail
  · have hle := hin hfit
    have hsize := h.size_lt
    have hpos := h.pos_nonneg
    have havail := h.sound.avail_le
    rw [if_pos hfit, ssize_of_lt (show -2 ^ 31 ≤ amount by omega) (by omega)]
    exact h.writeThere h0 hle
  · rw [if_neg hfit]
    by_cases hlen : p.length < 0
    · have hf := h.sound.failed hlen
      rw [if_neg (by rw [hf.pos]; exact not_lt.2 (le_of_lt hlen)), if_pos hlen]
      exact h
    · have hb := h.sound.bounded (not_lt.1 hlen)
      have hle := hb.pos_le
      have hlav := hb.length_le
      obtain ⟨hnw, hsum⟩ := hb.no_wrap h.size_lt h0 h32 (hle.trans hlav) (not_le.1 hfit)
      rw [hsum] at hfit hroom
      by_cases hold : p.pos < p.length
      · rw [if_pos hold]
        have hrest : size (amount - (p.length - p.pos)) = amount - (p.length - p.pos) :=
          size_of_lt (by omega) (by omega)
        dsimp only
        rw [hrest]
        have hend : p.length + (amount - (p.length - p.pos)) = p.pos + amount := by omega
        refine ((h.toEnd hold).writeRest rfl (not_lt.1 hlen) (by omega) ?_ ?_ ?_).1
        · show p.length + _ < _
          rw [hend]
          exact hnw
        · show p.avail < p.length + _
          rw [hend]
          exact not_le.1 hfit
        · show Room _ (p.length + _)
          rw [hend]
          exact hroom
      · rw [if_neg hold, if_neg hlen]
        exact (h.writeRest (le_antisymm hle (not_lt.1 hold)) (not_lt.1 hlen) h0 hnw
          (not_le.1 hfit) hroom).1

theorem Kept.write_spec (h : p.Kept) {amount : ℤ} {malloc : Bool} (hlen : 0 ≤ p.length)
    (h0 : 0 ≤ amount) (hnw : p.pos + amount < 2 ^ 31) (hroom : p.Room (p.pos + amount))
    (hres : (p.write amount malloc).1 = amount) :
    (p.write amount malloc).2.pos = p.pos + amount ∧ 0 ≤ (p.write amount malloc).2.length ∧
      ((p.pos + amount ≤ p.avail ∧ (p.write amount malloc).2.avail = p.avail ∧
        (p.write amount malloc).2.data = p.data) ∨
        (p.write amount malloc).2.data = .inline ∨ 32 < (p.write amount malloc).2.avail) := by
  have hb := h.sound.bounded hlen
  have hpos := hb.pos
  have hle := hb.pos_le
  have hlav := hb.length_le
  have hsum : ssize (p.pos + amount) = p.pos + amount := ssize_of_lt (by omega) hnw
  have ham : ssize amount = amount := ssize_of_lt (by omega) (by omega)
  unfold Storage.write at hres ⊢
  rw [hsum] at hres ⊢
  by_cases hfit : p.pos + amount ≤ p.avail
  · rw [if_pos hfit, ham]
    refine ⟨hsum, ?_, .inl ⟨hfit, rfl, rfl⟩⟩
    refine le_trans ?_ (le_finishWrite_length _ _)
    exact hlen
  · rw [if_neg hfit] at hres ⊢
    by_cases hold : p.pos < p.length
    · rw [if_pos hold] at hres ⊢
      have hrest : size (amount - (p.length - p.pos)) = amount - (p.length - p.pos) :=
        size_of_lt (by omega) (by omega)
      dsimp only at hres ⊢
      rw [hrest] at hres ⊢
      have h2 := h.toEnd hold
      have hend : p.length + (amount - (p.length - p.pos)) = p.pos + amount := by omega
      generalize hq : { p.touch p.pos (p.length - p.pos) with pos := p.length } = q at *
      have hqpos : q.pos = p.length := by rw [← hq]
      have hqlen : q.length = p.length := by rw [← hq]; rfl
      have hqav : q.avail = p.avail := by rw [← hq]; rfl
      have hqroom : q.Room (p.pos + amount) := by rw [← hq]; exact hroom
      have hspec := (@Kept.writeRest q h2 (p.length - p.pos) (amount - (p.length - p.pos)) malloc
        (by omega) (by omega) (by omega) (by omega) (by omega)
        (by rw [hqpos, hend]; exact hqroom)).2 (by omega) (by omega) (by rw [hres]; omega)
      refine ⟨?_, hspec.2.1, .inr hspec.2.2⟩
      rw [hspec.1]
      omega
    · rw [if_neg hold, if_neg (not_lt.2 hlen)] at hres ⊢
      have hspec := (@Kept.writeRest p h 0 amount malloc (by omega) hlen h0 hnw (by omega) hroom).2
        (le_refl _) (by omega) (by rw [hres]; omega)
      exact ⟨hspec.1, hspec.2.1, .inr hspec.2.2⟩

theorem Kept.writeInPlace (h : p.Kept) {amount : ℤ} {malloc : Bool} (h0 : 0 ≤ amount)
    (h32 : amount < 2 ^ 32) (hin : p.Within amount p.avail) (hroom : p.Room (ssize (p.pos + amount))) :
    (p.writeInPlace amount malloc).2.Kept := by
  unfold Storage.writeInPlace
  by_cases hfit : ssize (p.pos + amount) ≤ p.avail
  · have hle := hin hfit
    have hsize := h.size_lt
    have hpos := h.pos_nonneg
    have havail := h.sound.avail_le
    rw [if_neg (not_lt.2 hfit)]
    simp only [if_true, if_neg (not_lt.2 hfit)]
    rw [ssize_of_lt (show -2 ^ 31 ≤ amount by omega) (by omega)]
    exact h.writeThere h0 hle
  · have hfit' := not_le.1 hfit
    rw [if_pos hfit']
    simp only [if_pos hfit']
    by_cases hlen : p.length < 0
    · have hre : p.reAlloc (p.grown (ssize (p.pos + amount))) malloc = (false, p) := by
        unfold Storage.reAlloc
        rw [if_pos hlen]
      rw [hre]
      simpa using h
    · have hb := h.sound.bounded (not_lt.1 hlen)
      have hpos := hb.pos
      have hle := hb.pos_le
      obtain ⟨hnw, hsum⟩ := hb.no_wrap h.size_lt h0 h32 (hle.trans hb.length_le) hfit'
      rw [hsum] at hfit' hroom ⊢
      have hgrown := p.grown_ge (p.pos + amount)
      rcases @Kept.reAlloc p h _ malloc (not_lt.1 hlen) (lt_of_lt_of_le hfit' hgrown) (p.grown_lt hnw)
        (hroom hfit' (not_lt.1 hlen)) with ⟨hr1, hr2⟩ | ⟨hr1, hk, hr3, hr4, hr5, -⟩
      · simp only [hr1, hr2, Bool.false_eq_true, if_false]
        exact h
      · have hlav := hb.length_le
        simp only [hr1, if_true]
        rw [ssize_of_lt (show -2 ^ 31 ≤ amount by omega) (by omega)]
        exact hk.finishGrown hb hr5 (by omega) h0 (by omega)

theorem le_valueDataAlign {n : ℕ} (hn : n < 2 ^ 32) (hle : p.pos ≤ p.avail)
    (hfit : p.avail < ssize (p.pos + (valueDataAlign n : ℤ)))
    (hsum : ssize (p.pos + (valueDataAlign n : ℤ)) = p.pos + valueDataAlign n) :
    n ≤ valueDataAlign n := by
  by_contra hlt
  have hzero : valueDataAlign n = 0 := by unfold valueDataAlign at *; omega
  rw [hsum, hzero] at hfit
  omega

theorem valueDataAlign_eq {n : ℕ} (h : roundUp8 n < 2 ^ 32) (hn : n < 2 ^ 32) :
    valueDataAlign n = roundUp8 n := by
  unfold valueDataAlign roundUp8 at *
  omega

theorem Kept.writePadded (h : p.Kept) {amount : BitVec 32} {malloc malloc' : Bool}
    (hfits : p.Fits (.writePadded amount malloc malloc')) :
    (p.writePadded amount malloc malloc').2.Kept := by
  obtain ⟨hfast, hslow⟩ := hfits
  have h32 := amount.isLt
  have hsize := h.size_lt
  have hpos := h.pos_nonneg
  have havail := h.sound.avail_le
  unfold Storage.writePadded
  dsimp only
  by_cases hfit : ssize (p.pos + (valueDataAlign amount.toNat : ℤ)) ≤ p.avail
  · have hle := hfast hfit
    have heq : valueDataAlign amount.toNat = roundUp8 amount.toNat :=
      valueDataAlign_eq (by omega) h32
    have hround : (amount.toNat : ℤ) ≤ roundUp8 amount.toNat := by unfold roundUp8; omega
    rw [if_pos hfit, heq]
    have hb := h.bounded_of_within (natCast_nonneg (roundUp8 amount.toNat)) hle
    have hlen : 0 ≤ p.length := hpos.trans hb.pos_le
    have h1 : (p.touch p.pos amount.toNat).Kept := h.touch fun _ => ⟨hpos, by omega⟩
    rw [ssize_of_lt (show -2 ^ 31 ≤ (roundUp8 amount.toNat : ℤ) by omega) (by omega)]
    by_cases hpad : (roundUp8 amount.toNat : ℤ) ≠ amount.toNat
    · rw [if_pos hpad]
      refine (h1.touch fun _ => ?_).finishWrite hlen (by omega) hle
      have : 8 ≤ roundUp8 amount.toNat := by unfold roundUp8 at *; omega
      simp only [touch_pos, touch_data]
      omega
    · rw [if_neg hpad]
      exact h1.finishWrite hlen (by omega) hle
  · obtain ⟨hin, hroom⟩ := hslow (not_le.1 hfit)
    rw [if_neg hfit]
    by_cases hlen : p.length < 0
    · -- the error of the parcel is not the number of bytes
      have hf := h.sound.failed hlen
      have hno : ¬ ssize (p.pos + (amount.toNat : ℤ)) ≤ p.avail := by
        intro hle
        have := hin hle
        have := hf.avail
        rw [noMemory_eq] at this
        omega
      have hwrite : p.write amount.toNat malloc = (p.length, p) := by
        unfold Storage.write
        rw [if_neg hno, if_neg (by rw [hf.pos]; exact not_lt.2 (le_of_lt hlen)), if_pos hlen]
      have hne : p.length ≠ amount.toInt := by
        intro heq
        refine hno ?_
        rw [hf.pos, zero_add, hf.avail, ← hf.length, heq, BitVec.toInt_eq_toNat_bmod]
        exact le_refl _
      rw [hwrite]
      simp only [if_neg hne]
      exact h
    · have hb := h.sound.bounded (not_lt.1 hlen)
      have hle := hb.pos_le
      have hlav := hb.length_le
      have hp32 : (valueDataAlign amount.toNat : ℤ) < 2 ^ 32 := by unfold valueDataAlign; omega
      obtain ⟨hnw, hsum⟩ := hb.no_wrap hsize (natCast_nonneg _) hp32 (hle.trans hlav) (not_le.1 hfit)
      have hge := le_valueDataAlign h32 (hle.trans hlav) (not_le.1 hfit) hsum
      have hroom1 : p.Room (p.pos + amount.toNat) := by
        intro hav
        rw [if_neg (not_le.2 hav)] at hroom
        exact hroom hav
      have hs1 : ssize (p.pos + (amount.toNat : ℤ)) = p.pos + amount.toNat :=
        ssize_of_lt (by omega) (by omega)
      have hk := @Kept.write p h _ malloc (natCast_nonneg amount.toNat) (by omega) hin
        (by rw [hs1]; exact hroom1)
      have hint : amount.toInt = amount.toNat := by
        rw [BitVec.toInt_eq_toNat_cond, if_pos (by omega)]
      rw [hint]
      by_cases hres : (p.write amount.toNat malloc).1 = amount.toNat
      · simp only [if_pos hres]
        by_cases hpad : (valueDataAlign amount.toNat : ℤ) ≠ amount.toNat
        · rw [if_pos hpad]
          obtain ⟨hq1, hq2, hq3⟩ := h.write_spec (not_lt.1 hlen) (natCast_nonneg _) (by omega) hroom1 hres
          have hrest : size ((valueDataAlign amount.toNat : ℤ) - amount.toNat) =
              valueDataAlign amount.toNat - amount.toNat := size_of_lt (by omega) (by omega)
          have hend : (p.write amount.toNat malloc).2.pos +
              ((valueDataAlign amount.toNat : ℤ) - amount.toNat) = p.pos + valueDataAlign amount.toNat := by
            rw [hq1]
            omega
          rw [hrest]
          refine hk.write (by omega) (by omega) ?_ ?_
          · intro hle
            rw [hend] at hle ⊢
            rw [hsum] at hle
            exact hle
          · rw [hend, hsum]
            intro hav _ hg
            rcases hq3 with ⟨hin1, hav1, hd1⟩ | hd1 | h321
            · rw [if_pos hin1] at hroom
              rw [hd1]
              rw [hav1] at hav
              refine hroom hav (not_lt.1 hlen) ?_
              have : (p.write amount.toNat malloc).2.grown (p.pos + valueDataAlign amount.toNat) =
                  p.grown (p.pos + valueDataAlign amount.toNat) := by
                unfold Storage.grown
                rw [hav1]
              rw [← this]
              exact hg
            · exact hd1
            · have := (p.write amount.toNat malloc).2.grown_ge (p.pos + valueDataAlign amount.toNat)
              omega
        · rw [if_neg hpad]
          exact hk
      · simp only [if_neg hres]
        exact hk

theorem Kept.writeBinder (h : p.Kept) {binder : BitVec 32} {malloc added : Bool}
    (hin : p.Within 16 p.avail) (hroom : p.Room (ssize (p.pos + 16))) :
    (p.writeBinder binder malloc added).2.Kept := by
  have hpos := h.pos_nonneg
  -- the parcel with room for the object, if there is one
  have hroomy : ∀ found q, (if ssize (p.pos + 16) > p.avail then
      p.reAlloc (p.grown (ssize (p.pos + 16))) malloc else (true, p)) = (found, q) →
      q.Kept ∧ (found = true → 0 ≤ q.length ∧ q.pos + 16 ≤ q.avail) := by
    intro found q hq
    by_cases hfit : ssize (p.pos + 16) ≤ p.avail
    · rw [if_neg (not_lt.2 hfit)] at hq
      cases hq
      have hle := hin hfit
      have hb := h.bounded_of_within (by decide) hle
      exact ⟨h, fun _ => ⟨hb.pos.trans hb.pos_le, hle⟩⟩
    · rw [if_pos (not_le.1 hfit)] at hq
      by_cases hlen : p.length < 0
      · unfold Storage.reAlloc at hq
        rw [if_pos hlen] at hq
        cases hq
        exact ⟨h, fun hf => (by cases hf)⟩
      · have hb := h.sound.bounded (not_lt.1 hlen)
        obtain ⟨hnw, hsum⟩ := hb.no_wrap h.size_lt (by decide) (by decide)
          (hb.pos_le.trans hb.length_le) (not_le.1 hfit)
        rw [hsum] at hfit hroom hq
        have hgrown := p.grown_ge (p.pos + 16)
        rcases @Kept.reAlloc p h _ malloc (not_lt.1 hlen) (lt_of_lt_of_le (not_le.1 hfit) hgrown)
          (p.grown_lt hnw) (hroom (not_le.1 hfit) (not_lt.1 hlen)) with
          ⟨hr1, hr2⟩ | ⟨hr1, hk, hr3, hr4, hr5, -⟩
        · rw [hq] at hr1 hr2
          refine ⟨by rw [show q = p from hr2]; exact h, fun hf => ?_⟩
          rw [show found = false from hr1] at hf
          cases hf
        · rw [hq] at hk hr3 hr4 hr5
          dsimp only at hk hr3 hr4 hr5
          exact ⟨hk, fun _ => by omega⟩
  unfold Storage.writeBinder
  dsimp only
  generalize hq : (if ssize (p.pos + 16) > p.avail then
      p.reAlloc (p.grown (ssize (p.pos + 16))) malloc else (true, p)) = r
  obtain ⟨found, q⟩ := r
  obtain ⟨hk, hfound⟩ := hroomy found q hq
  cases found with
  | false => exact hk
  | true =>
    obtain ⟨hlen, hle⟩ := hfound rfl
    have hav := hk.sound.avail_le
    have hqpos := hk.pos_nonneg
    have h1 : (q.touch q.pos 16).Kept := hk.touch fun _ => ⟨hqpos, by omega⟩
    rw [if_pos rfl]
    by_cases hb : binder = 0
    · rw [if_pos hb]
      exact h1.finishWrite hlen (by decide) hle
    · rw [if_neg hb]
      generalize hq2 : (if (!(q.touch q.pos 16).ownsBinders && !(q.touch q.pos 16).binders.isEmpty) = true
        then (q.touch q.pos 16).binderRanges else q.touch q.pos 16) = q2
      have h2 : q2.Kept ∧ q2.pos = q.pos ∧ q2.length = q.length ∧ q2.avail = q.avail ∧ q2.data = q.data := by
        rw [← hq2]
        split
        · exact ⟨h1.binderRanges, rfl, rfl, rfl, rfl⟩
        · exact ⟨h1, rfl, rfl, rfl, rfl⟩
      obtain ⟨h2, hp2, hl2, ha2, hd2⟩ := h2
      have hb2 := hk.sound.bounded hlen
      have h3 : Kept { q2 with ownsBinders := true } :=
        h2.move (by rw [hp2]; exact hqpos) (by rw [hp2, hl2]; exact hb2.pos_le)
          (by rw [hl2, ha2]; exact hb2.length_le)
      cases added with
      | false => exact h3
      | true =>
        rw [if_pos rfl]
        refine (h3.addBinder ?_).finishWrite (by show 0 ≤ q2.length; rw [hl2]; exact hlen)
          (show (0 : ℤ) ≤ 16 by decide) (by show q2.pos + 16 ≤ q2.avail; rw [hp2, ha2]; exact hle)
        show 0 ≤ q2.pos ∧ q2.pos + 16 ≤ q2.data.size
        rw [hp2, hd2]
        exact ⟨hqpos, by omega⟩

theorem Kept.reAlloc_call (h : p.Kept) {len : BitVec 32} {malloc : Bool}
    (hfits : p.Fits (.reAlloc len malloc)) : (p.reAlloc len.toInt malloc).2.Kept := by
  by_cases hlen : p.length < 0
  · unfold Storage.reAlloc
    rw [if_pos hlen]
    exact h
  · obtain ⟨h0, hin⟩ := hfits (not_lt.1 hlen)
    have hb := h.sound.bounded (not_lt.1 hlen)
    by_cases hlt : p.avail < len.toInt
    · have hmax := len.toInt_lt
      rcases @Kept.reAlloc p h _ malloc (not_lt.1 hlen) hlt (by omega) (hin hlt) with
        ⟨-, hr⟩ | ⟨-, hk, -⟩
      · rw [hr]
        exact h
      · exact hk
    · unfold Storage.reAlloc
      rw [if_neg hlen, if_neg hlt]
      by_cases hshrink : len.toInt < p.avail
      · rw [if_pos hshrink]
        have := hb.pos
        refine h.move ?_ ?_ (le_of_lt hshrink)
        · split <;> omega
        · split <;> omega
      · rw [if_neg hshrink]
        exact h

theorem Kept.setLength (h : p.Kept) {len : BitVec 32} {malloc : Bool}
    (hfits : p.Fits (.setLength len malloc)) : (p.setLength len.toInt malloc).2.Kept := by
  have hpos := h.pos_nonneg
  unfold Storage.setLength
  dsimp only
  generalize hl : (if len.toInt < 0 then 0 else len.toInt) = l
  have hl0 : 0 ≤ l := by
    rw [← hl]
    split <;> omega
  by_cases hlt : p.avail < l
  · rw [if_pos hlt]
    by_cases hlen : p.length < 0
    · have hre : p.reAlloc l malloc = (false, p) := by
        unfold Storage.reAlloc
        rw [if_pos hlen]
      rw [hre]
      exact h
    · have hb := h.sound.bounded (not_lt.1 hlen)
      have hmax := len.toInt_lt
      have heq : l = len.toInt := by
        rw [← hl, if_neg]
        intro hneg
        rw [if_pos hneg] at hl
        have := hb.length_le
        omega
      rcases @Kept.reAlloc p h l malloc (not_lt.1 hlen) hlt (by omega)
        (fun h32 => hfits (heq ▸ hlt) (not_lt.1 hlen) (heq ▸ h32)) with
        ⟨hr1, hr2⟩ | ⟨hr1, hk, hr3, hr4, hr5, -⟩
      · simp only [hr1, hr2, Bool.false_eq_true, if_false]
        exact h
      · simp only [hr1, if_true]
        refine hk.move ?_ ?_ (le_of_eq hr3.symm)
        · split <;> omega
        · split <;> omega
  · rw [if_neg hlt]
    refine h.move ?_ ?_ (not_lt.1 hlt)
    · split <;> omega
    · split <;> omega

theorem Kept.renew (h : p.Kept) {data : Block} {free ownsBinders : Bool}
    {avail length pos base : ℤ} (hstate : Bounded ⟨data, free, length, avail, base, pos, [],
      ownsBinders, p.ranges⟩ ∨ Failed ⟨data, free, length, avail, base, pos, [], ownsBinders, p.ranges⟩)
    (ho : ∀ n, data = .outside n → avail = n ∧ n < 2 ^ 31) :
    Kept ⟨data, free, length, avail, base, pos, [], ownsBinders, p.ranges⟩ :=
  ⟨⟨hstate, h.sound.ranges, fun o hm => (by cases hm)⟩, ho⟩

theorem Kept.released (h : p.Kept) : (if p.ownsBinders then p.binderRanges else p).Kept := by
  split
  · exact h.binderRanges
  · exact h

theorem released_data (p : Storage) :
    (if p.ownsBinders then p.binderRanges else p).data = p.data := by split <;> rfl

theorem released_avail (p : Storage) :
    (if p.ownsBinders then p.binderRanges else p).avail = p.avail := by split <;> rfl

/-- **`Reserve`** gives a block without bytes, as large as it was asked for, or fails. -/
theorem Kept.reserve (h : p.Kept) {len : ℤ} {malloc : Bool} (hmax : len < 2 ^ 31)
    (hlen : p.data = .null → 0 ≤ len) :
    (p.reserve len malloc).2.Kept ∧
      (((p.reserve len malloc).1 = 0 ∧ len ≤ (p.reserve len malloc).2.avail ∧
        (p.reserve len malloc).2.length = 0 ∧ (p.reserve len malloc).2.pos = 0) ∨
        ((p.reserve len malloc).1 = noMemory ∧ (p.reserve len malloc).2.Failed)) := by
  have hrel := h.released
  unfold Storage.reserve
  by_cases hroom : p.data ≠ .null ∧ p.avail ≥ len
  · rw [if_pos hroom]
    have hb := h.sound.state.resolve_right fun hf => hroom.1 hf.data
    have h0 : 0 ≤ p.avail := (hb.pos.trans hb.pos_le).trans hb.length_le
    unfold Storage.reset
    dsimp only
    rw [released_data, released_avail]
    refine ⟨hrel.renew (.inl ⟨le_refl _, le_refl _, ?_, ?_⟩) (fun n hn => ?_), .inl ⟨rfl, ?_, rfl, rfl⟩⟩
    · dsimp only
      split <;> omega
    · dsimp only
      split
      · rename_i hd
        rw [hd]
        exact le_refl _
      · exact hb.avail_le
    · rw [if_neg (by rw [hn]; simp)]
      exact h.outside n hn
    · split
      · rename_i hd
        have := hb.avail_le
        rw [hd] at this
        exact hroom.2.trans this
      · exact hroom.2
  · rw [if_neg hroom]
    have h0 : 0 ≤ len := by
      by_cases hd : p.data = .null
      · exact hlen hd
      · have hb := h.sound.state.resolve_right fun hf => hd hf.data
        have hlt := not_le.1 fun hle => hroom ⟨hd, hle⟩
        exact le_of_lt (lt_of_le_of_lt ((hb.pos.trans hb.pos_le).trans hb.length_le) hlt)
    by_cases h32 : len ≤ 32
    · rw [if_pos h32]
      exact ⟨hrel.renew (.inl ⟨le_refl _, le_refl _, h0, h32⟩) (fun n hn => (by cases hn)),
        .inl ⟨rfl, le_refl _, rfl, rfl⟩⟩
    · rw [if_neg h32]
      cases malloc with
      | true =>
        refine ⟨hrel.renew (.inl ⟨le_refl _, le_refl _, h0, le_refl _⟩) (fun n hn => ?_),
          .inl ⟨rfl, le_refl _, rfl, rfl⟩⟩
        cases hn
        exact ⟨rfl, hmax⟩
      | false =>
        exact ⟨hrel.renew (.inr ⟨rfl, rfl, rfl, rfl⟩) (fun n hn => (by cases hn)),
          .inr ⟨rfl, rfl, rfl, rfl, rfl⟩⟩

theorem Kept.alloc (h : p.Kept) {len : ℤ} {malloc : Bool} (hmax : len < 2 ^ 31) (h0 : 0 ≤ len) :
    (p.alloc len malloc).2.Kept := by
  obtain ⟨hk, hcases⟩ := @Kept.reserve p h len malloc hmax fun _ => h0
  unfold Storage.alloc
  dsimp only
  rcases hcases with ⟨hr, hav, -, hpos⟩ | ⟨hr, hf⟩
  · rw [if_pos hr]
    exact hk.move (le_of_eq hpos.symm) (by rw [hpos]; exact h0) hav
  · rw [if_neg (by rw [hr]; decide)]
    refine ⟨⟨.inr ⟨hf.data, hr, hf.avail, hf.pos⟩, hk.sound.ranges, hk.sound.binders⟩, hk.outside⟩

theorem Kept.setPosition (h : p.Kept) {pos : ℤ} (hq : p.setPosition pos = some q) : q.Kept := by
  unfold Storage.setPosition at hq
  split at hq
  · cases hq
  · rename_i hin
    cases hq
    push Not at hin
    have hb := h.sound.bounded (by omega)
    have hsize := h.size_lt
    have := hb.length_le
    have := hb.avail_le
    rw [ssize_of_lt (by omega) (by omega)]
    exact h.move (by omega) (by omega) hb.length_le

theorem Kept.readRest (h : p.Kept) {total amount : ℤ} (hlen : 0 ≤ p.length) (h0 : 0 < amount)
    (hlt : amount < 2 ^ 31) : (p.readRest total amount).2.Kept := by
  have ham : ssize amount = amount := ssize_of_lt (by omega) hlt
  have hb := h.sound.bounded hlen
  unfold Storage.readRest
  rw [ham]
  by_cases hlarge : amount ≥ p.avail
  · rw [if_pos hlarge]
    exact h
  · rw [if_neg hlarge]
    rw [if_pos h0]
    have h1 : Kept { p with length := 0, base := p.base + p.pos, pos := 0 } :=
      h.move (le_refl _) (le_refl _) ((hlen.trans hb.length_le))
    exact (h1.touch (fun hlt => absurd hlt (lt_irrefl _))).move (le_refl _) (le_refl _)
      (hlen.trans hb.length_le)

section

variable {amount : ℤ} (h : p.Kept) (h0 : 0 ≤ amount) (hle : p.pos + amount ≤ p.length)
include h h0 hle

theorem Kept.bounded_of_within_length : p.Bounded :=
  h.sound.bounded ((by have := h.pos_nonneg; omega : 0 ≤ p.pos + amount).trans hle)

theorem Kept.readThere : Kept { p.touch p.pos amount with pos := ssize (p.pos + amount) } := by
  have hpos := h.pos_nonneg
  have hsize := h.size_lt
  have hb := h.bounded_of_within_length h0 hle
  have hav := hb.avail_le
  have hlav := hb.length_le
  rw [ssize_of_lt (by omega) (by omega)]
  exact (h.touch fun _ => ⟨hpos, by omega⟩).move (by omega) hle hlav

end

theorem Kept.read (h : p.Kept) {amount : ℤ} (h0 : 0 ≤ amount) (h32 : amount < 2 ^ 32)
    (hin : p.Within amount p.length) : (p.read amount).2.Kept := by
  have hpos := h.pos_nonneg
  have hsize := h.size_lt
  unfold Storage.read
  by_cases hfit : ssize (p.pos + amount) ≤ p.length
  · rw [if_pos hfit]
    exact h.readThere h0 (hin hfit)
  · rw [if_neg hfit]
    by_cases hlen : p.length < 0
    · rw [if_neg (by omega), if_pos hlen]
      exact h
    · have hb := h.sound.bounded (not_lt.1 hlen)
      have hle := hb.pos_le
      obtain ⟨hnw, hsum⟩ := hb.no_wrap hsize h0 h32 hle (not_le.1 hfit)
      by_cases hold : p.pos < p.length
      · rw [if_pos hold]
        dsimp only
        rw [size_of_lt (n := amount - (p.length - p.pos)) (by omega) (by omega)]
        exact (h.toEnd hold).readRest (not_lt.1 hlen) (by omega) (by omega)
      · rw [if_neg hold, if_neg hlen]
        exact h.readRest (not_lt.1 hlen) (by omega) (by omega)

theorem Kept.readInPlace (h : p.Kept) {amount : ℤ} (h0 : 0 ≤ amount)
    (hin : p.Within amount p.length) : (p.readInPlace amount).2.Kept := by
  unfold Storage.readInPlace
  by_cases hfit : ssize (p.pos + amount) ≤ p.length
  · rw [if_pos hfit]
    exact h.readThere h0 (hin hfit)
  · rw [if_neg hfit]
    exact h

theorem Kept.drain (h : p.Kept) {amount : ℤ} (h0 : 0 ≤ amount) (h32 : amount < 2 ^ 32)
    (hin : ssize (p.pos + amount) ≤ p.length → 0 ≤ ssize (p.pos + amount)) :
    (p.drain amount).2.Kept := by
  have hsize := h.size_lt
  unfold Storage.drain
  by_cases hfit : ssize (p.pos + amount) ≤ p.length
  · have hle := hin hfit
    rw [if_pos hfit]
    exact h.move hle hfit (h.sound.bounded (hle.trans hfit)).length_le
  · rw [if_neg hfit]
    by_cases hlen : p.length < 0
    · rw [if_pos hlen]
      exact h
    · have hb := h.sound.bounded (not_lt.1 hlen)
      have hlav := hb.length_le
      have hpos := hb.pos
      obtain ⟨hnw, hsum⟩ := hb.no_wrap hsize h0 h32 hb.pos_le (not_le.1 hfit)
      rw [if_neg hlen]
      rw [ssize_of_lt (n := amount) (by omega) (by omega), if_pos (by omega)]
      exact h.move (le_refl _) (le_refl _) ((not_lt.1 hlen).trans hlav)

/-! ### And back -/

theorem reAlloc_ranges (p : Storage) (len : ℤ) (malloc : Bool) :
    ∀ r ∈ p.ranges, r ∈ (p.reAlloc len malloc).2.ranges := by
  intro r hr
  have hown : r ∈ (p.touch 0 p.length).ownBinders.ranges := by
    unfold Storage.ownBinders
    split
    · exact mem_append_left _ (mem_append_left _ hr)
    · exact mem_append_left _ hr
  unfold Storage.reAlloc
  split
  · exact hr
  split
  · split
    · exact hr
    split
    · exact mem_append_left _ hown
    · exact hr
  split <;> exact hr

theorem writeRest_ranges (p : Storage) (total amount : ℤ) (malloc : Bool) :
    ∀ r ∈ p.ranges, r ∈ (p.writeRest total amount malloc).2.ranges := by
  intro r hr
  have hre : r ∈ (if ssize (amount + p.pos) > p.avail then
      p.reAlloc (p.grown (ssize (amount + p.pos))) malloc else (true, p)).2.ranges := by
    split
    · exact reAlloc_ranges p _ malloc r hr
    · exact hr
  unfold Storage.writeRest
  dsimp only
  generalize (if ssize (amount + p.pos) > p.avail then
      p.reAlloc (p.grown (ssize (amount + p.pos))) malloc else (true, p)) = a at hre ⊢
  obtain ⟨found, q⟩ := a
  generalize (if found = true then amount else size (q.avail - q.pos)) = a
  split
  · exact hre
  · exact mem_append_left _ hre

theorem write_ranges (p : Storage) (amount : ℤ) (malloc : Bool) :
    ∀ r ∈ p.ranges, r ∈ (p.write amount malloc).2.ranges := by
  intro r hr
  unfold Storage.write
  split
  · exact mem_append_left _ hr
  split
  · refine writeRest_ranges _ _ _ _ r ?_
    exact mem_append_left _ hr
  split
  · exact hr
  · exact writeRest_ranges _ _ _ _ r hr

section

variable (h : p.Kept)
include h

theorem Kept.within_of_touch {amount : ℤ} (limit : ℤ) (h0 : 0 ≤ amount)
    (hr : (Range.mk p.data.size p.pos amount).Inside) : p.Within amount limit := by
  have hsize := h.size_lt
  have hpos := h.pos_nonneg
  have hlt : p.pos + amount < 2 ^ 31 := by
    by_cases hzero : 0 < amount
    · exact lt_of_le_of_lt (hr hzero).2 hsize
    · rcases h.sound.state with hb | hf
      · have := hb.pos_le
        have := hb.length_le
        have := hb.avail_le
        omega
      · have := hf.pos
        omega
  intro hle
  rw [ssize_of_lt (by omega) hlt] at hle
  exact hle

theorem Kept.size_lt_of (hlen : 0 ≤ p.length) (hd : p.data ≠ .inline) {len : ℤ}
    (hlt : p.avail < len) : p.data.size < len := by
  have hb := h.sound.bounded hlen
  have hav := (hb.pos.trans hb.pos_le).trans hb.length_le
  cases hdata : p.data with
  | null => exact lt_of_le_of_lt hav hlt
  | inline => exact absurd hdata hd
  | outside n =>
    rw [(h.outside n hdata).1] at hlt
    exact hlt

theorem Kept.writeRest_room {total amount : ℤ} {malloc : Bool} (hlen : 0 ≤ p.length)
    (h0 : 0 ≤ amount) (hlt : p.pos + amount < 2 ^ 31)
    (hr : ∀ r ∈ (p.writeRest total amount malloc).2.ranges, r.Inside) :
    p.Room (p.pos + amount) := by
  intro hav _ h32
  by_contra hd
  have hb := h.sound.bounded hlen
  have hpos := hb.pos
  have hle := hb.pos_le
  have hlav := hb.length_le
  have hneed : ssize (amount + p.pos) = p.pos + amount := by
    rw [add_comm]
    exact ssize_of_lt (by omega) hlt
  have hgrown := p.grown_ge (p.pos + amount)
  have hsmall := reAlloc_small hlen malloc (lt_of_lt_of_le hav hgrown) h32
  rw [if_neg (by omega)] at hsmall
  unfold Storage.writeRest at hr
  rw [hneed] at hr
  dsimp only at hr
  rw [if_pos hav, hsmall] at hr
  have hsize := h.size_lt_of hlen hd hav
  cases hdata : p.data with
  | inline => exact hd hdata
  | null =>
    have havail := hb.avail_le
    rw [hdata] at havail hr
    have hrest : size (p.grown (p.pos + amount) - p.pos) = p.grown (p.pos + amount) - p.pos :=
      size_of_lt (by omega) (by omega)
    simp only [ne_eq, not_true_eq_false, decide_false, Bool.not_false, Bool.true_and,
      Bool.false_eq_true, if_false, hrest] at hr
    rw [if_neg (by simp; omega)] at hr
    have := hr _ (mem_append_right _ (mem_singleton_self _)) (by show 0 < _ - _; omega)
    have h2 : p.pos + (p.grown (p.pos + amount) - p.pos) ≤ 0 := this.2
    omega
  | outside n =>
    rw [hdata] at hr hsize
    simp only [ne_eq, reduceCtorEq, not_false_eq_true, decide_true, Bool.not_true, Bool.false_and,
      Bool.false_eq_true, if_false, if_true] at hr
    have := hr _ (mem_append_right _ (mem_singleton_self _)) (by show 0 < amount; omega)
    have h2 : p.pos + amount ≤ n := this.2
    have h3 : n < p.pos + amount := hsize
    omega

theorem Kept.write_fits {amount : ℤ} {malloc : Bool} (h0 : 0 ≤ amount) (h32 : amount < 2 ^ 32)
    (hr : ∀ r ∈ (p.write amount malloc).2.ranges, r.Inside) :
    p.Within amount p.avail ∧ p.Room (ssize (p.pos + amount)) := by
  unfold Storage.write at hr
  by_cases hfit : ssize (p.pos + amount) ≤ p.avail
  · rw [if_pos hfit] at hr
    refine ⟨h.within_of_touch _ h0 ?_, fun hav => absurd hav (not_lt.2 hfit)⟩
    exact hr _ (mem_append_right _ (mem_singleton_self _))
  · refine ⟨fun hle => absurd hle hfit, fun hav hlen => ?_⟩
    have hb := h.sound.bounded hlen
    have hle := hb.pos_le
    have hlav := hb.length_le
    obtain ⟨hnw, hsum⟩ := hb.no_wrap h.size_lt h0 h32 (hle.trans hlav) hav
    rw [if_neg hfit] at hr
    rw [hsum]
    rw [hsum] at hav
    by_cases hold : p.pos < p.length
    · rw [if_pos hold] at hr
      dsimp only at hr
      rw [size_of_lt (n := amount - (p.length - p.pos)) (by omega) (by omega)] at hr
      have hend : p.length + (amount - (p.length - p.pos)) = p.pos + amount := by omega
      have hroom := (h.toEnd hold).writeRest_room hlen (by omega) (by show p.length + _ < _; omega) hr
      have hroom' : Room { p.touch p.pos (p.length - p.pos) with pos := p.length }
          (p.length + (amount - (p.length - p.pos))) := hroom
      rw [hend] at hroom'
      exact hroom' hav hlen
    · rw [if_neg hold, if_neg (not_lt.2 hlen)] at hr
      exact h.writeRest_room hlen h0 hnw hr hav hlen

theorem Kept.writeInPlace_fits {amount : ℤ} {malloc : Bool} (h0 : 0 ≤ amount)
    (hq : (p.writeInPlace amount malloc).2.Sound) :
    p.Within amount p.avail ∧ p.Room (ssize (p.pos + amount)) := by
  by_cases hfit : ssize (p.pos + amount) ≤ p.avail
  · unfold Storage.writeInPlace at hq
    rw [if_neg (not_lt.2 hfit)] at hq
    simp only [if_true, if_neg (not_lt.2 hfit)] at hq
    refine ⟨h.within_of_touch _ h0 ?_, fun hav => absurd hav (not_lt.2 hfit)⟩
    exact hq.ranges _ (mem_append_right _ (mem_singleton_self _))
  · refine ⟨fun hle => absurd hle hfit, fun hav hlen h32 => ?_⟩
    by_contra hd
    have hlt := lt_of_lt_of_le hav (p.grown_ge (ssize (p.pos + amount)))
    have hsmall := reAlloc_small hlen malloc hlt h32
    have hsize := h.size_lt_of hlen hd hlt
    unfold Storage.writeInPlace at hq
    rw [if_pos hav, hsmall] at hq
    have havail := hq.avail_le
    simp only [if_pos (show ssize (p.pos + amount) > p.avail from hav)] at havail
    by_cases hn : p.data = .null
    · simp only [hn, ne_eq, not_true_eq_false, decide_false, Bool.false_eq_true, if_false] at havail
      rw [hn] at hsize
      exact absurd hsize (not_lt.2 havail)
    · simp only [ne_eq, hn, not_false_eq_true, decide_true, if_true] at havail
      exact absurd hsize (not_lt.2 havail)

theorem Kept.writeBinder_fits {binder : BitVec 32} {malloc added : Bool}
    (hq : (p.writeBinder binder malloc added).2.Sound) :
    p.Within 16 p.avail ∧ p.Room (ssize (p.pos + 16)) := by
  -- whatever is done after it, the block stays and the object was written
  have hlast : ∀ q : Storage, (if (!q.ownsBinders && !q.binders.isEmpty) = true
      then q.binderRanges else q).avail = q.avail ∧ (if (!q.ownsBinders && !q.binders.isEmpty) = true
      then q.binderRanges else q).data = q.data ∧ ∀ r ∈ q.ranges,
        r ∈ (if (!q.ownsBinders && !q.binders.isEmpty) = true then q.binderRanges else q).ranges := by
    intro q
    split
    · exact ⟨rfl, rfl, fun r hr => mem_append_left _ hr⟩
    · exact ⟨rfl, rfl, fun r hr => hr⟩
  have hafter : ∀ q : Storage, (if ssize (p.pos + 16) > p.avail then
      p.reAlloc (p.grown (ssize (p.pos + 16))) malloc else (true, p)).2 = q →
      q.avail ≤ q.data.size ∧ ((if ssize (p.pos + 16) > p.avail then
      p.reAlloc (p.grown (ssize (p.pos + 16))) malloc else (true, p)).1 = true →
      (Range.mk q.data.size q.pos 16).Inside) := by
    rintro q rfl
    have havail := hq.avail_le
    have hranges := hq.ranges
    unfold Storage.writeBinder at havail hranges
    dsimp only at havail hranges
    generalize (if ssize (p.pos + 16) > p.avail then
      p.reAlloc (p.grown (ssize (p.pos + 16))) malloc else (true, p)) = a at havail hranges ⊢
    obtain ⟨found, q⟩ := a
    cases found with
    | false => exact ⟨havail, fun hf => (by cases hf)⟩
    | true =>
      rw [if_pos rfl] at havail hranges
      by_cases hb : binder = 0
      · rw [if_pos hb] at havail hranges
        exact ⟨havail, fun _ => hranges _ (mem_append_right _ (mem_singleton_self _))⟩
      · rw [if_neg hb] at havail hranges
        obtain ⟨ha, hd, hm⟩ := hlast (q.touch q.pos 16)
        generalize (if (!(q.touch q.pos 16).ownsBinders && !(q.touch q.pos 16).binders.isEmpty) = true
          then (q.touch q.pos 16).binderRanges else q.touch q.pos 16) = q2 at *
        have hmem := hm _ (mem_append_right _ (mem_singleton_self _))
        cases added with
        | true =>
          refine ⟨?_, fun _ => hranges _ hmem⟩
          have havail' : q2.avail ≤ q2.data.size := havail
          rw [ha, hd] at havail'
          exact havail'
        | false =>
          refine ⟨?_, fun _ => hranges _ hmem⟩
          have havail' : q2.avail ≤ q2.data.size := havail
          rw [ha, hd] at havail'
          exact havail'
  obtain ⟨havail, hrange⟩ := hafter _ rfl
  by_cases hfit : ssize (p.pos + 16) ≤ p.avail
  · rw [if_neg (not_lt.2 hfit)] at hrange
    exact ⟨h.within_of_touch _ (by decide) (hrange rfl), fun hav => absurd hav (not_lt.2 hfit)⟩
  · refine ⟨fun hle => absurd hle hfit, fun hav hlen h32 => ?_⟩
    by_contra hd
    have hlt := lt_of_lt_of_le hav (p.grown_ge (ssize (p.pos + 16)))
    have hsmall := reAlloc_small hlen malloc hlt h32
    have hsize := h.size_lt_of hlen hd hlt
    rw [if_pos hav, hsmall] at havail
    exact absurd hsize (not_lt.2 havail)

theorem Kept.writePadded_fits {amount : BitVec 32} {malloc malloc' : Bool}
    (hq : (p.writePadded amount malloc malloc').2.Sound) :
    p.Fits (.writePadded amount malloc malloc') := by
  have h32 := amount.isLt
  have hsize := h.size_lt
  have hpos := h.pos_nonneg
  have hr := hq.ranges
  unfold Storage.writePadded at hr
  dsimp only at hr
  by_cases hfit : ssize (p.pos + (valueDataAlign amount.toNat : ℤ)) ≤ p.avail
  · refine ⟨fun _ => ?_, fun hav => absurd hav (not_lt.2 hfit)⟩
    rw [if_pos hfit] at hr
    -- the bytes and, if there is padding, the last word of it
    have hbytes : (Range.mk p.data.size p.pos amount.toNat).Inside := by
      by_cases hpad : (valueDataAlign amount.toNat : ℤ) ≠ amount.toNat
      · rw [if_pos hpad] at hr
        exact hr _ (mem_append_left _ (mem_append_right _ (mem_singleton_self _)))
      · rw [if_neg hpad] at hr
        exact hr _ (mem_append_right _ (mem_singleton_self _))
    by_cases hzero : amount.toNat = 0
    · rw [hzero] at hfit ⊢
      have hz : ssize (p.pos + (valueDataAlign 0 : ℤ)) = p.pos := by
        rw [show (valueDataAlign 0 : ℤ) = 0 from rfl, add_zero]
        rcases h.sound.state with hb | hf
        · have := hb.pos_le
          have := hb.length_le
          have := hb.avail_le
          exact ssize_of_lt (by omega) (by omega)
        · rw [hf.pos]
          decide
      rw [hz] at hfit
      rw [show (roundUp8 0 : ℤ) = 0 from rfl, add_zero]
      exact hfit
    · have hle := (hbytes (by show (0 : ℤ) < amount.toNat; omega)).2
      dsimp only at hle
      have hround : roundUp8 amount.toNat < 2 ^ 32 := by unfold roundUp8; omega
      have heq := valueDataAlign_eq hround h32
      rw [heq] at hfit hr
      have hend : p.pos + (roundUp8 amount.toNat : ℤ) ≤ p.data.size := by
        by_cases hpad : (roundUp8 amount.toNat : ℤ) ≠ amount.toNat
        · rw [if_pos hpad] at hr
          have := (hr _ (mem_append_right _ (mem_singleton_self _))
            (show (0 : ℤ) < 8 by decide)).2
          have hlast : p.pos + (roundUp8 amount.toNat : ℤ) - 8 + 8 ≤ p.data.size := this
          omega
        · have : (roundUp8 amount.toNat : ℤ) = amount.toNat := not_not.1 hpad
          omega
      rw [ssize_of_lt (by omega) (by omega)] at hfit
      exact hfit
  · refine ⟨fun hle => absurd hle hfit, fun hav => ?_⟩
    rw [if_neg hfit] at hr
    -- the first of the two writes
    have hr1 : ∀ r ∈ (p.write amount.toNat malloc).2.ranges, r.Inside := by
      intro r hm
      refine hr r ?_
      split
      · split
        · exact write_ranges _ _ _ r hm
        · exact hm
      · exact hm
    obtain ⟨hin, hroom⟩ := h.write_fits (natCast_nonneg _) (by omega) hr1
    refine ⟨hin, fun hav' hlen hg => ?_⟩
    have hb := h.sound.bounded hlen
    have hle := hb.pos_le
    have hlav := hb.length_le
    have hp32 : (valueDataAlign amount.toNat : ℤ) < 2 ^ 32 := by unfold valueDataAlign; omega
    obtain ⟨hnw, hsum⟩ := hb.no_wrap hsize (natCast_nonneg _) hp32 (hle.trans hlav) hav
    have hge := le_valueDataAlign h32 (hle.trans hlav) (not_le.1 hfit) hsum
    have hs1 : ssize (p.pos + (amount.toNat : ℤ)) = p.pos + amount.toNat :=
      ssize_of_lt (by omega) (by omega)
    by_cases hplace : p.pos + (amount.toNat : ℤ) ≤ p.avail
    · rw [if_pos hplace] at hav' hg
      have hk := @Kept.write p h _ malloc (natCast_nonneg amount.toNat) (by omega) hin hroom
      have hint : amount.toInt = amount.toNat := by
        rw [BitVec.toInt_eq_toNat_cond, if_pos (by omega)]
      have hwrite : p.write amount.toNat malloc = (p.touch p.pos amount.toNat).finishWrite amount.toNat := by
        unfold Storage.write
        rw [hs1, if_pos hplace, ssize_of_lt (by omega) (by omega)]
      have hres : (p.write amount.toNat malloc).1 = amount.toInt := by
        rw [hwrite, hint]
        rfl
      have hpad : (valueDataAlign amount.toNat : ℤ) ≠ amount.toNat := by omega
      simp only [if_pos hres, if_pos hpad] at hr
      rw [size_of_lt (by omega) (by omega)] at hr
      obtain ⟨-, hroom2⟩ := hk.write_fits (by omega) (by omega) hr
      have hq1 : (p.write amount.toNat malloc).2.pos = p.pos + amount.toNat := by
        rw [hwrite, finishWrite_pos, touch_pos, hs1]
      have hav1 : (p.write amount.toNat malloc).2.avail = p.avail := by rw [hwrite]; rfl
      have hd1 : (p.write amount.toNat malloc).2.data = p.data := by rw [hwrite]; rfl
      have hl1 : 0 ≤ (p.write amount.toNat malloc).2.length := by
        rw [hwrite]
        refine le_trans ?_ (le_finishWrite_length _ _)
        exact hlen
      have hend : p.pos + (amount.toNat : ℤ) + ((valueDataAlign amount.toNat : ℤ) - amount.toNat) =
          p.pos + valueDataAlign amount.toNat := by omega
      unfold Room Storage.grown at hroom2
      rw [hq1, hav1, hd1, hend, hsum] at hroom2
      exact hroom2 hav' hl1 hg
    · rw [if_neg hplace] at hav' hg
      rw [hs1] at hroom
      exact hroom hav' hlen hg

end

theorem Kept.inline_of_reAlloc (h : p.Kept) {len : ℤ} {malloc : Bool} (hlen : 0 ≤ p.length)
    (hlt : p.avail < len) (h32 : len ≤ 32)
    (hq : (p.reAlloc len malloc).2.avail ≤ (p.reAlloc len malloc).2.data.size) :
    p.data = .inline := by
  by_contra hd
  rw [reAlloc_small hlen malloc hlt h32] at hq
  exact absurd (h.size_lt_of hlen hd hlt) (not_lt.2 hq)

theorem Kept.reAlloc_fits (h : p.Kept) {len : BitVec 32} {malloc : Bool}
    (hq : (p.reAlloc len.toInt malloc).2.Sound) : p.Fits (.reAlloc len malloc) := by
  intro hlen
  refine ⟨?_, fun hlt h32 => h.inline_of_reAlloc hlen hlt h32 hq.avail_le⟩
  by_contra hneg
  have hb := h.sound.bounded hlen
  have hpos := hb.pos
  have hshrink : len.toInt < p.avail := by
    have := hb.length_le
    omega
  unfold Storage.reAlloc at hq
  rw [if_neg (not_lt.2 hlen), if_neg (not_lt.2 (le_of_lt hshrink)), if_pos hshrink,
    if_pos (show len.toInt < p.pos by omega)] at hq
  rcases hq.state with hb' | hf'
  · exact hneg hb'.pos
  · have : len.toInt = 0 := hf'.pos
    omega

theorem Kept.setLength_fits (h : p.Kept) {len : BitVec 32} {malloc : Bool}
    (hq : (p.setLength len.toInt malloc).2.Sound) : p.Fits (.setLength len malloc) := by
  intro hlt hlen h32
  have hb := h.sound.bounded hlen
  have h0 : ¬ len.toInt < 0 := by
    have := hb.length_le
    omega
  refine @Kept.inline_of_reAlloc p h _ malloc hlen hlt h32 ?_
  have havail := hq.avail_le
  unfold Storage.setLength at havail
  dsimp only at havail
  rw [if_neg h0, if_pos hlt] at havail
  generalize p.reAlloc len.toInt malloc = a at havail ⊢
  obtain ⟨found, q⟩ := a
  cases found <;> exact havail

theorem reserve_fits {len : BitVec 32} {malloc : Bool}
    (hq : (p.reserve len.toInt malloc).2.Sound) : p.Fits (.reserve len malloc) := by
  intro hd
  by_contra hneg
  unfold Storage.reserve at hq
  rw [if_neg (fun hroom => hroom.1 hd)] at hq
  rw [if_pos (by omega)] at hq
  rcases hq.state with hb | hf
  · exact hneg hb.length_le
  · exact absurd hf.data (by simp)

theorem alloc_fits {len : BitVec 32} {malloc : Bool}
    (hq : (p.alloc len.toInt malloc).2.Sound) : p.Fits (.alloc len malloc) := by
  show 0 ≤ len.toInt
  by_contra hneg
  have hdata : (p.reserve len.toInt malloc).1 = 0 ∧ (p.reserve len.toInt malloc).2.data ≠ .null := by
    unfold Storage.reserve
    by_cases hroom : p.data ≠ .null ∧ p.avail ≥ len.toInt
    · rw [if_pos hroom]
      refine ⟨rfl, ?_⟩
      unfold Storage.reset
      rw [released_data]
      exact hroom.1
    · rw [if_neg hroom]
      rw [if_pos (by omega)]
      exact ⟨rfl, by simp⟩
  unfold Storage.alloc at hq
  dsimp only at hq
  rw [if_pos hdata.1] at hq
  rcases hq.state with hb | hf
  · exact hneg (hb.pos.trans hb.pos_le)
  · exact hdata.2 hf.data

theorem Kept.read_fits (h : p.Kept) {amount : ℤ} (h0 : 0 ≤ amount)
    (hq : (p.read amount).2.Sound) : p.Within amount p.length := by
  intro hfit
  have hr := hq.ranges
  unfold Storage.read at hr
  rw [if_pos hfit] at hr
  exact h.within_of_touch p.length h0 (hr _ (mem_append_right _ (mem_singleton_self _))) hfit

theorem Kept.readInPlace_fits (h : p.Kept) {amount : ℤ} (h0 : 0 ≤ amount)
    (hq : (p.readInPlace amount).2.Sound) : p.Within amount p.length := by
  intro hfit
  have hr := hq.ranges
  unfold Storage.readInPlace at hr
  rw [if_pos hfit] at hr
  exact h.within_of_touch p.length h0 (hr _ (mem_append_right _ (mem_singleton_self _))) hfit

theorem drain_fits {amount : ℤ} (hq : (p.drain amount).2.Sound)
    (hfit : ssize (p.pos + amount) ≤ p.length) : 0 ≤ ssize (p.pos + amount) := by
  unfold Storage.drain at hq
  rw [if_pos hfit] at hq
  exact hq.pos_nonneg

theorem Kept.call (h : p.Kept) {c : StorageCall} (hq : p.call c = some q) (hfits : p.Fits c) :
    q.Kept := by
  cases c with
  | setPosition pos => exact h.setPosition hq
  | write amount malloc =>
    obtain ⟨⟩ := hq
    exact h.write (natCast_nonneg _) (by have := amount.isLt; omega) hfits.1 hfits.2
  | writePadded amount malloc malloc' =>
    obtain ⟨⟩ := hq
    exact h.writePadded hfits
  | writeInPlace amount malloc =>
    obtain ⟨⟩ := hq
    exact h.writeInPlace (natCast_nonneg _) (by have := amount.isLt; omega) hfits.1 hfits.2
  | writeBinder binder malloc added =>
    obtain ⟨⟩ := hq
    exact h.writeBinder hfits.1 hfits.2
  | setLength len malloc =>
    obtain ⟨⟩ := hq
    exact h.setLength hfits
  | reAlloc len malloc =>
    obtain ⟨⟩ := hq
    exact h.reAlloc_call hfits
  | reserve len malloc =>
    obtain ⟨⟩ := hq
    exact (h.reserve (by have := len.toInt_lt; omega) hfits).1
  | alloc len malloc =>
    obtain ⟨⟩ := hq
    exact h.alloc (by have := len.toInt_lt; omega) hfits
  | read amount =>
    obtain ⟨⟩ := hq
    exact h.read (natCast_nonneg _) (by have := amount.isLt; omega) hfits
  | readInPlace amount =>
    obtain ⟨⟩ := hq
    exact h.readInPlace (natCast_nonneg _) hfits
  | drain amount =>
    obtain ⟨⟩ := hq
    exact h.drain (natCast_nonneg _) (by have := amount.isLt; omega) hfits

theorem Kept.fits (h : p.Kept) {c : StorageCall} (hq : p.call c = some q) (hs : q.Sound) :
    p.Fits c := by
  cases c with
  | setPosition pos => trivial
  | write amount malloc =>
    obtain ⟨⟩ := hq
    exact h.write_fits (natCast_nonneg _) (by have := amount.isLt; omega) hs.ranges
  | writePadded amount malloc malloc' =>
    obtain ⟨⟩ := hq
    exact h.writePadded_fits hs
  | writeInPlace amount malloc =>
    obtain ⟨⟩ := hq
    exact h.writeInPlace_fits (natCast_nonneg _) hs
  | writeBinder binder malloc added =>
    obtain ⟨⟩ := hq
    exact h.writeBinder_fits hs
  | setLength len malloc =>
    obtain ⟨⟩ := hq
    exact h.setLength_fits hs
  | reAlloc len malloc =>
    obtain ⟨⟩ := hq
    exact h.reAlloc_fits hs
  | reserve len malloc =>
    obtain ⟨⟩ := hq
    exact reserve_fits hs
  | alloc len malloc =>
    obtain ⟨⟩ := hq
    exact alloc_fits hs
  | read amount =>
    obtain ⟨⟩ := hq
    exact h.read_fits (natCast_nonneg _) hs
  | readInPlace amount =>
    obtain ⟨⟩ := hq
    exact h.readInPlace_fits (natCast_nonneg _) hs
  | drain amount =>
    obtain ⟨⟩ := hq
    exact drain_fits hs

/-! ### `Transfer` -/

/-- How large the block is that `Reserve` leaves. -/
def reserved (p : Storage) (len : ℤ) (malloc : Bool) : ℤ :=
  if p.data ≠ .null ∧ p.avail ≥ len then p.data.size
  else if len ≤ 32 then 32 else if malloc then len else 0

theorem Kept.alloc_spec (h : p.Kept) {len : ℤ} {malloc : Bool} (hmax : len < 2 ^ 31) (h0 : 0 ≤ len) :
    (p.alloc len malloc).2.data.size = p.reserved len malloc ∧
      ((p.alloc len malloc).1 = true ∧ (p.alloc len malloc).2.length = len ∨
        (p.alloc len malloc).1 = false ∧ (p.alloc len malloc).2.Failed) := by
  have hk := @Kept.alloc p h len malloc hmax h0
  unfold Storage.alloc Storage.reserve reserved at *
  by_cases hroom : p.data ≠ .null ∧ p.avail ≥ len
  · rw [if_pos hroom] at hk ⊢
    rw [if_pos hroom]
    unfold Storage.reset at hk ⊢
    dsimp only at hk ⊢
    rw [released_data] at hk ⊢
    exact ⟨rfl, .inl ⟨by simpa using hroom.1, rfl⟩⟩
  · rw [if_neg hroom] at hk ⊢
    rw [if_neg hroom]
    by_cases h32 : len ≤ 32
    · rw [if_pos h32] at hk ⊢
      rw [if_pos h32]
      exact ⟨rfl, .inl ⟨rfl, rfl⟩⟩
    · rw [if_neg h32] at hk ⊢
      rw [if_neg h32]
      cases malloc with
      | true => exact ⟨rfl, .inl ⟨rfl, rfl⟩⟩
      | false => exact ⟨rfl, .inr ⟨rfl, hk.sound.failed (show noMemory < 0 by decide)⟩⟩

/-- What the parcel that is transferred to becomes. -/
def taken (p q : Storage) (malloc : Bool) : Storage :=
  let r :=
    if q.data ≠ .inline then
      if q.free ∨ q.data = .null then
        { p.doFree with data := q.data, length := q.length, avail := q.avail, free := q.free }
      else
        let (found, r) := p.alloc q.length malloc
        if found ∧ q.length > 0 then
          { r with ranges := r.ranges ++ [⟨q.data.size, 0, q.length⟩, ⟨r.data.size, 0, q.length⟩] }
        else r
    else
      let r := { p.doFree with data := .inline, length := q.length, avail := q.avail, free := false }
      if q.length > 0 then { r with ranges := r.ranges ++ [⟨32, 0, q.length⟩, ⟨32, 0, q.length⟩] }
      else r
  { r with base := q.base, pos := q.pos, ownsBinders := q.ownsBinders, binders := q.binders }

/-- What the other one becomes. -/
def emptied (p : Storage) : Storage :=
  ⟨.null, false, 0, 0, 0, 0, [], false, p.ranges⟩

variable {ι : Type} [DecidableEq ι] {s : ι → Storage}

theorem transfer_of_ne {i j : ι} (hne : i ≠ j) (malloc : Bool) (s : ι → Storage) :
    transfer i j malloc s =
      update (update s i ((s i).taken (s j) malloc)) j (s j).emptied := by
  have hji : j ≠ i := Ne.symm hne
  unfold transfer taken emptied
  by_cases hin : (s j).data ≠ .inline
  · rw [if_pos hin]
    by_cases hown : (s j).free = true ∨ (s j).data = .null
    · simp only [if_pos hin, if_pos hown, update_self, update_of_ne hji,
        update_idem]
    · simp only [if_pos hin, if_neg hown]
      split
      · simp only [update_self, update_of_ne hji, update_idem]
      · simp only [update_self, update_of_ne hji, update_idem]
  · rw [if_neg hin]
    simp only [if_neg hin, update_self, update_of_ne hji, update_idem]

theorem Kept.emptied (h : p.Kept) : p.emptied.Kept :=
  h.renew (.inl ⟨le_refl _, le_refl _, le_refl _, le_refl _⟩) (fun n hn => (by cases hn))

theorem Kept.doFree (h : p.Kept) : p.doFree.Kept :=
  h.released.renew (.inl ⟨le_refl _, le_refl _, le_refl _, le_refl _⟩) (fun n hn => (by cases hn))

/-- **A block with its bytes and objects** goes from one parcel to another. -/
theorem Kept.adopt (h : q.Kept) {free ownsBinders : Bool} {base : ℤ} {ranges : List Range}
    (hr : ∀ r ∈ ranges, r.Inside) :
    Kept ⟨q.data, free, q.length, q.avail, base, q.pos, q.binders, ownsBinders, ranges⟩ :=
  ⟨⟨h.sound.state.imp (fun hb => ⟨hb.pos, hb.pos_le, hb.length_le, hb.avail_le⟩)
    (fun hf => ⟨hf.data, hf.length, hf.avail, hf.pos⟩), hr, h.sound.binders⟩, h.outside⟩

/-- A copy is made only if someone else has the block, and it has to have room for the objects. -/
def TransferFits (p q : Storage) (malloc : Bool) : Prop :=
  q.data ≠ .inline → q.free = false → q.data ≠ .null →
    (∀ o ∈ q.binders, o + 16 ≤ p.reserved q.length malloc) ∧
      (p.reserved q.length malloc = 0 → q.pos = 0)

theorem Kept.taken (hp : p.Kept) (hq : q.Kept) {malloc : Bool} (hfits : p.TransferFits q malloc) :
    (p.taken q malloc).Kept := by
  have hfree := hp.doFree
  unfold Storage.taken
  by_cases hin : q.data ≠ .inline
  · rw [if_pos hin]
    by_cases hown : q.free = true ∨ q.data = .null
    · rw [if_pos hown]
      exact hq.adopt hfree.sound.ranges
    · rw [if_neg hown]
      push Not at hown
      obtain ⟨hbin, hzero⟩ := hfits hin (by simpa using hown.1) hown.2
      have hb := hq.sound.state.resolve_right fun hf => hown.2 hf.data
      have h0 := hb.pos.trans hb.pos_le
      have hav := hb.length_le.trans hb.avail_le
      have hmax : q.length < 2 ^ 31 := lt_of_le_of_lt hav hq.size_lt
      have hk := @Kept.alloc p hp q.length malloc hmax h0
      obtain ⟨hsize, hcases⟩ := @Kept.alloc_spec p hp q.length malloc hmax h0
      generalize p.alloc q.length malloc = a at hk hsize hcases ⊢
      obtain ⟨found, r⟩ := a
      dsimp only at hk hsize hcases ⊢
      have hbinders : ∀ o ∈ q.binders, 0 ≤ o ∧ o + 16 ≤ r.data.size := by
        intro o ho
        rw [hsize]
        exact ⟨(hq.sound.binders o ho).1, hbin o ho⟩
      rcases hcases with ⟨hf, hlen⟩ | ⟨hf, hfail⟩
      · have hrb := hk.sound.bounded (by rw [hlen]; exact h0)
        have hstate : ∀ ranges : List Range, (∀ x ∈ ranges, x.Inside) → Kept ⟨r.data, r.free, r.length,
            r.avail, q.base, q.pos, q.binders, q.ownsBinders, ranges⟩ := by
          intro ranges hr
          refine ⟨⟨.inl ⟨hb.pos, ?_, hrb.length_le, hrb.avail_le⟩, hr, hbinders⟩, hk.outside⟩
          show q.pos ≤ r.length
          rw [hlen]
          exact hb.pos_le
        by_cases hpos : found = true ∧ q.length > 0
        · rw [if_pos hpos]
          refine hstate _ fun x hx => ?_
          rcases mem_append.1 hx with hx | hx
          · exact hk.sound.ranges x hx
          · rcases mem_pair.1 hx with rfl | rfl
            · exact fun _ => ⟨le_refl _, by show 0 + q.length ≤ q.data.size; omega⟩
            · refine fun _ => ⟨le_refl _, ?_⟩
              show 0 + q.length ≤ r.data.size
              have := hrb.length_le.trans hrb.avail_le
              omega
        · rw [if_neg hpos]
          exact hstate _ hk.sound.ranges
      · rw [if_neg (by rw [hf]; simp)]
        have hnone : r.data.size = 0 := by rw [hfail.data]; rfl
        refine ⟨⟨.inr ⟨hfail.data, hfail.length, hfail.avail, ?_⟩, hk.sound.ranges, hbinders⟩, hk.outside⟩
        exact hzero (by rw [← hsize, hnone])
  · rw [if_neg hin]
    have hd := not_not.1 hin
    have hadopt : ∀ ranges : List Range, (∀ x ∈ ranges, x.Inside) → Kept ⟨.inline, false, q.length,
        q.avail, q.base, q.pos, q.binders, q.ownsBinders, ranges⟩ := by
      intro ranges hr
      rw [← hd]
      exact hq.adopt hr
    by_cases hpos : q.length > 0
    · dsimp only
      rw [if_pos hpos]
      have hav := hq.sound.avail_le
      have hb := hq.sound.bounded (le_of_lt hpos)
      have hle := hb.length_le
      rw [hd] at hav
      have hav' : q.avail ≤ 32 := hav
      refine hadopt _ fun x hx => ?_
      rcases mem_append.1 hx with hx | hx
      · exact hfree.sound.ranges x hx
      · rcases mem_pair.1 hx with rfl | rfl <;>
          exact fun _ => ⟨le_refl _, by show 0 + q.length ≤ 32; omega⟩
    · dsimp only
      rw [if_neg hpos]
      exact hadopt _ hfree.sound.ranges

theorem Kept.transfer_fits (hp : p.Kept) (hq : q.Kept) {malloc : Bool}
    (hs : (p.taken q malloc).Sound) : p.TransferFits q malloc := by
  intro hin hfree hnull
  have hb := hq.sound.state.resolve_right fun hf => hnull hf.data
  have h0 := hb.pos.trans hb.pos_le
  have hmax : q.length < 2 ^ 31 := lt_of_le_of_lt (hb.length_le.trans hb.avail_le) hq.size_lt
  obtain ⟨hsize, -⟩ := @Kept.alloc_spec p hp q.length malloc hmax h0
  have hown : ¬(q.free = true ∨ q.data = .null) := by
    rw [hfree]
    simpa using hnull
  have hdata : (p.taken q malloc).data = (p.alloc q.length malloc).2.data := by
    unfold Storage.taken
    rw [if_pos hin, if_neg hown]
    dsimp only
    split <;> rfl
  have hbinders : (p.taken q malloc).binders = q.binders := rfl
  have hpos : (p.taken q malloc).pos = q.pos := rfl
  refine ⟨fun o ho => ?_, fun hzero => ?_⟩
  · rw [← hsize, ← hdata]
    exact (hs.binders o (by rw [hbinders]; exact ho)).2
  · rw [← hpos]
    rcases hs.state with hb' | hf'
    · have h1 := hb'.pos
      have h2 := hb'.pos_le
      have h3 := hb'.length_le
      have h4 := hb'.avail_le
      rw [hdata, hsize, hzero] at h4
      omega
    · exact hf'.pos

/-- **`Transfer` from a parcel to itself** leaves it without anything. -/
theorem Kept.transfer_self {i : ι} (h : (s i).Kept) (malloc : Bool) :
    ∃ ranges : List Range, (∀ r ∈ ranges, r.Inside) ∧ transfer i i malloc s =
      update s i ⟨.null, false, 0, 0, 0, 0, [], false, ranges⟩ := by
  have hfree := h.doFree
  unfold transfer
  by_cases hin : (s i).data ≠ .inline
  · rw [if_pos hin]
    by_cases hown : (s i).free = true ∨ (s i).data = .null
    · refine ⟨_, hfree.sound.ranges, ?_⟩
      simp only [if_pos hown, update_self, update_idem]
    · push Not at hown
      have hb := h.sound.state.resolve_right fun hf => hown.2 hf.data
      have h0 := hb.pos.trans hb.pos_le
      have hav := hb.length_le.trans hb.avail_le
      have hmax : (s i).length < 2 ^ 31 := lt_of_le_of_lt hav h.size_lt
      have hk := @Kept.alloc (s i) h (s i).length malloc hmax h0
      obtain ⟨-, hcases⟩ := @Kept.alloc_spec (s i) h (s i).length malloc hmax h0
      rw [if_neg (by simpa using hown)]
      dsimp only
      generalize (s i).alloc (s i).length malloc = a at hk hcases ⊢
      obtain ⟨found, r⟩ := a
      dsimp only at hk hcases ⊢
      by_cases hpos : found = true ∧ (s i).length > 0
      · rw [if_pos hpos]
        refine ⟨_, fun x hx => ?_, by simp only [update_self, update_idem]; rfl⟩
        rcases mem_append.1 hx with hx | hx
        · exact hk.sound.ranges x hx
        · rcases mem_pair.1 hx with rfl | rfl
          · exact fun _ => ⟨le_refl _, by show 0 + (s i).length ≤ (s i).data.size; omega⟩
          · refine fun _ => ⟨le_refl _, ?_⟩
            rcases hcases with ⟨-, hlen⟩ | ⟨hf, -⟩
            · have hrb := hk.sound.bounded (by rw [hlen]; exact h0)
              have := hrb.length_le.trans hrb.avail_le
              show 0 + (s i).length ≤ r.data.size
              omega
            · rw [hf] at hpos
              cases hpos.1
      · rw [if_neg hpos]
        exact ⟨_, hk.sound.ranges, by simp only [update_self, update_idem]⟩
  · rw [if_neg hin]
    refine ⟨_, hfree.sound.ranges, ?_⟩
    simp only [update_self, update_idem]
    rfl

/-! ### Runs -/

/-- What a call has to find in the parcels. -/
def ParcelsFit (s : ι → Storage) : ParcelsCall ι → Prop
  | .on i c => (s i).Fits c
  | .transfer i j malloc => i ≠ j → (s i).TransferFits (s j) malloc

omit [DecidableEq ι] in
theorem Kept.forget (h : p.Kept) : Kept { p with ranges := [] } :=
  h.adopt fun r hr => (by cases hr)

section

variable {c : ParcelsCall ι} {s' : ι → Storage} (h : ∀ i, (s i).Kept) (hs : step s c = some s')
include h hs

theorem step_kept (hfits : ParcelsFit s c) : ∀ i, (s' i).Kept := by
  have hforget : ∀ i, Kept { s i with ranges := [] } := fun i => (h i).forget
  cases c with
  | on i c =>
    obtain ⟨q, hq, rfl⟩ := Option.map_eq_some_iff.1 hs
    intro k
    by_cases hk : k = i
    · subst hk
      rw [update_self]
      exact (hforget k).call hq (by cases c <;> exact hfits)
    · rw [update_of_ne hk]
      exact hforget k
  | transfer i j malloc =>
    obtain ⟨⟩ := hs
    intro k
    by_cases hij : i = j
    · subst hij
      obtain ⟨ranges, hr, heq⟩ := @Kept.transfer_self ι _ (fun i => { s i with ranges := [] }) i
        (hforget i) malloc
      rw [heq]
      by_cases hk : k = i
      · subst hk
        rw [update_self]
        exact ⟨⟨.inl ⟨le_refl _, le_refl _, le_refl _, le_refl _⟩, hr, fun o ho => (by cases ho)⟩,
          fun n hn => (by cases hn)⟩
      · rw [update_of_ne hk]
        exact hforget k
    · rw [transfer_of_ne hij]
      by_cases hk : k = j
      · subst hk
        rw [update_self]
        exact (hforget k).emptied
      · rw [update_of_ne hk]
        by_cases hki : k = i
        · subst hki
          rw [update_self]
          exact (hforget k).taken (hforget j) (hfits hij)
        · rw [update_of_ne hki]
          exact hforget k

theorem step_fits (h' : ∀ i, (s' i).Sound) : ParcelsFit s c := by
  have hforget : ∀ i, Kept { s i with ranges := [] } := fun i => (h i).forget
  cases c with
  | on i c =>
    obtain ⟨q, hq, rfl⟩ := Option.map_eq_some_iff.1 hs
    have hsound := h' i
    rw [update_self] at hsound
    have hfits := (hforget i).fits hq hsound
    cases c <;> exact hfits
  | transfer i j malloc =>
    obtain ⟨⟩ := hs
    intro hij
    have hsound := h' i
    rw [transfer_of_ne hij, update_of_ne hij, update_self] at hsound
    exact (hforget i).transfer_fits (hforget j) hsound

end

theorem Start.kept (st : Start) : st.storage.Kept := by
  have hempty : empty.Kept := ⟨⟨.inl ⟨le_refl _, le_refl _, le_refl _, le_refl _⟩,
    fun r hr => (by cases hr), fun o ho => (by cases ho)⟩, fun n hn => (by cases hn)⟩
  cases st with
  | buffer bufferSize malloc =>
    unfold Start.storage
    dsimp only
    have hlt := bufferSize.toInt_lt
    generalize hn : (if bufferSize.toInt < 0 then 32 else bufferSize.toInt) = n
    have hmax : n < 2 ^ 31 := by
      rw [← hn]
      split <;> omega
    split
    · exact (hempty.reserve hmax (fun _ => by omega)).1
    · exact hempty
  | reference len free =>
    refine ⟨⟨.inl ⟨le_refl _, ?_, le_refl _, le_refl _⟩, fun r hr => (by cases hr),
      fun o ho => (by cases ho)⟩, fun n hn => ?_⟩
    · exact natCast_nonneg _
    · cases hn
      exact ⟨rfl, by show (len.toNat : ℤ) < 2 ^ 31; omega⟩

/-- **All parcels are sound in every state** of a run exactly when every call of the run fits. -/
theorem parcels_sound_iff (start : ι → Start) (cs : List (ParcelsCall ι)) :
    AllStates step (fun s => ∀ i, (s i).Sound) (fun i => (start i).storage) cs ↔
      AllSteps step ParcelsFit (fun i => (start i).storage) cs :=
  allStates_iff_allSteps (I := fun s => ∀ i, (s i).Kept) (fun _ h i => (h i).sound)
    (fun _ _ _ h hs hf => step_kept h hs hf) (fun _ _ _ h hs h' => step_fits h hs h') cs _
    fun i => (start i).kept

/-- An `Alloc` that fails; a parcel without a block that is written to; a sum that wraps around;
a small block of someone else that is made larger. -/
theorem parcels_unsound :
    ¬ AllStates step (fun s : Unit → Storage => ∀ i, (s i).Bounded)
      (fun _ => (Start.buffer 32 true).storage) [.on () (.alloc 64 false)] ∧
    ¬ AllStates step (fun s : Unit → Storage => ∀ i, ∀ r ∈ (s i).ranges, r.Inside)
      (fun _ => (Start.buffer 0 true).storage) [.on () (.write 8 true)] ∧
    ¬ AllStates step (fun s : Unit → Storage => ∀ i, ∀ r ∈ (s i).ranges, r.Inside)
      (fun _ => (Start.reference 16 false).storage) [.on () (.read 0x80000000)] ∧
    ¬ AllStates step (fun s : Unit → Storage => ∀ i, (s i).Bounded)
      (fun _ => (Start.reference 8 false).storage) [.on () (.reAlloc 16 true)] := by
  refine ⟨fun h => ?_, fun h => ?_, fun h => ?_, fun h => ?_⟩
  · exact absurd ((h.last rfl) ()).pos_le (by decide)
  · exact absurd ((h.last rfl) () ⟨0, 0, 8⟩ (by decide) (by decide)).2 (by decide)
  · exact absurd ((h.last rfl) () ⟨16, 0, 0x80000000⟩ (by decide) (by decide)).2 (by decide)
  · exact absurd ((h.last rfl) ()).avail_le (by decide)

end Storage

end OpenBinder
