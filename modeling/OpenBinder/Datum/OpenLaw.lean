import OpenBinder.Datum.StreamDatum

/-!
# Streams that may not write

* `Stream.perform_datum`: what such a stream is given out for leaves the datum alone.
* `initAtom_datum`: opening it does not.
* `unmodified_iff`: when a datum stays as it is from the opening of such a stream on.
-/

namespace OpenBinder.BStreamDatum

open Lib

variable {d : BStreamDatum} {s : Stream} {mode m_mode type : BitVec 32} {editor : Editor}
  {storeSize : StoreSize} {storeType : StoreType}

/-- The datum and the stream after some operations. -/
def Stream.run : BStreamDatum → Stream → List Stream.Op → BStreamDatum × Stream
  | d, s, [] => (d, s)
  | d, s, op :: ops => run (s.perform d op).datum (s.perform d op).stream ops

theorem Stream.perform_mode (op : Stream.Op) : (s.perform d op).stream.mode = s.mode := by
  rcases op with _ | _ | _ | ⟨_, seekMode⟩ | _ | _ | _ | _ | _
  case seek => cases seekMode <;> rfl
  case setSize => simp only [perform, setSize]; split <;> rfl
  case readAtV => simp only [perform, readAtV]; split <;> rfl
  case writeAtV => simp only [perform, writeAtV]; split <;> rfl
  all_goals rfl

/-- **Without write access** what `Inspect` gives out leaves the datum alone. -/
theorem Stream.perform_datum (h : ¬ s.writes) {op : Stream.Op} (hop : s.exposes op) :
    (s.perform d op).datum = d := by
  rcases op with _ | _ | _ | _ | _ | _ | _ | _ | _
  case writeV => exact absurd hop h
  case setSize => simp only [perform, setSize, if_neg h]
  case readAtV => simp only [perform, readAtV]; split <;> rfl
  case writeAtV => simp only [perform, writeAtV, if_neg h]
  all_goals rfl

theorem Stream.run_datum (ops : List Stream.Op) : ∀ {s : Stream}, ¬ s.writes →
    (∀ op ∈ ops, s.exposes op) → (Stream.run d s ops).1 = d := by
  induction ops with
  | nil => intro s _ _; rfl
  | cons op ops ih =>
    intro s h hops
    have hmode := Stream.perform_mode (d := d) (s := s) op
    rw [Stream.run, Stream.perform_datum h (hops op (List.mem_cons_self ..))]
    refine ih ?_ fun op' hop' => ?_
    · rwa [Stream.writes, hmode]
    · -- what a stream gives out goes by its mode
      have hexposed := hops op' (List.mem_cons_of_mem _ hop')
      rcases op' <;> first | trivial | simpa only [Stream.exposes, Stream.reads, Stream.writes, hmode] using hexposed

theorem and_mask (a x : BitVec 32) (hx : x &&& IDatum.readWriteMask = x) :
    ((a &&& ~~~IDatum.readWriteMask) ||| x) &&& IDatum.readWriteMask = x := by
  have hzero : ~~~IDatum.readWriteMask &&& IDatum.readWriteMask = 0 := by decide
  rw [BitVec.and_comm, BitVec.and_or_distrib_left, BitVec.and_comm _ (a &&& _), BitVec.and_assoc,
    hzero, BitVec.and_comm _ x, hx]
  exact (congrArg (· ||| x) BitVec.and_zero).trans BitVec.zero_or

theorem restrictMode_readOnly (h : m_mode &&& IDatum.readWriteMask = IDatum.readOnly) :
    restrictMode mode m_mode = refusedMode ∨
      ¬ (⟨restrictMode mode m_mode, editor, 0⟩ : Stream).writes := by
  have hself : (mode &&& IDatum.readWriteMask) &&& IDatum.readWriteMask =
      mode &&& IDatum.readWriteMask := by rw [BitVec.and_assoc, BitVec.and_self]
  simp only [restrictMode, h, if_pos]
  by_cases hw : mode &&& IDatum.readWriteMask = IDatum.writeOnly
  · rw [if_pos hw]
    exact .inl rfl
  · rw [if_neg hw]
    right
    by_cases hrw : mode &&& IDatum.readWriteMask = IDatum.readWrite
    · rw [if_pos hrw, Stream.writes, and_mask _ _ (by decide)]
      decide
    · rw [if_neg hrw, Stream.writes, and_mask _ _ hself]
      exact not_or.2 ⟨hw, hrw⟩

theorem storeSizeLocked_zero : (d.storeSizeLocked storeSize 0).2 =
    { d with bytes := if storeSize.isOk then [] else d.bytes } := by
  rcases storeSize with err | n
  · rfl
  · simp [storeSizeLocked, Except.isOk, Except.toBool]

theorem storeValueTypeLocked_snd : (d.storeValueTypeLocked storeType type).2 =
    { d with type := if storeType = none then type else d.type } := by
  rcases storeType with _ | err <;> rfl

/-- **The datum after a stream is opened**: erased, and with another type, where that is asked for and
the virtuals can do it. -/
theorem initAtom_datum : (d.initAtom mode type editor storeSize storeType).2.1 =
    ⟨if type ≠ 0 ∧ storeType = none then type else d.type,
      if mode &&& IDatum.eraseDatum ≠ 0 ∧ storeSize.isOk then [] else d.bytes⟩ := by
  have herased : (if mode &&& IDatum.eraseDatum ≠ 0 ∧
      (if mode &&& IDatum.eraseDatum ≠ 0 then d.sizeLocked else -1) ≠ 0 then
        d.storeSizeLocked storeSize 0 else (-1, d)).2 =
      { d with bytes := if mode &&& IDatum.eraseDatum ≠ 0 ∧ storeSize.isOk then [] else d.bytes } := by
    by_cases herase : mode &&& IDatum.eraseDatum ≠ 0
    · rw [if_pos herase]
      simp only [and_iff_right herase]
      by_cases hsize : d.sizeLocked ≠ 0
      · rw [if_pos hsize, storeSizeLocked_zero]
      · -- there is nothing to erase
        have hnil : d.bytes = [] := List.length_eq_zero_iff.1 (Int.ofNat_eq_zero.1 (not_not.1 hsize))
        rw [if_neg hsize, hnil, ite_self, ← hnil]
    · rw [if_neg fun h => herase h.1, if_neg fun h => herase h.1]
  have htyped : ∀ d1 : BStreamDatum,
      (if type ≠ 0 ∧ d1.type ≠ type then d1.storeValueTypeLocked storeType type else (-1, d1)).2 =
      { d1 with type := if type ≠ 0 ∧ storeType = none then type else d1.type } := by
    intro d1
    by_cases hzero : type ≠ 0
    · simp only [and_iff_right hzero]
      by_cases hsame : d1.type ≠ type
      · rw [if_pos hsame, storeValueTypeLocked_snd]
      · rw [if_neg hsame, ← not_not.1 hsame, ite_self]
    · rw [if_neg fun h => hzero h.1, if_neg fun h => hzero h.1]
  unfold initAtom
  simp only
  rw [htyped, herased]

/-- The virtuals change nothing when a stream is opened: they are not asked to, or cannot, or what is
asked for is there. -/
def Harmless (d : BStreamDatum) (mode newType : BitVec 32) (storeSize : StoreSize)
    (storeType : StoreType) : Prop :=
  (mode &&& IDatum.eraseDatum ≠ 0 ∧ storeSize.isOk → d.bytes = []) ∧
    (newType ≠ 0 ∧ storeType = none → newType = d.type)

theorem initAtom_datum_iff :
    (d.initAtom mode type editor storeSize storeType).2.1 = d ↔
      Harmless d mode type storeSize storeType := by
  rw [initAtom_datum, Harmless]
  rw [BStreamDatum.mk.injEq, and_comm, ite_eq_right_iff, ite_eq_right_iff]
  exact and_congr_left' (forall_congr' fun _ => eq_comm)

/-- A datum is as it was after a stream was opened on it and used by what it gives out. -/
def Unmodified (d : BStreamDatum) (m_mode mode : BitVec 32) (editor : Editor) (newType : BitVec 32)
    (storeSize : StoreSize) (storeType : StoreType) (ops : List Stream.Op) : Prop :=
  match d.openStream m_mode mode editor newType storeSize storeType with
  | (none, d', _) => d' = d
  | (some s, d', _) => (∀ op ∈ ops, s.exposes op) → (Stream.run d' s ops).1 = d

/-- **A datum cannot be changed** through a stream that it gives without write access, whatever is
done with it, exactly where opening it is `Harmless`. -/
theorem unmodified_iff (d : BStreamDatum) (m_mode mode : BitVec 32) (editor : Editor)
    (newType : BitVec 32) (storeSize : StoreSize) (storeType : StoreType)
    (h : m_mode &&& IDatum.readWriteMask = IDatum.readOnly ∨
      ¬ (⟨restrictMode mode m_mode, editor, 0⟩ : Stream).writes) :
    (∀ ops, Unmodified d m_mode mode editor newType storeSize storeType ops) ↔
      restrictMode mode m_mode = refusedMode ∨
        Harmless d (restrictMode mode m_mode) newType storeSize storeType := by
  unfold Unmodified openStream
  by_cases hrefused : restrictMode mode m_mode = refusedMode
  · rw [if_pos hrefused]
    exact iff_of_true (fun _ => rfl) (Or.inl hrefused)
  · have hmode : ¬ (d.initAtom (restrictMode mode m_mode) newType editor storeSize
        storeType).1.writes := by
      rcases h with h | h
      · exact (@restrictMode_readOnly _ _ editor h).resolve_left hrefused
      · exact h
    rw [if_neg hrefused, or_iff_right hrefused,
      ← @initAtom_datum_iff d _ newType editor storeSize storeType]
    generalize d.initAtom (restrictMode mode m_mode) newType editor storeSize storeType = opened
      at hmode ⊢
    obtain ⟨s, d', reports⟩ := opened
    constructor
    · intro hall
      exact hall [] fun op hop => absurd hop List.not_mem_nil
    · intro hsame ops hops
      exact (Stream.run_datum ops hmode hops).trans hsame

theorem unmodified_iff_plain :
    (∀ ops, Unmodified ⟨1, [5]⟩ IDatum.readOnly IDatum.readWrite none 0 (.ok 0) none ops) ↔
      restrictMode IDatum.readWrite IDatum.readOnly = refusedMode ∨
        Harmless ⟨1, [5]⟩ (restrictMode IDatum.readWrite IDatum.readOnly) 0 (.ok 0) none :=
  unmodified_iff _ _ _ _ _ _ _ (Or.inl (by decide))

/-- `Open` with `ERASE_DATUM` on a datum that is read only erases it. -/
theorem open_erases :
    (⟨1, [5]⟩ : BStreamDatum).openStream IDatum.readOnly IDatum.eraseDatum none 0 (.ok 0) none =
        (some ⟨IDatum.eraseDatum, none, 0⟩, ⟨1, []⟩, [⟨none, sizeChanged ||| dataChanged, 0, 1⟩]) ∧
      ¬ Unmodified ⟨1, [5]⟩ IDatum.readOnly IDatum.eraseDatum none 0 (.ok 0) none [] := by
  have hopen : (⟨1, [5]⟩ : BStreamDatum).openStream IDatum.readOnly IDatum.eraseDatum none 0 (.ok 0)
      none = (some ⟨IDatum.eraseDatum, none, 0⟩, ⟨1, []⟩,
        [⟨none, sizeChanged ||| dataChanged, 0, 1⟩]) := by decide
  refine ⟨hopen, fun h => ?_⟩
  rw [Unmodified, hopen] at h
  exact absurd (h fun op hop => absurd hop List.not_mem_nil) (by decide)

end OpenBinder.BStreamDatum
